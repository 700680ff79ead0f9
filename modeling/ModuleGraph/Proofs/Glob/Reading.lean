import ModuleGraph.Exclude
import ModuleGraph.Proofs.Path.Rooted

set_option autoImplicit false

/-! # Reading globs of stars and plain characters

A glob is written from segments, each behind a slash, with no other sign than `*`. A segment `**`
is read as one item together with the slashes around it, and of several that follow each other one
is left; elsewhere than in a segment of its own, a pair of stars is read as two stars. `itemsOf`
says what becomes of the segments (`parseFrom_rooted`). Without any `**`, each character becomes an
item (`parse_rooted`).
-/

namespace ModuleGraph

namespace Glob

open ModuleGraph.Path (rooted rooted_nil rooted_cons)

/-- The item that a character of a segment is. -/
def token (c : Char) : GlobToken := if c = '*' then .star else .literal c

@[simp] theorem token_star : token '*' = .star := rfl

theorem token_of_ne {c : Char} (h : c ≠ '*') : token c = .literal c := if_neg h

/-- A character without any meaning in globs. -/
def IsPlain (c : Char) : Prop := Exclude.isMeta c = false ∧ c ≠ '\\'

instance (c : Char) : Decidable (IsPlain c) :=
  inferInstanceAs (Decidable (Exclude.isMeta c = false ∧ c ≠ '\\'))

/-- A segment of plain characters and stars, other than a pair of stars. -/
structure IsSegment (segment : List Char) : Prop where
  plain : ∀ c ∈ segment, c ≠ '/' ∧ (c = '*' ∨ IsPlain c)
  ne_pair : segment ≠ ['*', '*']

instance (q : List Char) : Decidable (IsSegment q) :=
  have : Decidable (∀ c ∈ q, c ≠ '/' ∧ (c = '*' ∨ IsPlain c)) := List.decidableBAll _ q
  decidable_of_iff ((∀ c ∈ q, c ≠ '/' ∧ (c = '*' ∨ IsPlain c)) ∧ q ≠ ['*', '*'])
    ⟨fun h => ⟨h.1, h.2⟩, fun h => ⟨h.plain, h.ne_pair⟩⟩

theorem IsSegment.slash_not_mem {segment : List Char} (h : IsSegment segment) : '/' ∉ segment :=
  fun hmem => (h.plain _ hmem).1 rfl

/-! ## One item at a time -/

theorem parseFrom_plain {c : Char} (hc : IsPlain c) (fuel : Nat) (before : Option Char)
    (items : List GlobToken) (rest : List Char) :
    parseFrom (fuel + 1) .strict before items [] (c :: rest)
      = parseFrom fuel .strict (some c) (.literal c :: items) [] rest := by
  have hne : ∀ d : Char, ¬IsPlain d → c ≠ d := by
    rintro d hd rfl
    exact hd hc
  rw [parseFrom]
  all_goals simp [hne '?' (by decide), hne '*' (by decide), hne '[' (by decide),
    hne '\x7b' (by decide), hne '\x7d' (by decide), hne '\\' (by decide)]

theorem parseFrom_star {rest : List Char} (hrest : rest.head? ≠ some '*') (fuel : Nat)
    (before : Option Char) (items : List GlobToken) :
    parseFrom (fuel + 1) .strict before items [] ('*' :: rest)
      = parseFrom fuel .strict (some '*') (.star :: items) [] rest := by
  rw [parseFrom]
  rintro after rfl
  exact hrest rfl

/-- A pair of stars that does not fill its segment is two stars. -/
theorem parseFrom_stars {before : Option Char} {items : List GlobToken} {rest : List Char}
    (hitems : items ≠ [])
    (hfree : before = some '/' → rest ≠ [] ∧ rest.head? ≠ some '/') (fuel : Nat) :
    parseFrom (fuel + 1) .strict before items [] ('*' :: '*' :: rest)
      = parseFrom fuel .strict (some '*') (.star :: .star :: items) [] rest := by
  have hread : readDoubleStar before items false rest = (.star :: .star :: items, some '*', rest) := by
    cases items with
    | nil => exact absurd rfl hitems
    | cons last earlier =>
        by_cases hbefore : before = some '/'
        · obtain ⟨hne, hslash⟩ := hfree hbefore
          cases rest with
          | nil => exact absurd rfl hne
          | cons c rest =>
              have hc : c ≠ '/' := fun h => hslash (by rw [h]; rfl)
              simp [readDoubleStar]
        · simp [readDoubleStar, hbefore]
  rw [parseFrom]
  simp only [List.isEmpty_nil, Bool.not_true, hread]

/-! ## One segment at a time -/

/-- A segment is read up to the slash behind it, item by item. -/
theorem parseFrom_segment {rest : List Char} (hrest : ∀ c ∈ rest.head?, c = '/') :
    ∀ (segment : List Char) (before : Option Char) (items : List GlobToken) (fuel : Nat),
      (∀ c ∈ segment, c ≠ '/' ∧ (c = '*' ∨ IsPlain c)) →
      (before = some '/' → segment ≠ ['*', '*']) → items ≠ [] →
      segment.length + rest.length < fuel →
      ∃ fuel' before', rest.length < fuel' ∧
        parseFrom fuel .strict before items [] (segment ++ rest)
          = parseFrom fuel' .strict before' ((segment.map token).reverse ++ items) [] rest
  | [], before, items, fuel, _, _, _, hfuel => ⟨fuel, before, by simpa using hfuel, rfl⟩
  | c :: segment, before, items, 0, _, _, _, hfuel => by omega
  | c :: segment, before, items, fuel + 1, hplain, hpair, hitems, hfuel => by
      rw [List.forall_mem_cons] at hplain
      rw [List.length_cons] at hfuel
      by_cases hc : c = '*'
      · subst hc
        by_cases hnext : (segment ++ rest).head? = some '*'
        · -- Two stars in a row are read at once. What follows `rest` is a slash, if anything.
          have hsegment : ∃ more, segment = '*' :: more := by
            cases segment with
            | nil => exact absurd (hrest '*' hnext) (by decide)
            | cons d more => exact ⟨more, by rw [Option.some.inj hnext]⟩
          obtain ⟨more, rfl⟩ := hsegment
          rw [List.forall_mem_cons] at hplain
          rw [List.length_cons] at hfuel
          have hfree : before = some '/' → more ++ rest ≠ [] ∧ (more ++ rest).head? ≠ some '/' := by
            intro hbefore
            cases more with
            | nil => exact absurd rfl (hpair hbefore)
            | cons d more =>
                refine ⟨by simp, fun hhead => ?_⟩
                exact (hplain.2.2 d List.mem_cons_self).1 (Option.some.inj hhead)
          obtain ⟨fuel', before', hlength, hparse⟩ := parseFrom_segment hrest more (some '*')
            (.star :: .star :: items) fuel hplain.2.2 (fun h => by cases h) (by simp) (by omega)
          refine ⟨fuel', before', hlength, ?_⟩
          rw [List.cons_append, List.cons_append, parseFrom_stars hitems hfree, hparse]
          simp
        · obtain ⟨fuel', before', hlength, hparse⟩ := parseFrom_segment hrest segment (some '*')
            (.star :: items) fuel hplain.2 (fun h => by cases h) (by simp) (by omega)
          refine ⟨fuel', before', hlength, ?_⟩
          rw [List.cons_append, parseFrom_star hnext, hparse]
          simp
      · have hslash : some c ≠ some '/' := by simpa using hplain.1.1
        obtain ⟨fuel', before', hlength, hparse⟩ := parseFrom_segment hrest segment (some c)
          (.literal c :: items) fuel hplain.2 (fun h => absurd h hslash) (by simp) (by omega)
        refine ⟨fuel', before', hlength, ?_⟩
        rw [List.cons_append, parseFrom_plain (hplain.1.2.resolve_left hc), hparse]
        simp [token_of_ne hc]

/-! ## Segments behind slashes -/

/-- The segment that stands for any directories. -/
def stars : List Char := ['*', '*']

/-- The item of the slash before a segment. A `**` before it has become a part of it. -/
def slashItem (afterStars : Bool) : GlobToken := if afterStars then .between else .literal '/'

/-- The items of segments, each behind a slash. Segments `**` that follow each other are one item,
together with the slashes around them; `afterStars` tells that such an item has been started. -/
def itemsOf (afterStars : Bool) : List (List Char) → List GlobToken
  | [] => if afterStars then [.trailing] else []
  | q :: qs =>
    if q = stars then itemsOf true qs
    else slashItem afterStars :: (q.map token ++ itemsOf false qs)

@[simp] theorem itemsOf_stars (afterStars : Bool) (qs : List (List Char)) :
    itemsOf afterStars (stars :: qs) = itemsOf true qs := by
  rw [itemsOf, if_pos rfl]

theorem itemsOf_of_ne {q : List Char} (hq : q ≠ stars) (afterStars : Bool)
    (qs : List (List Char)) :
    itemsOf afterStars (q :: qs) = slashItem afterStars :: (q.map token ++ itemsOf false qs) := by
  rw [itemsOf, if_neg hq]

/-- Without any `**`, there is one item for each character. -/
theorem itemsOf_eq_map {segments : List (List Char)} (h : ∀ q ∈ segments, q ≠ stars) :
    itemsOf false segments = (rooted segments).map token := by
  induction segments with
  | nil => rfl
  | cons q qs ih =>
      rw [List.forall_mem_cons] at h
      rw [itemsOf_of_ne h.1, ih h.2, rooted_cons, List.map_cons, List.map_append]
      rfl

theorem leading_not_mem_itemsOf (afterStars : Bool) (segments : List (List Char)) :
    .leading ∉ itemsOf afterStars segments := by
  have htokens : ∀ q : List Char, .leading ∉ q.map token := by
    intro q hmem
    obtain ⟨c, -, hc⟩ := List.mem_map.mp hmem
    unfold token at hc
    split at hc <;> cases hc
  induction segments generalizing afterStars with
  | nil => cases afterStars <;> simp [itemsOf]
  | cons q qs ih =>
      by_cases hq : q = stars
      · rw [hq, itemsOf_stars]
        exact ih true
      · rw [itemsOf_of_ne hq]
        cases afterStars <;> simp only [slashItem, List.mem_cons, List.mem_append, htokens, ih] <;> simp

/-- A `**` and the slash behind it become a part of the slash before. -/
theorem parseFrom_stars_slash (afterStars : Bool) (items : List GlobToken) (fuel : Nat)
    (rest : List Char) :
    parseFrom (fuel + 1) .strict (some '/') (slashItem afterStars :: items) [] (stars ++ '/' :: rest)
      = parseFrom fuel .strict (some '/') (slashItem true :: items) [] rest := by
  cases afterStars <;> rfl

theorem parseFrom_stars_end (afterStars : Bool) (items : List GlobToken) (fuel : Nat) :
    parseFrom (fuel + 2) .strict (some '/') (slashItem afterStars :: items) [] stars
      = .ok (items.reverse ++ [.trailing]) := by
  cases afterStars <;> simp [parseFrom, stars, slashItem, readDoubleStar]

/-- A segment is read up to the segments behind it. -/
theorem parseFrom_segment_rooted {q : List Char} (hq : IsSegment q) (qs : List (List Char))
    (item : GlobToken) (items : List GlobToken) {fuel : Nat}
    (hfuel : (q ++ rooted qs).length < fuel) :
    ∃ fuel' before', (rooted qs).length ≤ fuel' ∧
      parseFrom fuel .strict (some '/') (item :: items) [] (q ++ rooted qs)
        = parseFrom (fuel' + 1) .strict before' ((q.map token).reverse ++ item :: items) []
            (rooted qs) := by
  have hhead : ∀ c ∈ (rooted qs).head?, c = '/' := by
    cases qs with
    | nil => simp
    | cons next rest => simp
  obtain ⟨fuel', before', hlength, hparse⟩ := parseFrom_segment hhead q (some '/') (item :: items)
    fuel hq.plain (fun _ => hq.ne_pair) (by simp) (by simpa using hfuel)
  obtain ⟨fuel', rfl⟩ : ∃ n, fuel' = n + 1 := ⟨fuel' - 1, by omega⟩
  exact ⟨fuel', before', by omega, hparse⟩

/-- Segments are read one after the other. The first one stands behind a slash that has been read
already, since a `**` changes the item of that slash. -/
theorem parseFrom_behind_slash {q : List Char} {qs : List (List Char)}
    (hq : q = stars ∨ IsSegment q) (hqs : ∀ r ∈ qs, r = stars ∨ IsSegment r) (afterStars : Bool)
    (items : List GlobToken) {fuel : Nat} (hfuel : (q ++ rooted qs).length < fuel) :
    parseFrom fuel .strict (some '/') (slashItem afterStars :: items) [] (q ++ rooted qs)
      = .ok (items.reverse ++ itemsOf afterStars (q :: qs)) := by
  induction qs generalizing q afterStars items fuel with
  | nil =>
      rcases hq with rfl | hq
      · obtain ⟨fuel, rfl⟩ : ∃ n, fuel = n + 2 := ⟨fuel - 2, by simp [stars] at hfuel; omega⟩
        rw [rooted_nil, List.append_nil, parseFrom_stars_end]
        rfl
      · obtain ⟨fuel', before, -, hparse⟩ :=
          parseFrom_segment_rooted hq [] (slashItem afterStars) items hfuel
        rw [hparse, itemsOf_of_ne hq.ne_pair, rooted_nil, parseFrom]
        simp [itemsOf]
  | cons r rs ih =>
      rw [List.forall_mem_cons] at hqs
      rcases hq with rfl | hq
      · obtain ⟨fuel, rfl⟩ : ∃ n, fuel = n + 1 := ⟨fuel - 1, by omega⟩
        rw [rooted_cons, parseFrom_stars_slash, ih hqs.1 hqs.2 true items, itemsOf_stars]
        simp [stars] at hfuel ⊢
        omega
      · obtain ⟨fuel', before, hlength, hparse⟩ :=
          parseFrom_segment_rooted hq (r :: rs) (slashItem afterStars) items hfuel
        rw [hparse, rooted_cons, parseFrom_plain (by decide)]
        refine (ih hqs.1 hqs.2 false _ (Nat.lt_of_succ_le (by simpa using hlength))).trans ?_
        rw [itemsOf_of_ne hq.ne_pair]
        simp

/-- **Segments behind slashes are read item by item.** -/
theorem parseFrom_rooted {segments : List (List Char)} (h : ∀ q ∈ segments, q = stars ∨ IsSegment q)
    {fuel : Nat} (hfuel : (rooted segments).length < fuel) (before : Option Char)
    (items : List GlobToken) :
    parseFrom fuel .strict before items [] (rooted segments)
      = .ok (items.reverse ++ itemsOf false segments) := by
  obtain ⟨fuel, rfl⟩ : ∃ n, fuel = n + 1 := ⟨fuel - 1, by omega⟩
  cases segments with
  | nil =>
      rw [rooted_nil, parseFrom]
      simp [itemsOf]
  | cons q qs =>
      rw [List.forall_mem_cons] at h
      rw [rooted_cons] at hfuel ⊢
      rw [parseFrom_plain (by decide)]
      exact parseFrom_behind_slash h.1 h.2 false items (by simpa using hfuel)

/-- A glob of segments behind slashes is read item by item. -/
theorem parse_segments {segments : List (List Char)} (h : ∀ q ∈ segments, q = stars ∨ IsSegment q) :
    parse (String.ofList (rooted segments)) = .ok (itemsOf false segments) := by
  unfold parse
  rw [String.toList_ofList, parseFrom_rooted h (Nat.lt_succ_self _) none []]
  rfl

/-- **Segments without any `**` are read character by character.** -/
theorem parse_rooted {segments : List (List Char)} (h : ∀ q ∈ segments, IsSegment q) :
    parse (String.ofList (rooted segments)) = .ok ((rooted segments).map token) := by
  rw [parse_segments fun q hq => .inr (h q hq), itemsOf_eq_map fun q hq => (h q hq).ne_pair]

end Glob

end ModuleGraph
