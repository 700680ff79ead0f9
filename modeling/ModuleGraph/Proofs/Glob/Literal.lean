import ModuleGraph.Proofs.Glob.Segments

set_option autoImplicit false

/-! # Globs that start with a literal text

`Exclude.literally` writes a text as a glob, in which a character with a meaning stands in a class
of its own. A text without backslashes is read back character by character (`parseFrom_literally`),
and its items take just this text (`leads_literally_iff`).

A backslash is written as it is, and takes the meaning from what follows it. Up to the first one
the items are those of the text, and the item there misses the backslash. What is read behind it
cannot mend that, because items that have been read stay (`Stays.isPrefix`). So the glob takes no
text that starts with the text it was written from (`not_leads_of_backslash`).
-/

namespace ModuleGraph

namespace Glob

open Exclude (isMeta literally)

/-! ## Items that stay -/

/-- What reading the next part of a text can do to the items of a branch and to the open groups:
there is one more item, a `**` may have taken the place of the last one, or a group is opened,
comes to its next branch, or is closed. -/
inductive Advances (cs : List Char) (items : List GlobToken) (groups : List OpenGroup) :
    List GlobToken → List OpenGroup → Prop where
  | item (item : GlobToken) : Advances cs items groups (item :: items) groups
  | stars (item : GlobToken) (front : List GlobToken) : ['*', '*'] <+: cs →
      Advances cs items groups (item :: (front ++ items.tail)) groups
  | opened : Advances cs items groups [] (⟨[], items⟩ :: groups)
  | branch {group : OpenGroup} {outer : List OpenGroup} (branches : List (List GlobToken)) :
      groups = group :: outer → Advances cs items groups [] (⟨branches, group.before⟩ :: outer)
  | closed {group : OpenGroup} {outer : List OpenGroup} (item : GlobToken) :
      groups = group :: outer → Advances cs items groups (item :: group.before) outer

theorem readDoubleStar_cases (before : Option Char) (items : List GlobToken) (grouped : Bool)
    (rest : List Char) :
    ∃ item front before' rest', rest'.length ≤ rest.length ∧
      readDoubleStar before items grouped rest = (item :: (front ++ items.tail), before', rest') := by
  unfold readDoubleStar
  cases items with
  | nil =>
      dsimp only
      split
      · exact ⟨_, [], _, _, Nat.le_refl _, rfl⟩
      · exact ⟨_, [], _, _, Nat.le_succ _, rfl⟩
      · exact ⟨_, [.star], _, _, Nat.le_refl _, rfl⟩
  | cons last earlier =>
      -- Which item the last one is decides whether it stays; the rest is the same for all.
      cases last
      all_goals
        dsimp only
        split
        · split
          · exact ⟨_, [], _, _, Nat.le_refl _, rfl⟩
          · exact ⟨_, [], _, _, Nat.le_succ _, rfl⟩
          · split
            · exact ⟨_, [], _, _, Nat.le_refl _, rfl⟩
            · exact ⟨.star, [.star, _], _, _, Nat.le_refl _, rfl⟩
        · exact ⟨.star, [.star, _], _, _, Nat.le_refl _, rfl⟩

theorem length_classBody_le (cs : List Char) : (classBody cs).2.length ≤ cs.length := by
  unfold classBody
  split <;> simp

theorem length_le_of_readClass {first : Bool} {s : ClassState} {cs after : List Char}
    {ranges : List (Char × Char)} (h : readClass first s cs = .ok (ranges, after)) :
    after.length ≤ cs.length := by
  induction cs generalizing first s with
  | nil => cases h
  | cons c cs ih =>
      rw [readClass] at h
      split at h
      · cases h
        exact Nat.le_succ _
      · split at h
        · cases h
        · exact (ih h).trans (Nat.le_succ _)

/-- **One step of reading a glob.** -/
theorem parseFrom_advances {fuel : Nat} {mode : Brackets} {before : Option Char}
    {items : List GlobToken} {groups : List OpenGroup} {c : Char} {rest : List Char} {glob : Glob}
    (h : parseFrom (fuel + 1) mode before items groups (c :: rest) = .ok glob) :
    ∃ mode' before' items' groups' rest', rest'.length ≤ rest.length ∧
      Advances (c :: rest) items groups items' groups' ∧
      parseFrom fuel mode' before' items' groups' rest' = .ok glob := by
  unfold parseFrom at h
  dsimp only at h
  split at h
  case h_2 after =>
    obtain ⟨item, front, before', rest', hlength, hread⟩ :=
      readDoubleStar_cases before items (!groups.isEmpty) after
    rw [hread] at h
    exact ⟨_, _, _, _, _, hlength.trans (Nat.le_succ _), .stars item front ⟨after, rfl⟩, h⟩
  case h_4 =>
    split at h
    · exact ⟨_, _, _, _, _, Nat.le_refl _, .item _, h⟩
    · split at h
      · split at h
        · exact ⟨_, _, _, _, _, Nat.le_refl _, .item _, h⟩
        · cases h
      · rename_i ranges after hclass
        have hlength := (length_le_of_readClass hclass).trans (length_classBody_le rest)
        exact ⟨_, _, _, _, _, hlength, .item _, h⟩
  case h_5 => exact ⟨_, _, _, _, _, Nat.le_refl _, .opened, h⟩
  case h_6 => cases h
  case h_7 => exact ⟨_, _, _, _, _, Nat.le_refl _, .closed _ rfl, h⟩
  case h_8 => exact ⟨_, _, _, _, _, Nat.le_refl _, .branch _ rfl, h⟩
  case h_9 => cases h
  case h_10 => exact ⟨_, _, _, _, _, Nat.le_succ _, .item _, h⟩
  all_goals exact ⟨_, _, _, _, _, Nat.le_refl _, .item _, h⟩

/-- Items, last one first, that cannot change any more. They are among those before the outermost
group or, where no group is open, among those of the branch; but a `**` that follows could still
take the place of the last one. -/
structure Stays (fixed : List GlobToken) (cs : List Char) (items : List GlobToken)
    (groups : List OpenGroup) : Prop where
  branch : groups = [] → fixed <:+ items ∧ (['*', '*'] <+: cs → fixed <:+ items.tail)
  outermost : ∀ group ∈ groups.getLast?, fixed <:+ group.before

theorem Stays.advances {fixed items items' : List GlobToken} {groups groups' : List OpenGroup}
    {cs : List Char} (hstays : Stays fixed cs items groups)
    (h : Advances cs items groups items' groups') (cs' : List Char) :
    Stays fixed cs' items' groups' := by
  cases h with
  | item item =>
      refine ⟨fun hnone => ?_, hstays.outermost⟩
      have hitems := (hstays.branch hnone).1
      exact ⟨hitems.trans (List.suffix_cons _ _), fun _ => hitems⟩
  | stars item front hcs =>
      refine ⟨fun hnone => ?_, hstays.outermost⟩
      have htail := ((hstays.branch hnone).2 hcs).trans (List.suffix_append front _)
      exact ⟨htail.trans (List.suffix_cons _ _), fun _ => htail⟩
  | opened =>
      refine ⟨fun hnone => absurd hnone (List.cons_ne_nil _ _), fun outermost hlast => ?_⟩
      cases groups with
      | nil =>
          obtain rfl := Option.some.inj hlast
          exact (hstays.branch rfl).1
      | cons group outer =>
          rw [List.getLast?_cons_cons] at hlast
          exact hstays.outermost outermost hlast
  | @branch group outer branches hgroups =>
      subst hgroups
      refine ⟨fun hnone => absurd hnone (List.cons_ne_nil _ _), fun outermost hlast => ?_⟩
      cases outer with
      | nil =>
          obtain rfl := Option.some.inj hlast
          exact hstays.outermost group rfl
      | cons next outer =>
          rw [List.getLast?_cons_cons] at hlast
          exact hstays.outermost outermost (by rwa [List.getLast?_cons_cons])
  | @closed group _ item hgroups =>
      subst hgroups
      constructor
      · rintro rfl
        have hitems := hstays.outermost group rfl
        exact ⟨hitems.trans (List.suffix_cons _ _), fun _ => hitems⟩
      · intro outermost hlast
        cases groups' with
        | nil => cases hlast
        | cons next outer => exact hstays.outermost outermost (by rwa [List.getLast?_cons_cons])

/-- **What cannot change any more is at the start of the glob.** -/
theorem Stays.isPrefix {fixed items : List GlobToken} {groups : List OpenGroup} {cs : List Char}
    {fuel : Nat} {mode : Brackets} {before : Option Char} {glob : Glob}
    (hstays : Stays fixed cs items groups) (hfuel : cs.length < fuel)
    (h : parseFrom fuel mode before items groups cs = .ok glob) : fixed.reverse <+: glob := by
  induction fuel generalizing mode before items groups cs with
  | zero => exact absurd hfuel (Nat.not_lt_zero _)
  | succ fuel ih =>
      cases cs with
      | nil =>
          rw [parseFrom] at h
          split at h
          · rename_i hgroups
            cases h
            rw [List.isEmpty_iff.mp hgroups] at hstays
            exact List.reverse_prefix.mpr (hstays.branch rfl).1
          · cases h
      | cons c rest =>
          obtain ⟨mode', before', items', groups', rest', hlength, hadvances, hparse⟩ :=
            parseFrom_advances h
          rw [List.length_cons] at hfuel
          exact ih (hstays.advances hadvances rest') (by omega) hparse

/-! ## Items that take one character -/

/-- The item takes the character and nothing else. -/
def TakesChar (item : GlobToken) (c : Char) : Prop :=
  ∀ text, leaves item text = (strip? (unitsOf c) text).toList

theorem takesChar_literal (c : Char) : TakesChar (.literal c) c := fun text => by rw [leaves]

/-- A class of one character takes it, if it is a single unit. -/
theorem takesChar_oneOf {c : Char} {u : UInt8} (hc : unitsOf c = [u]) :
    TakesChar (.oneOf false [(c, c)]) c := by
  intro text
  cases text with
  | nil => simp [leaves, hc, strip?]
  | cons v text =>
      have hmem : inRanges [(c, c)] v = decide (u = v) := by
        simp [inRanges, unitRanges, hc, UInt8.le_antisymm_iff]
      rw [leaves, hmem, hc, strip?]
      by_cases huv : u = v <;> simp [huv, strip?]

theorem leads_takesChar_iff {item : GlobToken} {c : Char} (hitem : TakesChar item c)
    {tokens : List GlobToken} {text rest : Units} :
    Leads (item :: tokens) text rest ↔ ∃ mid, text = unitsOf c ++ mid ∧ Leads tokens mid rest := by
  simp only [Leads, hitem text, Option.mem_toList, strip?_eq_some_iff]

/-- The item of a character that is written literally. -/
def literalItem (c : Char) : GlobToken := if isMeta c then .oneOf false [(c, c)] else .literal c

theorem isMeta_cases {c : Char} (h : isMeta c = true) :
    c = '?' ∨ c = '*' ∨ c = '[' ∨ c = ']' ∨ c = '\x7b' ∨ c = '\x7d' := by
  simpa [isMeta, or_assoc] using h

theorem takesChar_literalItem (c : Char) : TakesChar (literalItem c) c := by
  unfold literalItem
  split
  · rename_i hmeta
    have hunit : ∃ u, unitsOf c = [u] := by
      rcases isMeta_cases hmeta with rfl | rfl | rfl | rfl | rfl | rfl <;> exact ⟨_, rfl⟩
    obtain ⟨u, hu⟩ := hunit
    exact takesChar_oneOf hu
  · exact takesChar_literal c

/-! ## Reading a literal text -/

theorem literally_cons (c : Char) (cs : List Char) :
    literally (c :: cs) = (if isMeta c then ['[', c, ']'] else [c]) ++ literally cs :=
  List.flatMap_cons

theorem length_lt_of_literally_cons {c : Char} {cs rest : List Char} {fuel : Nat}
    (h : (literally (c :: cs) ++ rest).length < fuel + 1) :
    (literally cs ++ rest).length < fuel := by
  rw [literally_cons, List.append_assoc, List.length_append] at h
  split at h <;> simp only [List.length_cons] at h <;> omega

theorem parseFrom_class {c : Char} (hc : isMeta c = true) (fuel : Nat) (before : Option Char)
    (items : List GlobToken) (rest : List Char) :
    parseFrom (fuel + 1) .strict before items [] ('[' :: c :: ']' :: rest)
      = parseFrom fuel .strict (some ']') (.oneOf false [(c, c)] :: items) [] rest := by
  rcases isMeta_cases hc with rfl | rfl | rfl | rfl | rfl | rfl <;> rfl

/-- A character other than a backslash is read as its item. -/
theorem parseFrom_literal {c : Char} (hc : c ≠ '\\') (fuel : Nat) (before : Option Char)
    (items : List GlobToken) (rest : List Char) :
    ∃ before', parseFrom (fuel + 1) .strict before items []
        ((if isMeta c then ['[', c, ']'] else [c]) ++ rest)
      = parseFrom fuel .strict before' (literalItem c :: items) [] rest := by
  unfold literalItem
  split
  · rename_i hmeta
    exact ⟨_, parseFrom_class hmeta fuel before items rest⟩
  · rename_i hmeta
    exact ⟨_, parseFrom_plain ⟨by simpa using hmeta, hc⟩ fuel before items rest⟩

/-- **A literal text without backslashes is read character by character.** -/
theorem parseFrom_literally {cs : List Char} (h : '\\' ∉ cs) {fuel : Nat} {rest : List Char}
    (hfuel : (literally cs ++ rest).length < fuel) (before : Option Char)
    (items : List GlobToken) :
    ∃ fuel' before', rest.length < fuel' ∧
      parseFrom fuel .strict before items [] (literally cs ++ rest)
        = parseFrom fuel' .strict before' ((cs.map literalItem).reverse ++ items) [] rest := by
  induction cs generalizing fuel before items with
  | nil => exact ⟨fuel, before, hfuel, rfl⟩
  | cons c cs ih =>
      rw [List.mem_cons, not_or] at h
      obtain ⟨fuel, rfl⟩ : ∃ n, fuel = n + 1 := ⟨fuel - 1, by omega⟩
      obtain ⟨before', hread⟩ := parseFrom_literal (Ne.symm h.1) fuel before items
        (literally cs ++ rest)
      obtain ⟨fuel', before'', hrest, hparse⟩ :=
        ih h.2 (length_lt_of_literally_cons hfuel) before' (literalItem c :: items)
      refine ⟨fuel', before'', hrest, ?_⟩
      rw [literally_cons, List.append_assoc, hread, hparse]
      simp

/-- **The items of a literal text take just this text.** -/
theorem leads_literally_iff {cs : List Char} {tokens : List GlobToken} {text rest : Units} :
    Leads (cs.map literalItem ++ tokens) text rest ↔
      ∃ mid, text = units cs ++ mid ∧ Leads tokens mid rest := by
  induction cs generalizing text with
  | nil => simp
  | cons c cs ih =>
      rw [List.map_cons, List.cons_append, leads_takesChar_iff (takesChar_literalItem c)]
      constructor
      · rintro ⟨mid, rfl, hlead⟩
        obtain ⟨last, rfl, hlast⟩ := ih.mp hlead
        exact ⟨last, by simp, hlast⟩
      · rintro ⟨mid, rfl, hlead⟩
        exact ⟨units cs ++ mid, by simp, ih.mpr ⟨mid, rfl, hlead⟩⟩

/-! ## Backslashes -/

/-- The items that are read from a position on take no text with the given start. -/
def Misses (glob : Glob) (items : List GlobToken) (cs : List Char) : Prop :=
  ∃ tokens, glob = items.reverse ++ tokens ∧ ∀ text rest, ¬Leads tokens (units (cs ++ text)) rest

theorem Misses.isMatch_eq_false {glob : Glob} {cs : List Char} (h : Misses glob [] cs)
    (text : List Char) : glob.isMatch (units (cs ++ text)) = false := by
  obtain ⟨_, rfl, hmiss⟩ := h
  have hleading : glob ≠ [.leading] := by
    rintro rfl
    refine hmiss text (units (cs ++ text)) ⟨_, ?_, rfl⟩
    rw [leaves]
    exact List.mem_cons_self
  rw [Bool.eq_false_iff, ne_eq, isMatch_iff hleading]
  exact hmiss text []

theorem Misses.of_takesChar {item : GlobToken} {c d : Char} (hitem : TakesChar item c)
    (hcd : c ≠ d) {items : List GlobToken} {cs start : List Char} {fuel : Nat}
    {before : Option Char} {glob : Glob} (hcs : ¬['*', '*'] <+: cs) (hfuel : cs.length < fuel)
    (h : parseFrom fuel .strict before (item :: items) [] cs = .ok glob) :
    Misses glob items (d :: start) := by
  have hstays : Stays (item :: items) cs (item :: items) [] :=
    ⟨fun _ => ⟨List.suffix_refl _, fun hstars => absurd hstars hcs⟩, by simp⟩
  obtain ⟨tokens, rfl⟩ := hstays.isPrefix hfuel h
  refine ⟨item :: tokens, by simp, fun text rest hlead => ?_⟩
  obtain ⟨mid, hmid, -⟩ := (leads_takesChar_iff hitem).mp hlead
  exact hcd (unitsOf_append_inj hmid).1.symm

theorem Misses.cons {item : GlobToken} {c : Char} (hitem : TakesChar item c)
    {items : List GlobToken} {cs : List Char} {glob : Glob} (h : Misses glob (item :: items) cs) :
    Misses glob items (c :: cs) := by
  obtain ⟨tokens, rfl, hmiss⟩ := h
  refine ⟨item :: tokens, by simp, fun text rest hlead => ?_⟩
  obtain ⟨mid, hmid, hlead⟩ := (leads_takesChar_iff hitem).mp hlead
  rw [List.cons_append, units_cons] at hmid
  rw [← (unitsOf_append_inj hmid).2] at hlead
  exact hmiss text rest hlead

theorem not_stars_literally (cs g : List Char) : ¬['*', '*'] <+: literally cs ++ '/' :: g := by
  cases cs with
  | nil => simp [literally]
  | cons c cs =>
      rw [literally_cons]
      split
      · simp
      · rename_i hmeta
        have hc : c ≠ '*' := by
          rintro rfl
          exact hmeta rfl
        simp [Ne.symm hc]

theorem parseFrom_backslash (c : Char) (fuel : Nat) (before : Option Char)
    (items : List GlobToken) (rest : List Char) :
    parseFrom (fuel + 1) .strict before items [] ('\\' :: c :: rest)
      = parseFrom fuel .strict (some c) (.literal c :: items) [] rest := rfl

/-- A backslash takes the meaning from the character that is written next, which is a bracket, a
slash or the character of the text itself. -/
theorem misses_of_escape {c : Char} (hc : c ≠ '\\') {items : List GlobToken}
    {cs start : List Char} {fuel : Nat} {before : Option Char} {glob : Glob}
    (hcs : ¬['*', '*'] <+: cs) (hfuel : ('\\' :: c :: cs).length < fuel)
    (h : parseFrom fuel .strict before items [] ('\\' :: c :: cs) = .ok glob) :
    Misses glob items ('\\' :: start) := by
  obtain ⟨fuel, rfl⟩ : ∃ n, fuel = n + 1 := ⟨fuel - 1, by omega⟩
  rw [parseFrom_backslash] at h
  simp only [List.length_cons] at hfuel
  exact .of_takesChar (takesChar_literal c) hc hcs (by omega) h

theorem misses_of_last_backslash {g cs start : List Char} (hg : ¬['*', '*'] <+: g)
    (hcs : cs.head? ≠ some '\\') {fuel : Nat} {before : Option Char} {items : List GlobToken}
    {glob : Glob} (hfuel : (literally ('\\' :: cs) ++ '/' :: g).length < fuel)
    (h : parseFrom fuel .strict before items [] (literally ('\\' :: cs) ++ '/' :: g) = .ok glob) :
    Misses glob items ('\\' :: start) := by
  cases cs with
  | nil => exact misses_of_escape (by decide) hg hfuel h
  | cons c cs =>
      rw [literally_cons, literally_cons] at hfuel h
      by_cases hmeta : isMeta c = true
      · rw [if_pos hmeta] at hfuel h
        exact misses_of_escape (by decide) (by simp) hfuel h
      · rw [if_neg hmeta] at hfuel h
        exact misses_of_escape (by simpa using hcs) (not_stars_literally cs g) hfuel h

theorem replicate_append_backslash (n : Nat) (cs : List Char) :
    List.replicate n '\\' ++ '\\' :: cs = '\\' :: (List.replicate n '\\' ++ cs) := by
  rw [← List.cons_append, ← List.replicate_succ, List.replicate_succ', List.append_assoc]
  rfl

/-- **A literal text with a backslash is not taken any more.** `waiting` counts the backslashes at
the start of what is to be taken that no item has been read for: a pair of them is read as one item
for one backslash. -/
theorem misses_of_backslash {g : List Char} (hg : ¬['*', '*'] <+: g) {cs : List Char}
    {waiting : Nat} {fuel : Nat} {before : Option Char} {items : List GlobToken} {glob : Glob}
    (hmem : 0 < waiting ∨ '\\' ∈ cs) (hfuel : (literally cs ++ '/' :: g).length < fuel)
    (h : parseFrom fuel .strict before items [] (literally cs ++ '/' :: g) = .ok glob) :
    Misses glob items (List.replicate waiting '\\' ++ cs) := by
  -- A pair of backslashes is read in one step, so that the induction is on the length.
  induction hn : cs.length using Nat.strong_induction_on generalizing cs waiting fuel before items with
  | h n ih =>
      obtain ⟨fuel, rfl⟩ : ∃ n, fuel = n + 1 := ⟨fuel - 1, by omega⟩
      cases cs with
      | nil =>
          obtain ⟨waiting, rfl⟩ : ∃ n, waiting = n + 1 := ⟨waiting - 1, by simp at hmem; omega⟩
          have hslash := takesChar_literal '/'
          change parseFrom (fuel + 1) .strict before items [] ('/' :: g) = .ok glob at h
          rw [parseFrom_plain (by decide)] at h
          exact .of_takesChar hslash (by decide) hg (by simpa [literally] using hfuel) h
      | cons c cs =>
          have hlength := length_lt_of_literally_cons hfuel
          by_cases hc : c = '\\'
          · subst hc
            rw [replicate_append_backslash]
            by_cases hcs : cs.head? = some '\\'
            · obtain ⟨cs, rfl⟩ := List.head?_eq_some_iff.mp hcs
              rw [replicate_append_backslash, ← List.cons_append, ← List.replicate_succ]
              have hpair : parseFrom fuel .strict (some '\\') (.literal '\\' :: items) []
                  (literally cs ++ '/' :: g) = .ok glob := h
              have hrest := length_lt_of_literally_cons (Nat.lt_succ_of_lt hlength)
              refine (ih cs.length ?_ (.inl (Nat.succ_pos waiting)) hrest hpair rfl).cons
                (takesChar_literal '\\')
              simp only [List.length_cons] at hn
              omega
            · exact misses_of_last_backslash hg hcs hfuel h
          · rw [literally_cons, List.append_assoc] at h
            obtain ⟨before', hread⟩ :=
              parseFrom_literal hc fuel before items (literally cs ++ '/' :: g)
            rw [hread] at h
            have hitem := takesChar_literalItem c
            cases waiting with
            | zero =>
                have hcs : '\\' ∈ cs := by simpa [Ne.symm hc] using hmem
                have hshort : cs.length < n := by simp [← hn]
                have hmiss : Misses glob (literalItem c :: items) (List.replicate 0 '\\' ++ cs) :=
                  ih cs.length hshort (.inr hcs) hlength h rfl
                exact hmiss.cons hitem
            | succ waiting => exact .of_takesChar hitem hc (not_stars_literally cs g) hlength h

end Glob

end ModuleGraph
