import ModuleGraph.Proofs.Anchor

set_option autoImplicit false

/-! # Globs segment by segment

A glob of segments that starts at the root takes the paths whose names its segments cover
(`Glob.isMatch_itemsOf_iff`). A glob that starts with a `**` takes these as well, but it is compared
with the text of a path and not with its names: its first item may stop before the slash of the
root, where the next segment can only take the empty text. Only a segment of stars can do that
(`Glob.isMatch_leading_iff`), and then the segments behind it have to cover all of the names. So the
glob `**/*/b` excludes the file `/b`, where no name is left for its star
(`Exclude.excludes_segmentwise`).
-/

namespace ModuleGraph

namespace Glob

open ModuleGraph.Path (rooted rooted_nil rooted_cons)

/-! ## Reading a glob that starts with a `**` -/

/-- The items of the segments behind a `**` that starts a glob. The first one has no item for the
slash before it, since that has become a part of the `**`, and so has every other `**` there. -/
def leadingItems (segments : List (List Char)) : List GlobToken :=
  match segments.dropWhile (· == stars) with
  | [] => []
  | q :: qs => q.map token ++ itemsOf false qs

@[simp] theorem leadingItems_stars (qs : List (List Char)) :
    leadingItems (stars :: qs) = leadingItems qs := by
  rw [leadingItems, leadingItems, List.dropWhile_cons_of_pos (by simp)]

theorem isFlat_leadingItems (segments : List (List Char)) : IsFlat (leadingItems segments) := by
  unfold leadingItems
  split
  · simp [IsFlat]
  · exact (isFlat_map_token _).append (isFlat_itemsOf _ _)

theorem leadingItems_of_ne {q : List Char} (hq : q ≠ stars) (qs : List (List Char)) :
    leadingItems (q :: qs) = q.map token ++ itemsOf false qs := by
  rw [leadingItems, List.dropWhile_cons_of_neg (by simpa using hq)]

/-- A segment `**` behind a leading one adds nothing. -/
theorem parseFrom_leading_stars (fuel : Nat) (rest : List Char) :
    parseFrom (fuel + 1) .strict (some '/') [.leading] [] (stars ++ '/' :: rest)
      = parseFrom fuel .strict (some '/') [.leading] [] rest := rfl

theorem parseFrom_behind_leading {q : List Char} {qs : List (List Char)}
    (hq : q = stars ∨ IsSegment q) (hqs : ∀ r ∈ qs, r = stars ∨ IsSegment r) {fuel : Nat}
    (hfuel : (q ++ rooted qs).length < fuel) :
    parseFrom fuel .strict (some '/') [.leading] [] (q ++ rooted qs)
      = .ok (.leading :: leadingItems (q :: qs)) := by
  induction qs generalizing q fuel with
  | nil =>
      rcases hq with rfl | hq
      · obtain ⟨fuel, rfl⟩ : ∃ n, fuel = n + 2 := ⟨fuel - 2, by simp [stars] at hfuel; omega⟩
        rfl
      · obtain ⟨fuel', before, -, hparse⟩ := parseFrom_segment_rooted hq [] .leading [] hfuel
        rw [hparse, leadingItems_of_ne hq.ne_pair, rooted_nil, parseFrom]
        simp [itemsOf]
  | cons r rs ih =>
      rw [List.forall_mem_cons] at hqs
      rcases hq with rfl | hq
      · obtain ⟨fuel, rfl⟩ : ∃ n, fuel = n + 1 := ⟨fuel - 1, by omega⟩
        rw [rooted_cons, parseFrom_leading_stars, ih hqs.1 hqs.2, leadingItems_stars]
        simp [stars] at hfuel ⊢
        omega
      · -- Behind a segment of another kind, the slashes have items of their own again.
        obtain ⟨fuel', before, hlength, hparse⟩ :=
          parseFrom_segment_rooted hq (r :: rs) .leading [] hfuel
        rw [hparse, parseFrom_rooted (List.forall_mem_cons.mpr hqs) (by omega) before,
          leadingItems_of_ne hq.ne_pair]
        simp

/-- **A glob that starts with a `**`** is read item by item. -/
theorem parse_stars {segments : List (List Char)} (h : ∀ q ∈ segments, q = stars ∨ IsSegment q) :
    parse (String.ofList (stars ++ rooted segments)) = .ok (.leading :: leadingItems segments) := by
  unfold parse
  rw [String.toList_ofList]
  cases segments with
  | nil => rfl
  | cons q qs =>
      rw [List.forall_mem_cons] at h
      have hread : parseFrom ((stars ++ rooted (q :: qs)).length + 1) .strict none [] []
            (stars ++ rooted (q :: qs))
          = parseFrom (stars ++ rooted (q :: qs)).length .strict (some '/') [.leading] []
              (q ++ rooted qs) := rfl
      rw [hread]
      exact parseFrom_behind_leading h.1 h.2 (by simp [stars]; omega)

/-! ## Matching -/

/-- Segments at the root match the names that they cover. -/
theorem isMatch_itemsOf_iff {segments names : List (List Char)}
    (hsegments : ∀ q ∈ segments, '/' ∉ q) (hnames : ∀ n ∈ names, '/' ∉ n) :
    isMatch (itemsOf false segments) (units (rooted names)) = true ↔ Covers segments names := by
  have hglob : itemsOf false segments ≠ [.leading] := fun hglob =>
    leading_not_mem_itemsOf false segments (by rw [hglob]; exact List.mem_cons_self)
  exact (isMatch_iff hglob _).trans (leads_itemsOf_iff hsegments hnames false)

/-- A leading `**` stops before the slash of the root or behind a slash. -/
theorem leads_leading_iff {names : List (List Char)} (hnames : ∀ n ∈ names, '/' ∉ n)
    {tokens : List GlobToken} {rest : Units} :
    Leads (.leading :: tokens) (units (rooted names)) rest ↔
      Leads tokens (units (rooted names)) rest ∨
        ∃ front n more, names = front ++ n :: more ∧
          Leads tokens (units n ++ units (rooted more)) rest := by
  simp only [Leads, leaves, List.mem_cons, mem_afterSlashes_units_iff hnames]
  constructor
  · rintro ⟨mid, rfl | ⟨front, n, more, hsplit, rfl⟩, hlead⟩
    · exact Or.inl hlead
    · exact Or.inr ⟨front, n, more, hsplit, hlead⟩
  · rintro (hlead | ⟨front, n, more, hsplit, hlead⟩)
    · exact ⟨_, Or.inl rfl, hlead⟩
    · exact ⟨_, Or.inr ⟨front, n, more, hsplit, rfl⟩, hlead⟩

/-- Any number of `**` in front are as good as one. -/
theorem covers_dropWhile_stars_iff {segments names : List (List Char)} :
    Covers (stars :: segments.dropWhile (· == stars)) names ↔ Covers (stars :: segments) names := by
  induction segments with
  | nil => rfl
  | cons q qs ih =>
      by_cases hq : q = stars
      · rw [hq, List.dropWhile_cons_of_pos (by simp), ih, covers_stars_stars_iff]
      · rw [List.dropWhile_cons_of_neg (by simpa using hq)]

/-- **Segments behind a leading `**`** match the names that they cover together with it. Where the
first segment that is no `**` consists of stars, that one may also take the empty text before the
slash of the root. -/
theorem isMatch_leading_iff {segments names : List (List Char)}
    (hsegments : ∀ q ∈ segments, '/' ∉ q) (hempty : [] ∉ segments) (hnames : ∀ n ∈ names, '/' ∉ n)
    (hne : names ≠ []) :
    isMatch (.leading :: leadingItems segments) (units (rooted names)) = true ↔
      Covers (stars :: segments) names ∨
        ∃ q qs, segments.dropWhile (· == stars) = q :: qs ∧ (∀ c ∈ q, c = '*') ∧
          Covers qs names := by
  rw [← covers_dropWhile_stars_iff, leadingItems]
  have hkept : ∀ q ∈ segments.dropWhile (· == stars), '/' ∉ q ∧ q ≠ [] := fun q hq =>
    have hmem : q ∈ segments := (List.dropWhile_sublist _).mem hq
    ⟨hsegments q hmem, fun hnil => hempty (hnil ▸ hmem)⟩
  have hfirst : ∀ q ∈ (segments.dropWhile (· == stars)).head?, q ≠ stars := by
    intro q hq
    simpa [Option.mem_def.mp hq] using List.head?_dropWhile_not (· == stars) segments
  generalize segments.dropWhile (· == stars) = kept at hkept hfirst ⊢
  cases kept with
  | nil => simp [isMatch, covers_stars_end_iff, hne]
  | cons q qs =>
      obtain ⟨⟨hslash, hnil⟩, hqs⟩ := List.forall_mem_cons.mp hkept
      have hqs : ∀ r ∈ qs, '/' ∉ r := fun r hr => (hqs r hr).1
      have hq : q ≠ stars := hfirst q rfl
      have hglob : GlobToken.leading :: (q.map token ++ itemsOf false qs) ≠ [.leading] := by
        simp [hnil]
      -- Before the slash of the root there is no character for a segment.
      have hroot : Leads (q.map token ++ itemsOf false qs) (units (rooted names)) [] ↔
          (∀ c ∈ q, c = '*') ∧ Covers qs names := by
        have hroot := leads_name_itemsOf_iff hslash hqs (List.not_mem_nil (a := '/')) hnames
        rwa [units_nil, List.nil_append, fits_nil_right_iff] at hroot
      rw [isMatch_iff hglob, leads_leading_iff hnames, hroot, covers_stars_cons_iff hq, or_comm]
      refine or_congr ?_ (by simp)
      refine exists_congr fun front => exists_congr fun n => exists_congr fun more =>
        and_congr_right ?_
      rintro rfl
      rw [List.forall_mem_append, List.forall_mem_cons] at hnames
      exact leads_name_itemsOf_iff hslash hqs hnames.2.1 hnames.2.2

end Glob

/-! ## What a glob of segments excludes -/

namespace Exclude

open ModuleGraph.Path ModuleGraph.Glob

/-- The segments of a glob; a slash at its start only tells that it starts at the root. -/
def segmentsOf (pattern : String) : List (List Char) :=
  match pattern.toList with
  | '/' :: rest => splitSlash rest
  | cs => splitSlash cs

/-- A glob that starts at the root or with a segment `**`, where every other segment is a text of
plain characters and stars, and a star is somewhere. -/
structure IsSegmentGlob (pattern : String) : Prop where
  segments : ∀ q ∈ segmentsOf pattern, q = stars ∨ (IsSegment q ∧ q ≠ [])
  start : pattern.toList.head? = some '/' ∨ (segmentsOf pattern).head? = some stars
  star : '*' ∈ pattern.toList

instance (pattern : String) : Decidable (IsSegmentGlob pattern) :=
  decidable_of_iff ((∀ q ∈ segmentsOf pattern, q = stars ∨ (IsSegment q ∧ q ≠ [])) ∧
      (pattern.toList.head? = some '/' ∨ (segmentsOf pattern).head? = some stars) ∧
      '*' ∈ pattern.toList)
    ⟨fun h => ⟨h.1, h.2.1, h.2.2⟩, fun h => ⟨h.segments, h.start, h.star⟩⟩

namespace IsSegmentGlob

variable {pattern : String}

/-- A glob of segments is written behind slashes, or with a `**` in place of the first slash. -/
theorem text_cases (h : IsSegmentGlob pattern) :
    (pattern.toList.head? = some '/' ∧ pattern = String.ofList (rooted (segmentsOf pattern))) ∨
    (pattern.toList.head? = some '*' ∧ ∃ qs, segmentsOf pattern = stars :: qs ∧
      pattern = String.ofList (stars ++ rooted qs)) := by
  by_cases hhead : pattern.toList.head? = some '/'
  · obtain ⟨rest, hrest⟩ := List.head?_eq_some_iff.mp hhead
    refine Or.inl ⟨hhead, ?_⟩
    have hsegments : segmentsOf pattern = splitSlash rest := by
      unfold segmentsOf
      rw [hrest]
      rfl
    rw [hsegments, rooted_splitSlash, ← hrest, String.ofList_toList]
  · have hsegments : segmentsOf pattern = splitSlash pattern.toList := by
      unfold segmentsOf
      split
      · rename_i hrest
        exact absurd (by rw [hrest]; rfl) hhead
      · rfl
    obtain ⟨qs, hqs⟩ := List.head?_eq_some_iff.mp (h.start.resolve_left hhead)
    have htext := rooted_splitSlash pattern.toList
    rw [← hsegments, hqs, rooted_cons] at htext
    have hpattern : pattern.toList = stars ++ rooted qs := (List.cons.inj htext).2.symm
    refine Or.inr ⟨by rw [hpattern]; rfl, qs, hqs, ?_⟩
    rw [← hpattern, String.ofList_toList]

theorem slash_not_mem (h : IsSegmentGlob pattern) {q : List Char} (hq : q ∈ segmentsOf pattern) :
    '/' ∉ q ∧ q ≠ [] := by
  rcases h.segments q hq with rfl | ⟨hsegment, hnil⟩
  · exact ⟨by decide, by decide⟩
  · exact ⟨hsegment.slash_not_mem, hnil⟩

end IsSegmentGlob

/-- What is known of a glob for all lists of names is known of the paths it excludes. A path has one
list of names, which are those of its components. -/
theorem excludes_iff_of_isMatch_iff {glob : Glob} {P : List (List Char) → Prop}
    (hmatch : ∀ ns : List (List Char), ns ≠ [] → (∀ n ∈ ns, '/' ∉ n) →
      (glob.isMatch (units (rooted ns)) = true ↔ P ns))
    {p : Path} (habs : p.isAbsolute = true) (hclean : p.IsClean) (hroot : p.text ≠ "/") :
    excludes ⟨[], [glob]⟩ p = true ↔ ∃ ns, p.components = .root :: ns.map nameOf ∧ P ns := by
  obtain ⟨ns, hns, hcomponents, htext⟩ := exists_names habs hclean
  have hne : ns ≠ [] := fun hnil => hroot ((text_eq_slash_iff hns htext).mpr hnil)
  rw [excludes_glob_eq htext, comparedNames, if_neg hne, hmatch ns hne fun n hn => (hns n hn).2.1,
    hcomponents]
  constructor
  · exact fun hP => ⟨ns, rfl, hP⟩
  · rintro ⟨ms, hms, hP⟩
    rwa [map_nameOf_inj (List.cons.inj hms).2]

/-- **What a glob excludes, segment by segment.** A glob of segments, at the root or behind a `**`,
can be compiled. Of the clean absolute paths other than the root it excludes those whose names are
covered by its segments. A glob that starts with `**` excludes some more paths if its first other
segment is made of stars: that segment may take nothing, before the slash of the root, and then the
segments behind it have to cover the names. -/
theorem excludes_segmentwise {pattern : String} (h : IsSegmentGlob pattern) :
    ∃ filter, compile [pattern] = .ok filter ∧
      ∀ p : Path, p.isAbsolute = true → p.IsClean → p.text ≠ "/" →
        (filter.excludes p = true ↔ ∃ ns, p.components = .root :: ns.map nameOf ∧
          (Covers (segmentsOf pattern) ns ∨
            (pattern.toList.head? = some '*' ∧
              ∃ q qs, (segmentsOf pattern).dropWhile (· == stars) = q :: qs ∧
                (∀ c ∈ q, c = '*') ∧ Covers qs ns))) := by
  have hglob : isGlob pattern = true := List.contains_iff_mem.mpr h.star
  have hsegments : ∀ q ∈ segmentsOf pattern, q = stars ∨ IsSegment q :=
    fun q hq => (h.segments q hq).imp_right And.left
  have hslash : ∀ q ∈ segmentsOf pattern, '/' ∉ q := fun q hq => (h.slash_not_mem hq).1
  rcases h.text_cases with ⟨hhead, htext⟩ | ⟨hhead, qs, hqs, htext⟩
  · refine ⟨_, compile_of_parse hglob (by rw [htext, parse_segments hsegments])
        (isFlat_itemsOf _ _),
      fun p habs hclean hroot => excludes_iff_of_isMatch_iff ?_ habs hclean hroot⟩
    intro ns hne hns
    rw [isMatch_itemsOf_iff hslash hns, hhead]
    simp
  · rw [hqs, List.forall_mem_cons] at hsegments
    have hempty : [] ∉ segmentsOf pattern := fun hnil => (h.slash_not_mem hnil).2 rfl
    rw [hqs] at hslash hempty
    refine ⟨_, compile_of_parse hglob (by rw [htext, parse_stars hsegments.2])
        (.cons (by simp) (isFlat_leadingItems _)),
      fun p habs hclean hroot => excludes_iff_of_isMatch_iff ?_ habs hclean hroot⟩
    intro ns hne hns
    rw [isMatch_leading_iff (List.forall_mem_cons.mp hslash).2 (List.not_mem_of_not_mem_cons hempty)
      hns hne, hqs, hhead, List.dropWhile_cons_of_pos (by simp)]
    simp

theorem excludes_segmentwise_sample :
    ∃ filter, compile ["**/gen/*.js"] = .ok filter ∧
      filter.excludes ⟨"/src/gen/é.js"⟩ = true := by
  have hglob : IsSegmentGlob "**/gen/*.js" := by decide
  have hsegments : segmentsOf "**/gen/*.js" = [stars, "gen".toList, "*.js".toList] := by decide
  obtain ⟨filter, hcompile, hexcludes⟩ := excludes_segmentwise hglob
  refine ⟨filter, hcompile, (hexcludes ⟨"/src/gen/é.js"⟩ (by decide) (by decide) (by decide)).mpr ?_⟩
  refine ⟨["src".toList, "gen".toList, "é.js".toList], by decide, Or.inl ?_⟩
  rw [hsegments]
  exact .stars ["src".toList] (by simp) (.name (by decide) ((fits_iff_eq (by decide)).mpr rfl)
    (.name (by decide) (fits_scripts ['é']) .nil))

/-- The star of `**/*/b` takes nothing, so that a file is excluded whose only name is left for the
last segment. -/
theorem star_takes_nothing_at_root :
    IsSegmentGlob "**/*/b" ∧
    (compile ["**/*/b"]).toOption.map (·.excludes ⟨"/b"⟩) = some true ∧
    Path.components ⟨"/b"⟩ = .root :: ["b".toList].map nameOf ∧
    ¬Covers (segmentsOf "**/*/b") ["b".toList] := by
  refine ⟨by decide, by decide +kernel, by decide, fun hcovers => ?_⟩
  have hsegments : segmentsOf "**/*/b" = [stars, "*".toList, "b".toList] := by decide
  rw [hsegments, covers_stars_cons_iff (by decide)] at hcovers
  obtain ⟨front, n, more, hnames, -, hmore⟩ := hcovers
  -- The star takes the one name there is, and none is left for the last segment.
  have hnone : more = [] := by
    rcases List.singleton_eq_append_iff.mp hnames with ⟨-, hlast⟩ | ⟨-, hlast⟩
    · exact (List.cons.inj hlast).2
    · cases hlast
  rw [hnone] at hmore
  exact absurd (covers_nil_right_iff.mp hmore) (by simp)

end Exclude

end ModuleGraph
