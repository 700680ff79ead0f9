import ModuleGraph.Proofs.Anchor
import ModuleGraph.Proofs.Glob.Literal

set_option autoImplicit false

/-! # The base directory of a glob

A relative glob is written behind the text of its base directory, whose characters are to stand for
themselves. They do as long as none of them is a backslash: then a glob excludes exactly the paths
below the directory whose further names it covers. A backslash in the directory takes the meaning
from the character behind it, and no path below the directory is excluded any more
(`excludes_below_base`).
-/

namespace ModuleGraph

namespace Exclude

open ModuleGraph.Path ModuleGraph.Glob

/-- A relative glob: each segment is a `**`, but not the first one, or a name of plain characters and
stars, and a star is somewhere. -/
structure IsRelativeGlob (g : String) : Prop where
  segments : ∀ q ∈ splitSlash g.toList, q = stars ∨ (IsSegment q ∧ IsName q)
  start : ¬['*', '*'] <+: g.toList
  star : '*' ∈ g.toList

instance (g : String) : Decidable (IsRelativeGlob g) :=
  decidable_of_iff ((∀ q ∈ splitSlash g.toList, q = stars ∨ (IsSegment q ∧ IsName q)) ∧
      ¬['*', '*'] <+: g.toList ∧ '*' ∈ g.toList)
    ⟨fun h => ⟨h.1, h.2.1, h.2.2⟩, fun h => ⟨h.segments, h.start, h.star⟩⟩

/-! ## The text of an anchored glob -/

theorem getLast?_literally (front : List Char) (c : Char) :
    (literally (front ++ [c])).getLast? = some (if isMeta c then ']' else c) := by
  have happend : literally (front ++ [c]) = literally front ++ literally [c] := List.flatMap_append
  rw [happend, literally_cons]
  split <;> simp [literally]

theorem dropTrailingSlashes_literally {names : List (List Char)} (h : ∀ n ∈ names, IsName n) :
    dropTrailingSlashes (literally (rootedText names)) = literally (rooted names) := by
  rcases List.eq_nil_or_concat names with rfl | ⟨front, last, rfl⟩
  · rfl
  · have hlast : IsName last := h last (by simp)
    obtain ⟨start, c, hc⟩ := List.eq_nil_or_concat last |>.resolve_left hlast.1
    have hslash : c ≠ '/' := by
      rintro rfl
      exact hlast.2.1 (by simp [hc])
    rw [rootedText, if_neg (by simp)]
    apply dropTrailingSlashes_of_getLast?
    have htext : rooted (front.concat last) = rooted front ++ '/' :: start ++ [c] := by
      simp [hc, rooted_append]
    rw [htext, getLast?_literally]
    split <;> simp [hslash]

namespace IsRelativeGlob

variable {g : String}

theorem segment_ne (hg : IsRelativeGlob g) {q : List Char} (hq : q ∈ splitSlash g.toList) :
    q ≠ [] ∧ q ≠ ['.'] ∧ '/' ∉ q := by
  refine ⟨?_, ?_, not_mem_of_mem_splitSlash hq⟩
  · rintro rfl
    rcases hg.segments _ hq with h | h
    · cases h
    · exact h.2.1 rfl
  · rintro rfl
    rcases hg.segments _ hq with h | h
    · cases h
    · exact h.2.2.2.1 rfl

theorem head?_ne_slash (hg : IsRelativeGlob g) : g.toList.head? ≠ some '/' := by
  intro hhead
  obtain ⟨rest, hrest⟩ := List.head?_eq_some_iff.mp hhead
  refine (hg.segment_ne (q := []) ?_).1 rfl
  simp [hrest, splitSlash]

theorem dropLeadingHere_eq (hg : IsRelativeGlob g) : dropLeadingHere g.toList = g.toList := by
  rw [dropLeadingHere]
  intro rest hrest
  refine (hg.segment_ne (q := ['.']) ?_).2.1 rfl
  simp [hrest, splitSlash]

theorem anchor_eq (hg : IsRelativeGlob g) {base : Path} {names : List (List Char)}
    (hnames : ∀ n ∈ names, IsName n) (hbase : base.text.toList = rootedText names) :
    anchor base g = String.ofList (literally (rooted names) ++ '/' :: g.toList) := by
  have hglob : isGlob g = true := List.contains_iff_mem.mpr hg.star
  rw [anchor_of_relative_glob hg.head?_ne_slash hg.start hglob, hbase,
    dropTrailingSlashes_literally hnames, hg.dropLeadingHere_eq]

theorem isGlob_anchored (hg : IsRelativeGlob g) (cs : List Char) :
    isGlob (String.ofList (cs ++ '/' :: g.toList)) = true :=
  isGlob_iff.mpr (by simp [hg.star])

/-- A relative glob is compiled to the glob behind the literal text of its directory. -/
theorem compileAt_eq (hg : IsRelativeGlob g) {base : Path} {names : List (List Char)}
    (hnames : ∀ n ∈ names, IsName n) (hbase : base.text.toList = rootedText names) :
    compileAt base [g] = compile [String.ofList (literally (rooted names) ++ '/' :: g.toList)] := by
  rw [compileAt, List.map_singleton, hg.anchor_eq hnames hbase]

theorem parse_eq (hg : IsRelativeGlob g) {cs : List Char} (hcs : '\\' ∉ cs) :
    Glob.parse (String.ofList (literally cs ++ '/' :: g.toList))
      = .ok (cs.map literalItem ++ itemsOf false (splitSlash g.toList)) := by
  unfold Glob.parse
  rw [String.toList_ofList, ← rooted_splitSlash]
  have hlength := Nat.lt_succ_self (literally cs ++ rooted (splitSlash g.toList)).length
  obtain ⟨fuel, before, hfuel, hparse⟩ := parseFrom_literally hcs hlength none []
  have hsegments : ∀ q ∈ splitSlash g.toList, q = stars ∨ IsSegment q :=
    fun q hq => (hg.segments q hq).imp_right And.left
  rw [hparse, parseFrom_rooted hsegments hfuel]
  simp

end IsRelativeGlob

/-! ## Matching below the base -/

theorem exists_of_units_eq_append {front cs : List Char} {mid : Units}
    (h : units cs = units front ++ mid) : ∃ back, cs = front ++ back ∧ mid = units back := by
  induction front generalizing cs with
  | nil => exact ⟨cs, rfl, h.symm⟩
  | cons c front ih =>
      rw [units_cons, List.append_assoc] at h
      obtain ⟨cs', rfl, hrest⟩ := exists_of_units_eq h
      obtain ⟨back, rfl, hmid⟩ := ih hrest.symm
      exact ⟨back, rfl, hmid⟩

/-- Behind the names of a directory, the segments of a glob take what they cover. -/
theorem leads_below_iff {names segments ns : List (List Char)} (hnames : ∀ n ∈ names, '/' ∉ n)
    (hsegments : ∀ q ∈ segments, '/' ∉ q) (hns : ∀ n ∈ ns, '/' ∉ n) :
    Leads ((rooted names).map literalItem ++ itemsOf false segments) (units (rooted ns)) [] ↔
      ∃ rest, ns = names ++ rest ∧ Covers segments rest := by
  rw [leads_literally_iff]
  constructor
  · rintro ⟨mid, hmid, hlead⟩
    obtain ⟨back, hback, rfl⟩ := exists_of_units_eq_append hmid
    -- What is left starts with a slash, so that it is written from names as well.
    have hrooted : ∃ rest, back = rooted rest ∧ ∀ n ∈ rest, '/' ∉ n := by
      cases back with
      | nil => exact ⟨[], rfl, by simp⟩
      | cons c back =>
          obtain ⟨first, more, hfirst, -⟩ := exists_first_unit c
          have hslash : first = slash := head?_of_leads_itemsOf hlead first (by simp [hfirst])
          have hc : c = '/' := by
            rw [← slash_mem_unitsOf_iff, hfirst, hslash]
            exact List.mem_cons_self
          exact ⟨splitSlash back, by rw [rooted_splitSlash, hc],
            fun n hn => not_mem_of_mem_splitSlash hn⟩
    obtain ⟨rest, rfl, hrest⟩ := hrooted
    rw [← rooted_append] at hback
    refine ⟨rest, rooted_inj hns ?_ hback, ?_⟩
    · rw [List.forall_mem_append]
      exact ⟨hnames, hrest⟩
    · exact (leads_itemsOf_iff hsegments hrest false).mp hlead
  · rintro ⟨rest, rfl, hcovers⟩
    rw [List.forall_mem_append] at hns
    refine ⟨units (rooted rest), by rw [rooted_append, units_append], ?_⟩
    exact (leads_itemsOf_iff hsegments hns.2 false).mpr hcovers

theorem literalGlob_ne_leading {cs : List Char} {segments : List (List Char)} :
    cs.map literalItem ++ itemsOf false segments ≠ [.leading] := by
  intro hglob
  have hmem : .leading ∈ cs.map literalItem ++ itemsOf false segments := by
    rw [hglob]
    exact List.mem_cons_self
  rcases List.mem_append.mp hmem with hmem | hmem
  · obtain ⟨c, -, hc⟩ := List.mem_map.mp hmem
    unfold literalItem at hc
    split at hc <;> cases hc
  · exact leading_not_mem_itemsOf false segments hmem

/-- Only a single star covers one empty name. -/
theorem IsRelativeGlob.covers_empty_iff {g : String} (hg : IsRelativeGlob g) :
    Covers (splitSlash g.toList) [[]] ↔ g = "*" := by
  constructor
  · intro hcovers
    have htext := rooted_splitSlash g.toList
    cases hsegments : splitSlash g.toList with
    | nil => exact absurd hsegments (splitSlash_ne_nil _)
    | cons q qs =>
        rw [hsegments] at hcovers htext
        have hg' : q ++ rooted qs = g.toList := (List.cons.inj htext).2
        have hstart : ¬['*', '*'] <+: q ++ rooted qs := hg' ▸ hg.start
        have hne : q ≠ stars := by
          rintro rfl
          exact hstart ⟨rooted qs, rfl⟩
        have hempty : q ≠ [] := (hg.segment_ne (by simp [hsegments])).1
        obtain ⟨n, more, hmore, hfits, hrest⟩ := (covers_cons_iff hne).mp hcovers
        obtain ⟨rfl, rfl⟩ := List.cons.inj hmore
        obtain rfl := covers_nil_right_iff.mp hrest
        rw [fits_nil_right_iff] at hfits
        match q with
        | [] => exact absurd rfl hempty
        | [c] =>
            rw [← String.toList_inj, ← hg', hfits c (by simp)]
            rfl
        | c :: d :: q =>
            rw [hfits c (by simp), hfits d (by simp)] at hstart
            exact absurd ⟨q ++ rooted [], rfl⟩ hstart
  · rintro rfl
    exact .name (by decide) (.star [] .nil) .nil

/-- What the glob behind a literal directory excludes, by the names of the path. -/
theorem IsRelativeGlob.excludes_iff {g : String} (hg : IsRelativeGlob g) {p : Path}
    {names ns : List (List Char)} (hnames : ∀ n ∈ names, IsName n) (hns : ∀ n ∈ ns, IsName n)
    (hp : p.text.toList = rootedText ns) :
    excludes ⟨[], [(rooted names).map literalItem ++ itemsOf false (splitSlash g.toList)]⟩ p = true ↔
      (∃ rest, ns = names ++ rest ∧ Covers (splitSlash g.toList) rest) ∨
        (ns = [] ∧ names = [] ∧ g = "*") := by
  have hslash : ∀ q ∈ splitSlash g.toList, '/' ∉ q := fun q hq => not_mem_of_mem_splitSlash hq
  rw [excludes_glob_eq hp, isMatch_iff literalGlob_ne_leading,
    leads_below_iff (fun n hn => (hnames n hn).2.1) hslash (slash_not_mem_comparedNames hns)]
  by_cases hnil : ns = []
  · subst hnil
    rw [← hg.covers_empty_iff]
    constructor
    · rintro ⟨rest, hrest, hcovers⟩
      rcases List.singleton_eq_append_iff.mp hrest with ⟨rfl, rfl⟩ | ⟨rfl, -⟩
      · exact Or.inr ⟨rfl, rfl, hcovers⟩
      · exact absurd rfl (hnames [] (by simp)).1
    · rintro (⟨rest, hrest, hcovers⟩ | ⟨-, rfl, hcovers⟩)
      · obtain ⟨rfl, rfl⟩ := List.append_eq_nil_iff.mp hrest.symm
        exact absurd (covers_nil_right_iff.mp hcovers) (splitSlash_ne_nil _)
      · exact ⟨[[]], rfl, hcovers⟩
  · simp [comparedNames, hnil]

/-! ## Bases with and without backslashes -/

theorem exists_append_of_map {names ns : List (List Char)} {rest : List Component}
    (h : ns.map nameOf = names.map nameOf ++ rest) :
    ∃ more, ns = names ++ more ∧ rest = more.map nameOf := by
  obtain ⟨front, more, rfl, hfront, rfl⟩ := List.map_eq_append_iff.mp h
  exact ⟨more, by rw [map_nameOf_inj hfront], rfl⟩

/-- **What a glob excludes below its base.** In a clean absolute directory without any backslash, a
relative glob excludes exactly the clean absolute paths whose names are those of the directory and
further names that the segments of the glob cover; and the root counts as a path with an empty name
in itself. In a directory with a backslash, where the glob can be compiled at all, it excludes no
path below the directory. -/
theorem excludes_below_base {base : Path} {g : String} (habs : base.isAbsolute = true)
    (hclean : base.IsClean) (hg : IsRelativeGlob g) :
    ('\\' ∉ base.text.toList →
      ∃ filter, compileAt base [g] = .ok filter ∧
        ∀ p : Path, p.isAbsolute = true → p.IsClean →
          (filter.excludes p = true ↔
            (∃ rest, p.components = base.components ++ rest.map nameOf ∧
              Covers (splitSlash g.toList) rest) ∨
            (p.text = "/" ∧ base.text = "/" ∧ g = "*"))) ∧
    ('\\' ∈ base.text.toList →
      ∀ filter, compileAt base [g] = .ok filter →
        ∀ p : Path, p.isAbsolute = true → p.IsClean →
          ∀ rest, p.components = base.components ++ rest → filter.excludes p = false) := by
  obtain ⟨names, hnames, hcomponents, htext⟩ := exists_names habs hclean
  constructor
  · intro hbackslash
    have hliteral : '\\' ∉ rooted names := fun hmem => hbackslash (htext ▸ mem_rootedText_of_mem hmem)
    have hflat : IsFlat ((rooted names).map literalItem ++ itemsOf false (splitSlash g.toList)) :=
      (isFlat_map (fun c branches => by unfold literalItem; split <;> simp) _).append
        (isFlat_itemsOf _ _)
    refine ⟨_, (hg.compileAt_eq hnames htext).trans
      (compile_of_parse (hg.isGlob_anchored _) (hg.parse_eq hliteral) hflat), ?_⟩
    intro p hpabs hpclean
    obtain ⟨ns, hns, hpcomponents, hptext⟩ := exists_names hpabs hpclean
    rw [hg.excludes_iff hnames hns hptext, text_eq_slash_iff hns hptext,
      text_eq_slash_iff hnames htext, hpcomponents, hcomponents]
    simp only [List.cons_append, List.cons.injEq, true_and, ← List.map_append, map_nameOf_eq_iff]
  · intro hbackslash filter hfilter p hpabs hpclean rest hp
    obtain ⟨ns, hns, hpcomponents, hptext⟩ := exists_names hpabs hpclean
    rw [hpcomponents, hcomponents, List.cons_append, List.cons.injEq] at hp
    obtain ⟨more, rfl, -⟩ := exists_append_of_map hp.2
    have hmem : '\\' ∈ rooted names := mem_rooted_of_mem (htext ▸ hbackslash) (by decide)
    have hne : names ++ more ≠ [] := by
      rintro hnil
      rw [(List.append_eq_nil_iff.mp hnil).1] at hmem
      cases hmem
    rw [hg.compileAt_eq hnames htext] at hfilter
    obtain ⟨glob, hparse, rfl⟩ := exists_parse_of_compile (hg.isGlob_anchored _) hfilter
    unfold Glob.parse at hparse
    rw [String.toList_ofList] at hparse
    have hmiss : Misses glob [] (List.replicate 0 '\\' ++ rooted names) :=
      misses_of_backslash hg.start (.inr hmem) (Nat.lt_succ_self _) hparse
    rw [excludes_glob_eq hptext, comparedNames, if_neg hne, rooted_append]
    exact hmiss.isMatch_eq_false (rooted more)

theorem excludes_below_base_sample :
    (∃ filter, compileAt ⟨"/w/[a]*"⟩ ["x/**/*.js"] = .ok filter ∧
      filter.excludes ⟨"/w/[a]*/x/y/é.js"⟩ = true) ∧
    (compileAt ⟨"/w\\x"⟩ ["*.js"]).toOption.map (·.excludes ⟨"/w\\x/a.js"⟩) = some false := by
  constructor
  · have habs : (Path.mk "/w/[a]*").isAbsolute = true := by decide
    have hg : IsRelativeGlob "x/**/*.js" := by decide
    obtain ⟨filter, hcompile, hexcludes⟩ := (excludes_below_base habs (by decide) hg).1 (by decide)
    refine ⟨filter, hcompile, (hexcludes ⟨"/w/[a]*/x/y/é.js"⟩ (by decide) (by decide)).mpr (.inl ?_)⟩
    refine ⟨["x".toList, "y".toList, "é.js".toList], by decide, ?_⟩
    have hsegments : splitSlash "x/**/*.js".toList = ["x".toList, stars, "*.js".toList] := by decide
    rw [hsegments]
    exact .name (by decide) ((fits_iff_eq (by decide)).mpr rfl) (.stars ["y".toList] (by simp)
      (.name (by decide) (fits_scripts ['é']) .nil))
  · have habs : (Path.mk "/w\\x").isAbsolute = true := by decide
    have hg : IsRelativeGlob "*.js" := by decide
    have hcompiles : (compileAt ⟨"/w\\x"⟩ ["*.js"]).toOption.isSome = true := by decide +kernel
    cases hcompile : compileAt ⟨"/w\\x"⟩ ["*.js"] with
    | error e =>
        rw [hcompile] at hcompiles
        cases hcompiles
    | ok filter =>
        exact congrArg some ((excludes_below_base habs (by decide) hg).2 (by decide) filter hcompile
          ⟨"/w\\x/a.js"⟩ (by decide) (by decide) [nameOf "a.js".toList] (by decide))

/-- A backslash in a base: the glob misses a file of its directory and takes one of another. -/
theorem backslash_base_misses_file :
    (compileAt ⟨"/w\\x"⟩ ["*.js"]).toOption.map
        (fun filter => (filter.excludes ⟨"/w\\x/a.js"⟩, filter.excludes ⟨"/wx/a.js"⟩))
      = some (false, true) ∧
    IsRelativeGlob "*.js" ∧
    Path.components ⟨"/w\\x/a.js"⟩ = Path.components ⟨"/w\\x"⟩ ++ ["a.js".toList].map nameOf ∧
    Covers (splitSlash "*.js".toList) ["a.js".toList] :=
  ⟨by decide +kernel, by decide, by decide, .name (by decide) (fits_scripts ['a']) .nil⟩

end Exclude

end ModuleGraph
