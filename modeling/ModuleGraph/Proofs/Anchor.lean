import Mathlib.Data.List.TakeWhile
import ModuleGraph.Proofs.Exclude
import ModuleGraph.Proofs.Glob.Segments

set_option autoImplicit false

/-! # Globs that are read from a directory

A relative glob is put behind the text of its directory, from which slashes at the end are
dropped, and `./` is dropped from its start (`anchor_eq`). No other `.` or `..` of the glob is
resolved. As visited paths have neither, a glob with one of them excludes nothing, while any other
glob excludes the files of its directory whose names fit its last segment
(`excludes_anchored_glob`).
-/

namespace ModuleGraph

namespace Exclude

open ModuleGraph.Path ModuleGraph.Glob

/-! ## Anchoring -/

theorem literally_of_plain {cs : List Char} (h : ∀ c ∈ cs, IsPlain c) : literally cs = cs := by
  unfold literally
  induction cs with
  | nil => rfl
  | cons c cs ih =>
      rw [List.forall_mem_cons] at h
      rw [List.flatMap_cons, ih h.2, if_neg (by simp [h.1.1])]
      rfl

theorem dropTrailingSlashes_of_getLast? {cs : List Char} (h : cs.getLast? ≠ some '/') :
    dropTrailingSlashes cs = cs := by
  rcases List.eq_nil_or_concat cs with rfl | ⟨front, c, rfl⟩
  · rfl
  · have hc : c ≠ '/' := by simpa using h
    rw [dropTrailingSlashes, List.concat_eq_append, List.reverse_append, List.reverse_singleton,
      List.singleton_append, List.dropWhile_cons_of_neg (by simpa using hc)]
    simp

/-- The text of a clean directory, without the slash that is the text of the root. -/
theorem dropTrailingSlashes_rootedText {names : List (List Char)}
    (h : ∀ n ∈ names, IsName n) : dropTrailingSlashes (rootedText names) = rooted names := by
  rcases List.eq_nil_or_concat names with rfl | ⟨front, last, rfl⟩
  · rfl
  · have hlast : IsName last := h last (by simp)
    rw [rootedText, if_neg (by simp)]
    apply dropTrailingSlashes_of_getLast?
    rw [List.concat_eq_append, rooted_append, rooted_cons, rooted_nil, List.append_nil,
      ← List.singleton_append, ← List.append_assoc]
    exact getLast?_append_name _ hlast

/-- The pieces of a text without the `.` pieces at its start. -/
def piecesAfterHere (cs : List Char) : List (List Char) :=
  (splitSlash cs).dropWhile (· == ['.'])

theorem dropLeadingHere_of_ne {piece more : List Char} (hpiece : piece ≠ ['.'])
    (hslash : '/' ∉ piece) (hmore : more.head? = some '/') :
    dropLeadingHere (piece ++ more) = piece ++ more := by
  rw [dropLeadingHere]
  intro rest hrest
  match piece with
  | [] =>
      rw [List.nil_append] at hrest
      rw [hrest] at hmore
      cases hmore
  | [c] =>
      obtain ⟨rfl, -⟩ := List.cons.inj hrest
      exact hpiece rfl
  | c :: d :: piece =>
      obtain ⟨-, htail⟩ := List.cons.inj hrest
      obtain ⟨rfl, -⟩ := List.cons.inj htail
      simp at hslash

theorem dropLeadingHere_of_not_mem {cs : List Char} (h : '/' ∉ cs) : dropLeadingHere cs = cs := by
  rw [dropLeadingHere]
  rintro rest rfl
  simp at h

/-- Dropping `./` drops the pieces `.` from the start. -/
theorem dropLeadingHere_rooted {pieces : List (List Char)} {w cs : List Char}
    (hpieces : ∀ q ∈ pieces, '/' ∉ q) (hw : '/' ∉ w) (h : '/' :: cs = rooted (pieces ++ [w])) :
    '/' :: dropLeadingHere cs = rooted (pieces.dropWhile (· == ['.']) ++ [w]) := by
  induction pieces generalizing cs with
  | nil =>
      rw [List.nil_append, rooted_cons, rooted_nil, List.append_nil] at h
      obtain rfl := (List.cons.inj h).2
      rw [dropLeadingHere_of_not_mem hw, h]
      simp
  | cons piece pieces ih =>
      rw [List.forall_mem_cons] at hpieces
      rw [List.cons_append, rooted_cons] at h
      obtain rfl := (List.cons.inj h).2
      by_cases hpiece : piece = ['.']
      · subst hpiece
        have hrest : ∃ rest, rooted (pieces ++ [w]) = '/' :: rest := by
          cases pieces <;> exact ⟨_, rfl⟩
        obtain ⟨rest, hrest⟩ := hrest
        rw [hrest, List.dropWhile_cons_of_pos (by simp), ← ih hpieces.2 hrest.symm]
        rfl
      · have hmore : (rooted (pieces ++ [w])).head? = some '/' := by
          cases pieces <;> rfl
        rw [dropLeadingHere_of_ne hpiece hpieces.1 hmore,
          List.dropWhile_cons_of_neg (by simpa using hpiece)]
        rfl

/-- A text whose pieces are not empty starts with a character of its first piece. -/
theorem exists_first_of_pieces {cs : List Char} (h : [] ∉ splitSlash cs) :
    ∃ c more, cs = c :: more ∧ c ≠ '/' ∧ ∃ piece ∈ splitSlash cs, c ∈ piece := by
  cases cs with
  | nil => exact absurd List.mem_cons_self h
  | cons c more =>
      have hc : c ≠ '/' := by
        rintro rfl
        exact h (by simp [splitSlash])
      refine ⟨c, more, rfl, hc, ?_⟩
      rw [splitSlash, if_neg hc]
      cases hs : splitSlash more with
      | nil => exact absurd hs (splitSlash_ne_nil more)
      | cons piece pieces => exact ⟨c :: piece, List.mem_cons_self, List.mem_cons_self⟩

theorem isAbsolute_eq_false {pattern : String} (h : pattern.toList.head? ≠ some '/') :
    (Path.mk pattern).isAbsolute = false :=
  Bool.eq_false_iff.mpr (mt (Path.isAbsolute_iff_head? _).mp h)

theorem anchor_of_relative_glob {base : Path} {pattern : String}
    (hrelative : pattern.toList.head? ≠ some '/') (hstars : ¬['*', '*'] <+: pattern.toList)
    (hglob : isGlob pattern = true) :
    anchor base pattern = String.ofList
      (dropTrailingSlashes (literally base.text.toList) ++ '/' :: dropLeadingHere pattern.toList) := by
  have hstart : ['*', '*'].isPrefixOf pattern.toList = false := by
    rw [Bool.eq_false_iff, ne_eq, List.isPrefixOf_iff_prefix]
    exact hstars
  unfold anchor
  simp only [isAbsolute_eq_false hrelative, hstart, hglob, Bool.or_self, Bool.false_eq_true,
    if_false, if_true]

theorem anchor_of_isGlob {base : Path} {pattern : String} {c : Char} {more : List Char}
    (hpattern : pattern.toList = c :: more) (hslash : c ≠ '/') (hstar : c ≠ '*')
    (hglob : isGlob pattern = true) :
    anchor base pattern = String.ofList
      (dropTrailingSlashes (literally base.text.toList) ++ '/' :: dropLeadingHere pattern.toList) := by
  refine anchor_of_relative_glob ?_ ?_ hglob
  · simpa [hpattern] using hslash
  · simp [hpattern, Ne.symm hstar]

/-- **A relative glob behind its directory.** The glob of a directory text and a last segment
consists of the names of the base, the pieces of the directory text and the segment. -/
theorem anchor_eq {base : Path} {names : List (List Char)} {d w : String}
    (hnames : ∀ n ∈ names, IsName n) (htext : base.text.toList = rootedText names)
    (hbase : ∀ c ∈ base.text.toList, IsPlain c)
    (hd : ∀ piece ∈ splitSlash d.toList, piece ≠ [] ∧ ∀ c ∈ piece, IsPlain c)
    (hstar : '*' ∈ w.toList) (hw : '/' ∉ w.toList) :
    anchor base (d ++ "/" ++ w)
      = String.ofList (rooted (names ++ (piecesAfterHere d.toList ++ [w.toList]))) := by
  have hpattern : (d ++ "/" ++ w).toList = d.toList ++ '/' :: w.toList := by simp
  have hglob : isGlob (d ++ "/" ++ w) = true := by
    rw [isGlob, List.contains_iff_mem, hpattern]
    simp [hstar]
  obtain ⟨c, more, hfirst, hslash, piece, hpiece, hc⟩ :=
    exists_first_of_pieces fun hmem => (hd [] hmem).1 rfl
  have hplain : c ≠ '*' := by
    rintro rfl
    exact absurd ((hd piece hpiece).2 _ hc) (by decide)
  have hstart : (d ++ "/" ++ w).toList = c :: (more ++ '/' :: w.toList) := by
    rw [hpattern, hfirst]
    rfl
  have hpieces : '/' :: (d ++ "/" ++ w).toList = rooted (splitSlash d.toList ++ [w.toList]) := by
    rw [hpattern, rooted_append, rooted_splitSlash]
    simp
  rw [anchor_of_isGlob hstart hslash hplain hglob, literally_of_plain hbase, htext,
    dropTrailingSlashes_rootedText hnames,
    dropLeadingHere_rooted (fun q => not_mem_of_mem_splitSlash) hw hpieces, ← rooted_append]
  rfl

/-! ## Directories -/

theorem filterMap_dropWhile_here (pieces : List (List Char)) :
    pieces.filterMap Component.ofPiece?
      = (pieces.dropWhile (· == ['.'])).filterMap Component.ofPiece? := by
  induction pieces with
  | nil => rfl
  | cons piece pieces ih =>
      by_cases hpiece : piece = ['.']
      · subst hpiece
        rw [List.dropWhile_cons_of_pos (by simp), ← ih]
        rfl
      · rw [List.dropWhile_cons_of_neg (by simpa using hpiece)]

theorem stepsOf_eq_map {cs : List Char} (h : ∀ q ∈ piecesAfterHere cs, IsName q) :
    stepsOf cs = (piecesAfterHere cs).map nameOf := by
  rw [stepsOf, filterMap_dropWhile_here, ← List.filterMap_eq_map]
  exact List.filterMap_congr fun q hq => ofPiece?_of_isName (h q hq)

/-- The directory that a text without any `..` leads to. -/
theorem components_clean_join {base : Path} {names : List (List Char)} {d : String}
    (habs : base.isAbsolute = true) (hbase : base.components = .root :: names.map nameOf)
    (hd : [] ∉ splitSlash d.toList) (hpieces : ∀ q ∈ piecesAfterHere d.toList, IsName q) :
    (base.join ⟨d⟩).clean.components
      = .root :: (names ++ piecesAfterHere d.toList).map nameOf := by
  obtain ⟨rest, htext⟩ := exists_text_of_isAbsolute habs
  obtain ⟨c, more, hfirst, hslash, -⟩ := exists_first_of_pieces hd
  have hjoin : (base.join ⟨d⟩).components = base.components ++ stepsOf d.toList := by
    refine components_join (by simp [htext]) ?_
    simp [hfirst, hslash]
  rw [components_clean_of_isAbsolute (isAbsolute_join habs _), hjoin, hbase,
    stepsOf_eq_map hpieces, List.cons_append, ← List.map_append, cleanComponents, List.foldl_cons,
    foldl_cleanStep_names]
  simp [cleanStep]

/-! ## What an anchored glob excludes -/

theorem compile_rooted {segments : List (List Char)} (h : ∀ q ∈ segments, IsSegment q)
    (hstar : '*' ∈ rooted segments) :
    compile [String.ofList (rooted segments)] = .ok ⟨[], [(rooted segments).map token]⟩ := by
  have hglob : isGlob (String.ofList (rooted segments)) = true := by
    rw [isGlob, List.contains_iff_mem, String.toList_ofList]
    exact hstar
  exact compile_of_parse hglob (parse_rooted h) (isFlat_map_token _)

/-- A clean path as the names that a glob is compared with. The root is compared as a path with one
empty name. -/
def comparedNames (names : List (List Char)) : List (List Char) := if names = [] then [[]] else names

theorem rootedText_eq_rooted (names : List (List Char)) :
    rootedText names = rooted (comparedNames names) := by
  by_cases hnil : names = []
  · rw [hnil]
    rfl
  · rw [rootedText, comparedNames, if_neg hnil, if_neg hnil]

theorem slash_not_mem_comparedNames {names : List (List Char)} (h : ∀ n ∈ names, IsName n) :
    ∀ n ∈ comparedNames names, '/' ∉ n := by
  intro n hn
  unfold comparedNames at hn
  split at hn
  · rw [List.mem_singleton.mp hn]
    exact List.not_mem_nil
  · exact (h n hn).2.1

theorem excludes_glob_eq {glob : Glob} {names : List (List Char)} {p : Path}
    (hp : p.text.toList = rootedText names) :
    excludes ⟨[], [glob]⟩ p = glob.isMatch (units (rooted (comparedNames names))) := by
  rw [← rootedText_eq_rooted, ← hp]
  simp [excludes, matchesPath, textUnits, units]

/-- The glob of some segments, compared with the names of a path. The root is compared as a path
with one empty name. -/
theorem excludes_rooted_iff {segments names : List (List Char)} {p : Path}
    (hsegments : ∀ q ∈ segments, '/' ∉ q) (hnames : ∀ n ∈ names, IsName n)
    (hp : p.text.toList = rootedText names) :
    excludes ⟨[], [(rooted segments).map token]⟩ p = true ↔
      List.Forall₂ Fits segments (if names = [] then [[]] else names) := by
  rw [excludes_glob_eq hp, isMatch_rooted_iff hsegments (slash_not_mem_comparedNames hnames)]
  rfl

/-- Segments without a star leave only the last name open. -/
theorem forall₂_fits_snoc_iff {segments names : List (List Char)} {w : List Char}
    (h : ∀ q ∈ segments, '*' ∉ q) :
    List.Forall₂ Fits (segments ++ [w]) names ↔
      ∃ name, names = segments ++ [name] ∧ Fits w name := by
  induction segments generalizing names with
  | nil =>
      rw [List.nil_append, List.forall₂_cons_left_iff]
      simp [and_comm]
  | cons q segments ih =>
      rw [List.forall_mem_cons] at h
      rw [List.cons_append, List.forall₂_cons_left_iff]
      constructor
      · rintro ⟨n, rest, hn, hrest, rfl⟩
        obtain ⟨name, rfl, hfits⟩ := (ih h.2).mp hrest
        rw [(fits_iff_eq h.1).mp hn]
        exact ⟨name, rfl, hfits⟩
      · rintro ⟨name, rfl, hfits⟩
        exact ⟨q, _, (fits_iff_eq h.1).mpr rfl, (ih h.2).mpr ⟨name, rfl, hfits⟩, rfl⟩

theorem isName_of_mem_piecesAfterHere {cs q : List Char} (hcs : [] ∉ splitSlash cs)
    (hq : q ∈ piecesAfterHere cs) (hdots : q ≠ ['.'] ∧ q ≠ ['.', '.']) : IsName q := by
  have hmem : q ∈ splitSlash cs := (List.dropWhile_sublist _).mem hq
  refine ⟨?_, not_mem_of_mem_splitSlash hmem, hdots⟩
  rintro rfl
  exact hcs hmem

theorem isSegment_of_plain {q : List Char} (hslash : '/' ∉ q) (hplain : ∀ c ∈ q, IsPlain c) :
    IsSegment q := by
  refine ⟨fun c hc => ⟨?_, Or.inr (hplain c hc)⟩, ?_⟩
  · rintro rfl
    exact hslash hc
  · rintro rfl
    exact absurd (hplain '*' List.mem_cons_self) (by decide)

theorem star_not_mem_of_plain {q : List Char} (hplain : ∀ c ∈ q, IsPlain c) : '*' ∉ q :=
  fun hmem => absurd (hplain _ hmem) (by decide)

/-- The names of a path in a directory that is given by its names, and the same with the directory
as it is resolved. The two agree unless a `.` or `..` is left among the names. -/
theorem exists_last_name_iff {base p : Path} {names ns : List (List Char)} {d : String}
    {w : List Char} (habs : base.isAbsolute = true)
    (hbase : base.components = .root :: names.map nameOf) (hd : [] ∉ splitSlash d.toList)
    (hns : ∀ n ∈ ns, IsName n) (hp : p.components = .root :: ns.map nameOf) :
    (∃ name, ns = names ++ piecesAfterHere d.toList ++ [name] ∧ Fits w name) ↔
      (∀ piece ∈ piecesAfterHere d.toList, piece ≠ ['.'] ∧ piece ≠ ['.', '.']) ∧
        ∃ name, p.components = (base.join ⟨d⟩).clean.components ++ [nameOf name] ∧ Fits w name := by
  constructor
  · rintro ⟨name, rfl, hfits⟩
    have hpieces : ∀ q ∈ piecesAfterHere d.toList, IsName q := fun q hq => hns q (by simp [hq])
    refine ⟨fun q hq => (hpieces q hq).2.2, name, ?_, hfits⟩
    rw [hp, components_clean_join habs hbase hd hpieces]
    simp
  · rintro ⟨hdots, name, hname, hfits⟩
    have hpieces : ∀ q ∈ piecesAfterHere d.toList, IsName q := fun q hq =>
      isName_of_mem_piecesAfterHere hd hq (hdots q hq)
    rw [hp, components_clean_join habs hbase hd hpieces, List.cons_append, List.cons.injEq] at hname
    refine ⟨name, map_nameOf_inj ?_, hfits⟩
    rw [hname.2]
    simp

/-- The root is compared as a path with one empty name. -/
theorem exists_empty_name_iff {base : Path} {names : List (List Char)} {d : String}
    {w : List Char} (hnames : ∀ n ∈ names, IsName n) (hbase : base.text.toList = rootedText names) :
    (∃ name, [[]] = names ++ piecesAfterHere d.toList ++ [name] ∧ Fits w name) ↔
      base.text = "/" ∧ (∀ piece ∈ splitSlash d.toList, piece = ['.']) ∧ Fits w [] := by
  have hroot : base.text = "/" ↔ names = [] := text_eq_slash_iff hnames hbase
  have hhere : (∀ piece ∈ splitSlash d.toList, piece = ['.']) ↔ piecesAfterHere d.toList = [] := by
    simp [piecesAfterHere, List.dropWhile_eq_nil_iff]
  rw [hroot, hhere]
  constructor
  · rintro ⟨name, hname, hfits⟩
    rw [List.singleton_eq_append_iff] at hname
    simp at hname
    obtain ⟨⟨rfl, hpieces⟩, rfl⟩ := hname
    exact ⟨rfl, hpieces, hfits⟩
  · rintro ⟨rfl, hpieces, hfits⟩
    exact ⟨[], by simp [hpieces], hfits⟩

/-- **What a relative glob excludes.** A glob of a directory text and a last segment with a star,
read from a clean absolute directory, excludes the clean absolute paths of the directory that the
text leads to whose last name fits the segment, as long as no `.` or `..` is left in the directory
text behind those at its start. Where one is left, the glob excludes nothing. The root alone is
an exception: it counts as a file of its own with an empty name. -/
theorem excludes_anchored_glob {base : Path} {d w : String} (habs : base.isAbsolute = true)
    (hclean : base.IsClean) (hbase : ∀ c ∈ base.text.toList, IsPlain c)
    (hd : ∀ piece ∈ splitSlash d.toList, piece ≠ [] ∧ ∀ c ∈ piece, IsPlain c)
    (hstar : '*' ∈ w.toList) (hw : IsSegment w.toList) :
    ∃ filter, compileAt base [d ++ "/" ++ w] = .ok filter ∧
      ∀ p : Path, p.isAbsolute = true → p.IsClean →
        (filter.excludes p = true ↔
          ((∀ piece ∈ (splitSlash d.toList).dropWhile (· == ['.']),
              piece ≠ ['.'] ∧ piece ≠ ['.', '.']) ∧
            ∃ name, p.components = (base.join ⟨d⟩).clean.components ++ [nameOf name] ∧
              Fits w.toList name) ∨
          (p.text = "/" ∧ base.text = "/" ∧ (∀ piece ∈ splitSlash d.toList, piece = ['.']) ∧
            Fits w.toList [])) := by
  obtain ⟨names, hnames, hcomponents, htext⟩ := exists_names habs hclean
  have hempty : [] ∉ splitSlash d.toList := fun hmem => (hd [] hmem).1 rfl
  -- The segments before the last one are plain, and so fit only themselves.
  have hplain : ∀ q ∈ names ++ piecesAfterHere d.toList, '/' ∉ q ∧ ∀ c ∈ q, IsPlain c := by
    intro q hq
    rcases List.mem_append.mp hq with hq | hq
    · exact ⟨(hnames q hq).2.1, fun c hc => hbase c (htext ▸ mem_rootedText hq hc)⟩
    · have hmem : q ∈ splitSlash d.toList := (List.dropWhile_sublist _).mem hq
      exact ⟨not_mem_of_mem_splitSlash hmem, (hd q hmem).2⟩
  have hsegments : ∀ q ∈ names ++ piecesAfterHere d.toList ++ [w.toList], IsSegment q := by
    intro q hq
    rcases List.mem_append.mp hq with hq | hq
    · exact isSegment_of_plain (hplain q hq).1 (hplain q hq).2
    · rwa [List.mem_singleton.mp hq]
  have hglob : '*' ∈ rooted (names ++ piecesAfterHere d.toList ++ [w.toList]) := by
    rw [rooted_append]
    simp [hstar]
  refine ⟨⟨[], [(rooted (names ++ piecesAfterHere d.toList ++ [w.toList])).map token]⟩, ?_, ?_⟩
  · rw [compileAt, List.map_singleton,
      anchor_eq hnames htext hbase hd hstar hw.slash_not_mem, ← List.append_assoc,
      compile_rooted hsegments hglob]
  · intro p hpabs hpclean
    obtain ⟨ns, hns, hpcomponents, hptext⟩ := exists_names hpabs hpclean
    rw [excludes_rooted_iff (fun q hq => (hsegments q hq).slash_not_mem) hns hptext,
      forall₂_fits_snoc_iff (fun q hq => star_not_mem_of_plain (hplain q hq).2)]
    have hfile := exists_last_name_iff (w := w.toList) habs hcomponents hempty hns hpcomponents
    have hslash : p.text = "/" ↔ ns = [] := by
      rw [← rootedText_eq_slash_iff hns, ← hptext, ← String.toList_inj]
      rfl
    rw [hslash]
    by_cases hnil : ns = []
    · rw [if_pos hnil, exists_empty_name_iff hnames htext, ← piecesAfterHere, ← hfile]
      simp [hnil]
    · rw [if_neg hnil, hfile, piecesAfterHere]
      simp [hnil]

theorem forall_mem_of_all {P : Char → Prop} [DecidablePred P] {cs : List Char}
    (h : (cs.all fun c => decide (P c)) = true) : ∀ c ∈ cs, P c :=
  fun c hc => of_decide_eq_true (List.all_eq_true.mp h c hc)

theorem fits_scripts (front : List Char) : Fits "*.js".toList (front ++ ".js".toList) :=
  .star front (.letter (by decide) (.letter (by decide) (.letter (by decide) .nil)))

theorem excludes_anchored_glob_sample :
    ∃ filter, compileAt ⟨"/work"⟩ ["./src" ++ "/" ++ "*.js"] = .ok filter ∧
      filter.excludes ⟨"/work/src/é.js"⟩ = true := by
  have habs : (Path.mk "/work").isAbsolute = true := by decide
  have hbase : ∀ c ∈ (Path.mk "/work").text.toList, IsPlain c := forall_mem_of_all (by decide)
  have hd : ∀ piece ∈ splitSlash "./src".toList, piece ≠ [] ∧ ∀ c ∈ piece, IsPlain c := by
    have hpieces : splitSlash "./src".toList = [".".toList, "src".toList] := by decide
    rw [hpieces, List.forall_mem_cons, List.forall_mem_singleton]
    exact ⟨⟨by decide, forall_mem_of_all (by decide)⟩, by decide, forall_mem_of_all (by decide)⟩
  have hw : IsSegment "*.js".toList := ⟨forall_mem_of_all (by decide), by decide⟩
  obtain ⟨filter, hcompile, hexcludes⟩ :=
    excludes_anchored_glob habs (by decide) hbase hd (by decide) hw
  refine ⟨filter, hcompile, (hexcludes ⟨"/work/src/é.js"⟩ (by decide) (by decide)).mpr (Or.inl ?_)⟩
  exact ⟨by decide, ['é'] ++ ".js".toList, by decide, fits_scripts ['é']⟩

/-- A glob that misses a file of its directory, because of a `..` that is not resolved. -/
theorem anchored_glob_misses_file :
    (compileAt ⟨"/work/project"⟩ ["../x" ++ "/" ++ "*.js"]).toOption.map
        (·.excludes ⟨"/work/x/a.js"⟩) = some false ∧
      Path.components ⟨"/work/x/a.js"⟩
        = (Path.join ⟨"/work/project"⟩ ⟨"../x"⟩).clean.components ++ [nameOf "a.js".toList] ∧
      Fits "*.js".toList "a.js".toList :=
  ⟨by decide +kernel, by decide, fits_scripts ['a']⟩

end Exclude

end ModuleGraph
