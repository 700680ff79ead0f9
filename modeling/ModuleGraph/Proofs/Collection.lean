import Mathlib.Data.List.Forall2
import Mathlib.Data.List.TakeWhile
import ModuleGraph.Proofs.Disk.Rearranged
import ModuleGraph.Proofs.Entries
import ModuleGraph.Proofs.Path.Map

set_option autoImplicit false

/-! # What a list of arguments expands to

Every argument has one expansion (`Disk.IsExpansion`): a directory gives the ascending list of the
module files below it, and any other path gives itself. Where no ignore file can be read, the entry
files of a list of arguments are these expansions one behind the other
(`Disk.collectEntries_expands`). They are sorted, so that the order in which a directory has its
entries is not seen any more.
-/

namespace ModuleGraph

open ModuleGraph.Path

/-! ## Extensions -/

namespace Path

/-- The extension of a name follows its last dot, and something has to stand before that dot. -/
theorem extensionOfName_eq_some_iff {name ext : List Char} (hname : name ≠ ['.', '.']) :
    extensionOfName name = some ext ↔
      '.' ∉ ext ∧ ∃ stem, stem ≠ [] ∧ name = stem ++ '.' :: ext := by
  constructor
  · intro h
    simp only [extensionOfName, hname, false_or, Option.ite_none_left_eq_some,
      Option.some.injEq] at h
    obtain ⟨hbefore, rfl⟩ := h
    refine ⟨fun hmem => ?_, _, mt List.reverse_eq_nil_iff.mp hbefore, ?_⟩
    · have hnot := List.mem_takeWhile_imp (List.mem_reverse.mp hmem)
      simp at hnot
    · -- Read from its end, the name is the extension, the dot and what stands before that.
      have hdrop : name.reverse.dropWhile (· != '.')
          = '.' :: (name.reverse.dropWhile (· != '.')).drop 1 := by
        have hhead := List.head?_dropWhile_not (· != '.') name.reverse
        cases hrest : name.reverse.dropWhile (· != '.') with
        | nil =>
            rw [hrest] at hbefore
            exact absurd rfl hbefore
        | cons c before =>
            rw [hrest] at hhead
            have hdot : c = '.' := by simpa using hhead
            rw [hdot]
            rfl
      calc name
          = (name.reverse.takeWhile (· != '.') ++ name.reverse.dropWhile (· != '.')).reverse := by
            rw [List.takeWhile_append_dropWhile, List.reverse_reverse]
        _ = _ := by
            rw [hdrop, List.reverse_append, List.reverse_cons, List.append_assoc]
            rfl
  · rintro ⟨hdot, stem, hstem, rfl⟩
    have hall : ∀ c ∈ ext.reverse, (c != '.') = true := by
      intro c hc
      rw [bne_iff_ne]
      rintro rfl
      exact hdot (List.mem_reverse.mp hc)
    have hreverse : (stem ++ '.' :: ext).reverse = ext.reverse ++ '.' :: stem.reverse := by simp
    simp [extensionOfName, hname, hreverse, List.takeWhile_append_of_pos hall,
      List.dropWhile_append_of_pos hall, hstem]

/-- A name with one of the given extensions is a stem, a dot and the extension. -/
theorem hasExtension_name_iff {name : String} (hname : IsName name.toList)
    {extensions : List String} (hdots : ∀ ext ∈ extensions, '.' ∉ ext.toList) :
    (Path.mk name).hasExtension extensions = true ↔
      ∃ stem ext, name = stem ++ "." ++ ext ∧ stem ≠ "" ∧ ext ∈ extensions := by
  have hup : name.toList ≠ ['.', '.'] := hname.2.2.2
  rw [hasExtension, extension?, fileName?_of_isName hname, Option.bind_some]
  constructor
  · intro h
    cases hext : extensionOfName name.toList with
    | none =>
        rw [hext] at h
        cases h
    | some ext =>
        obtain ⟨-, stem, hstem, hsplit⟩ := (extensionOfName_eq_some_iff hup).mp hext
        rw [hext] at h
        refine ⟨String.ofList stem, String.ofList ext, ?_, ?_, by simpa using h⟩
        · rw [← String.toList_inj, hsplit]
          simp
        · simpa [← String.toList_inj] using hstem
  · rintro ⟨stem, ext, rfl, hstem, hext⟩
    have hfound : extensionOfName (stem ++ "." ++ ext).toList = some ext.toList := by
      refine (extensionOfName_eq_some_iff hup).mpr ⟨hdots ext hext, stem.toList, ?_, by simp⟩
      exact fun hnil => hstem (String.toList_inj.mp hnil)
    rw [hfound]
    simpa using hext

end Path

/-! ## Expansions -/

namespace Disk

variable {disk disk' : Disk} {p q : Path} {ps : List Path} {place names : Place}
  {entries : List (String × Node)}

/-- Behind a path that leads to a place, the names lead to a module: to a file, or to a link that
leads to a file, with the extension of a module and without the mark of a test. -/
structure IsModuleAt (disk : Disk) (p : Path) (place names : Place) : Prop where
  isFile : (∃ bytes, disk.root.at? (place ++ names) = some (.file bytes)) ∨
    (∃ target, disk.root.at? (place ++ names) = some (.link target)) ∧
      disk.isFile (p.below names) = true
  extension : ∃ stem ext, names.getLast? = some (stem ++ "." ++ ext) ∧ stem ≠ "" ∧
    ext ∈ moduleExtensions
  unmarked : ∀ mark ∈ [".test.", ".spec."], ¬mark.toList <:+: (p.below names).text.toList

/-- A path is that of a module somewhere below a directory. -/
def IsModuleBelow (disk : Disk) (p q : Path) : Prop :=
  ∃ place names, disk.locate p = .ok place ∧ disk.IsModuleAt p place names ∧ q = p.below names

/-- What an argument has to expand to: a directory to the modules below it, each of them once and
in ascending order, and any other path to itself. -/
structure IsExpansion (disk : Disk) (p : Path) (found : List Path) : Prop where
  itself : disk.isDirectory p = false → found = [p]
  ascending : disk.isDirectory p = true → Ascending found
  mem_iff : disk.isDirectory p = true → ∀ q, q ∈ found ↔ disk.IsModuleBelow p q

/-- No ignore file can be read in the directory of a path, above it or below it. -/
def HasNoRulesAround (disk : Disk) (p : Path) : Prop :=
  ∀ place directory, disk.locate p = .ok place → directory ∈ disk.root.places →
    directory <+: place ∨ place <+: directory → disk.HasNoRules directory

/-! ## The directories among the arguments -/

theorem holds_of_isDirectory (htree : disk.root.IsTree) (hdirectory : disk.isDirectory p = true)
    (hrules : disk.HasNoRulesAround p) :
    ∃ place entries, disk.Holds p place (.directory entries) := by
  cases hlocated : disk.locate p with
  | error e =>
      rw [isDirectory, node?, hlocated] at hdirectory
      cases hdirectory
  | ok place =>
      simp only [isDirectory, node?, hlocated] at hdirectory
      split at hdirectory
      · rename_i entries hfound
        have hbelow := Node.at?_append_of_at? hfound
        refine ⟨place, entries, hlocated, hfound, ?_, ?_, ?_⟩
        · intro names inner hinner
          exact htree (place ++ names) inner (by rw [hbelow, hinner])
        · rintro directory ⟨rest, rfl⟩
          -- A directory above a place of the disk is itself one of its places.
          rw [Node.at?_append, Option.bind_eq_some_iff] at hfound
          obtain ⟨node, hnode, -⟩ := hfound
          exact hrules _ directory hlocated
            ((Node.mem_places_iff htree directory).mpr ⟨node, hnode⟩)
            (Or.inl (List.prefix_append directory rest))
        · intro names inner hinner
          exact hrules place _ hlocated
            ((Node.mem_places_iff htree _).mpr ⟨_, by rw [hbelow, hinner]⟩)
            (Or.inr (List.prefix_append place names))
      · cases hdirectory

/-- What is kept of a listing are the modules. -/
theorem Holds.isEntry_iff (h : disk.Holds p place (.directory entries)) {node : Node}
    (hnode : (Node.directory entries).at? names = some node) :
    disk.isEntry (p.below names) = true ↔ disk.IsModuleAt p place names := by
  have htext := text_ne_of_locate h.located
  have hnames := h.isTree.isName_of_at? hnode
  have hplace := Node.at?_append_of_at? h.found names
  have hfile : disk.isFile (p.below names) = true ↔
      (∃ bytes, disk.root.at? (place ++ names) = some (.file bytes)) ∨
        (∃ target, disk.root.at? (place ++ names) = some (.link target)) ∧
          disk.isFile (p.below names) = true := by
    rw [hplace, ← Node.isFileAt_iff _ (fun names => disk.isFile (p.below names)),
      ← h.isFile_below hnode]
  have hmarks : (p.below names).isTest = false ↔
      ∀ mark ∈ [".test.", ".spec."], ¬mark.toList <:+: (p.below names).text.toList := by
    rw [← Bool.not_eq_true, isTest_iff]
    simp only [not_exists, not_and]
  have hextension : ∀ name, names.getLast? = some name →
      ((p.below names).hasExtension moduleExtensions = true ↔
        ∃ stem ext, name = stem ++ "." ++ ext ∧ stem ≠ "" ∧ ext ∈ moduleExtensions) := by
    intro name hlast
    rw [hasExtension_below htext hnames hlast]
    exact hasExtension_name_iff (hnames name (List.mem_of_getLast? hlast)) (by decide)
  rw [isEntry, Bool.and_eq_true, Bool.and_eq_true, Bool.not_eq_true', hfile, hmarks]
  constructor
  · rintro ⟨⟨hisFile, hunmarked⟩, hext⟩
    cases hlast : names.getLast? with
    | none =>
        -- The directory itself is listed too, but it is no file.
        obtain rfl := List.getLast?_eq_none_iff.mp hlast
        rw [hplace] at hisFile
        simp [Node.at?] at hisFile
    | some name =>
        obtain ⟨stem, ext, rfl, hstem⟩ := (hextension name hlast).mp hext
        exact ⟨hisFile, ⟨stem, ext, hlast, hstem⟩, hunmarked⟩
  · rintro ⟨hisFile, ⟨stem, ext, hlast, hstem⟩, hunmarked⟩
    exact ⟨⟨hisFile, hunmarked⟩, (hextension _ hlast).mpr ⟨stem, ext, rfl, hstem⟩⟩

/-- No two paths of a listing are spellings of one path. -/
theorem Holds.pairwise_listing (h : disk.Holds p place (.directory entries)) :
    (disk.listing p).Pairwise fun a b => a.compare b ≠ .eq := by
  have htext := text_ne_of_locate h.located
  rw [h.listing, List.pairwise_map]
  refine (Node.nodup_places h.isTree).imp_of_mem fun {a b} ha hb hne => ?_
  rw [compare_below htext (h.isTree.isName_of_mem_places ha) (h.isTree.isName_of_mem_places hb)]
  exact mt (Place.compare_eq_iff a b).mp hne

theorem Holds.mem_filter_listing_iff (h : disk.Holds p place (.directory entries)) (q : Path) :
    q ∈ (disk.listing p).filter disk.isEntry ↔ disk.IsModuleBelow p q := by
  have hplaces := Node.mem_places_iff h.isTree
  rw [List.mem_filter, h.listing, List.mem_map]
  constructor
  · rintro ⟨⟨names, hnames, rfl⟩, hentry⟩
    obtain ⟨node, hnode⟩ := (hplaces names).mp hnames
    exact ⟨place, names, h.located, (h.isEntry_iff hnode).mp hentry, rfl⟩
  · rintro ⟨place', names, hlocated, hmodule, rfl⟩
    rw [h.located] at hlocated
    obtain rfl := Except.ok.inj hlocated
    obtain ⟨node, hnode⟩ : ∃ node, (Node.directory entries).at? names = some node := by
      have hisFile := hmodule.isFile
      rw [Node.at?_append_of_at? h.found] at hisFile
      rcases hisFile with ⟨bytes, hbytes⟩ | ⟨⟨target, htarget⟩, -⟩
      · exact ⟨_, hbytes⟩
      · exact ⟨_, htarget⟩
    exact ⟨⟨names, (hplaces names).mpr ⟨node, hnode⟩, rfl⟩, (h.isEntry_iff hnode).mpr hmodule⟩

/-- **Sorting what is kept of a listing gives the expansion**, whatever the order of the listing
is. -/
theorem Holds.isExpansion (h : disk.Holds p place (.directory entries)) {listed : List Path}
    (hperm : listed.Perm (disk.listing p)) :
    disk.IsExpansion p (sortPaths (listed.filter disk.isEntry)) := by
  have hkept := (hperm.filter disk.isEntry).symm
  have hdistinct : (listed.filter disk.isEntry).Pairwise fun a b => a.compare b ≠ .eq :=
    hkept.pairwise (h.pairwise_listing.filter _) fun {a b} hab hba =>
      hab (Std.OrientedCmp.eq_symm hba)
  refine ⟨fun hnot => ?_, fun _ => mergeSort_strict hdistinct, fun _ q => ?_⟩
  · rw [h.isDirectory] at hnot
    cases hnot
  · rw [sortPaths, List.mem_mergeSort, ← hkept.mem_iff, h.mem_filter_listing_iff]

/-! ## All arguments -/

/-- The entry files of one argument are its expansion. -/
theorem exists_expansion (htree : disk.root.IsTree)
    (hrules : disk.isDirectory p = true → disk.HasNoRulesAround p) :
    ∃ found, disk.entriesOf p = .ok found ∧ disk.IsExpansion p found := by
  by_cases hdirectory : disk.isDirectory p = true
  · obtain ⟨place, entries, h⟩ := holds_of_isDirectory htree hdirectory (hrules hdirectory)
    exact ⟨_, h.entriesOf_eq_sortPaths, h.isExpansion (.refl _)⟩
  · refine ⟨[p], by rw [entriesOf, if_neg hdirectory], fun _ => rfl, fun h => ?_, fun h => ?_⟩
    · exact absurd h hdirectory
    · exact absurd h hdirectory

theorem IsExpansion.unique {found found' : List Path} (h : disk.IsExpansion p found)
    (h' : disk.IsExpansion p found') : found = found' := by
  cases hdirectory : disk.isDirectory p with
  | false => rw [h.itself hdirectory, h'.itself hdirectory]
  | true =>
      refine (h.ascending hdirectory).eq_of_mem_iff (h'.ascending hdirectory) fun q => ?_
      rw [h.mem_iff hdirectory, h'.mem_iff hdirectory]

theorem collectEntries_cons {found : List Path} (hfound : disk.entriesOf p = .ok found)
    (ps : List Path) :
    disk.collectEntries (p :: ps) = (disk.collectEntries ps).map (found ++ ·) := by
  rw [collectEntries, collectEntries, List.mapM_cons, hfound]
  cases ps.mapM disk.entriesOf with
  | error e => rfl
  | ok parts => rfl

/-- The entry files of all arguments are their expansions, one behind the other. -/
theorem exists_expansions (htree : disk.root.IsTree)
    (hrules : ∀ p ∈ ps, disk.isDirectory p = true → disk.HasNoRulesAround p) :
    ∃ parts, List.Forall₂ disk.IsExpansion ps parts ∧
      disk.collectEntries ps = .ok parts.flatten := by
  induction ps with
  | nil => exact ⟨[], .nil, rfl⟩
  | cons p ps ih =>
      rw [List.forall_mem_cons] at hrules
      obtain ⟨found, hfound, hexpansion⟩ := exists_expansion htree hrules.1
      obtain ⟨parts, hparts, hcollect⟩ := ih hrules.2
      refine ⟨found :: parts, .cons hexpansion hparts, ?_⟩
      rw [collectEntries_cons hfound, hcollect]
      rfl

/-! ## Rearranged disks -/

theorem Rearranged.isModuleAt (h : disk.Rearranged disk')
    (hmodule : disk.IsModuleAt p place names) : disk'.IsModuleAt p place names := by
  refine ⟨?_, hmodule.extension, hmodule.unmarked⟩
  rw [← h.isFile]
  rcases hmodule.isFile with ⟨bytes, hbytes⟩ | ⟨⟨target, htarget⟩, hleads⟩
  · obtain ⟨node, hnode, hitem⟩ := h.root.exists_at? hbytes
    cases hitem
    exact Or.inl ⟨bytes, hnode⟩
  · obtain ⟨node, hnode, hitem⟩ := h.root.exists_at? htarget
    cases hitem
    exact Or.inr ⟨⟨target, hnode⟩, hleads⟩

theorem Rearranged.isModuleBelow (h : disk.Rearranged disk') (hmodule : disk.IsModuleBelow p q) :
    disk'.IsModuleBelow p q := by
  obtain ⟨place, names, hlocated, hat, hq⟩ := hmodule
  exact ⟨place, names, by rw [← h.locate, hlocated], h.isModuleAt hat, hq⟩

theorem Rearranged.isExpansion (h : disk.Rearranged disk') {found : List Path}
    (hexpansion : disk.IsExpansion p found) : disk'.IsExpansion p found := by
  refine ⟨?_, ?_, ?_⟩ <;> rw [← h.isDirectory]
  · exact hexpansion.itself
  · exact hexpansion.ascending
  · intro hdirectory q
    rw [hexpansion.mem_iff hdirectory]
    exact ⟨h.isModuleBelow, h.symm.isModuleBelow⟩

theorem Rearranged.hasNoRulesAround (h : disk.Rearranged disk') (htree : disk.root.IsTree)
    (hrules : disk.HasNoRulesAround p) : disk'.HasNoRulesAround p := by
  intro place directory hlocated hdirectory hway
  rw [Node.mem_places_iff (h.root.isTree htree)] at hdirectory
  obtain ⟨node', hnode'⟩ := hdirectory
  obtain ⟨node, hnode, -⟩ := h.root.symm.exists_at? hnode'
  rw [← h.locate] at hlocated
  exact h.hasNoRules
    (hrules place directory hlocated ((Node.mem_places_iff htree directory).mpr ⟨node, hnode⟩) hway)

/-- **Directories expand to all of their modules, once each.** On a disk without ignore files around
the directories among the arguments, collecting entries succeeds and gives the expansions of the
arguments, in their order. The order of a listing does not matter, nor does the order in which the
directories of the disk have their entries. -/
theorem collectEntries_expands (htree : disk.root.IsTree)
    (hrules : ∀ p ∈ ps, disk.isDirectory p = true → disk.HasNoRulesAround p) :
    ∃ parts, List.Forall₂ disk.IsExpansion ps parts ∧
      disk.collectEntries ps = .ok parts.flatten ∧
      (∀ p ∈ ps, disk.isDirectory p = true → ∀ listed : List Path,
        listed.Perm (disk.listing p) →
          disk.IsExpansion p (sortPaths (listed.filter disk.isEntry))) ∧
      ∀ disk', disk.Rearranged disk' → disk'.collectEntries ps = .ok parts.flatten := by
  obtain ⟨parts, hparts, hcollect⟩ := exists_expansions htree hrules
  refine ⟨parts, hparts, hcollect, fun p hp hdirectory listed hperm => ?_, fun disk' h => ?_⟩
  · obtain ⟨place, entries, h⟩ := holds_of_isDirectory htree hdirectory (hrules p hp hdirectory)
    exact h.isExpansion hperm
  · have hrules' : ∀ p ∈ ps, disk'.isDirectory p = true → disk'.HasNoRulesAround p := by
      intro p hp hdirectory
      rw [← h.isDirectory] at hdirectory
      exact h.hasNoRulesAround htree (hrules p hp hdirectory)
    obtain ⟨parts', hparts', hcollect'⟩ := exists_expansions (h.root.isTree htree) hrules'
    -- On both disks the parts are expansions, and an argument has only one.
    have hunique : Relator.RightUnique disk'.IsExpansion := fun _ _ _ => IsExpansion.unique
    have hsame : parts' = parts :=
      List.right_unique_forall₂' hunique hparts' (hparts.imp fun _ _ => h.isExpansion)
    rw [hcollect', hsame]

def sampleSources : List (String × Node) :=
  [("b.js", .file .empty), (".a", .directory [("x.ts", .file .empty)]), (".js", .file .empty)]

def ofSources (sources : List (String × Node)) : Disk where
  root := .directory [("notes.txt", .file .empty), ("src", .directory sources)]

theorem isTree_ofSources : (ofSources sampleSources).root.IsTree := by
  have hhidden : (Node.directory [("x.ts", .file .empty)]).IsTree := by
    refine Node.isTree_directory (by decide) (by decide) ?_
    simp only [List.forall_mem_cons]
    exact ⟨Node.isTree_file _, by simp⟩
  have hsources : (Node.directory sampleSources).IsTree := by
    refine Node.isTree_directory (by decide) (by decide) ?_
    simp only [sampleSources, List.forall_mem_cons]
    exact ⟨Node.isTree_file _, hhidden, Node.isTree_file _, by simp⟩
  refine Node.isTree_directory (by decide) (by decide) ?_
  simp only [List.forall_mem_cons]
  exact ⟨Node.isTree_file _, hsources, by simp⟩

theorem rearranged_ofSources {sources sources' : List (String × Node)}
    (hnodup : (sources.map Prod.fst).Nodup) (hperm : sources.Perm sources') :
    (ofSources sources).Rearranged (ofSources sources') := by
  refine ⟨rfl, Node.rearranged_directory (by simp) (by simp) ?_⟩
  simp only [List.mem_cons, Prod.mk.injEq, List.not_mem_nil, or_false]
  rintro name child child' (⟨rfl, rfl⟩ | ⟨rfl, rfl⟩) (⟨hname, rfl⟩ | ⟨hname, rfl⟩)
  · exact .refl _
  · simp at hname
  · simp at hname
  · exact Node.rearranged_of_perm hnodup hperm

theorem collectEntries_expands_sample :
    ∃ found : List Path, Ascending found ∧ ⟨"/src/.a/x.ts"⟩ ∈ found ∧
      (ofSources sampleSources).collectEntries [⟨"/notes.txt"⟩, ⟨"/src"⟩]
        = .ok (⟨"/notes.txt"⟩ :: found) ∧
      (ofSources sampleSources.reverse).collectEntries [⟨"/notes.txt"⟩, ⟨"/src"⟩]
        = .ok (⟨"/notes.txt"⟩ :: found) := by
  have hnoRules : ∀ directory ∈ (ofSources sampleSources).root.places,
      (ofSources sampleSources).HasNoRules directory := by
    decide +kernel
  have hfile : (ofSources sampleSources).isDirectory ⟨"/notes.txt"⟩ = false := by decide +kernel
  have hdirectory : (ofSources sampleSources).isDirectory ⟨"/src"⟩ = true := by decide +kernel
  have hlocated : (ofSources sampleSources).locate ⟨"/src"⟩ = .ok ["src"] := by decide +kernel
  have hrules : ∀ p ∈ [Path.mk "/notes.txt", ⟨"/src"⟩],
      (ofSources sampleSources).isDirectory p = true →
        (ofSources sampleSources).HasNoRulesAround p :=
    fun _ _ _ _ directory _ hplace _ => hnoRules directory hplace
  obtain ⟨parts, hparts, hcollect, -, horder⟩ := collectEntries_expands isTree_ofSources hrules
  have hcollect' := horder (ofSources sampleSources.reverse)
    (rearranged_ofSources (by decide) (List.reverse_perm _).symm)
  cases hparts with
  | cons hnotes hrest =>
      cases hrest with
      | cons hsrc hnil =>
          cases hnil
          obtain rfl := hnotes.itself hfile
          rw [List.flatten_cons, List.flatten_cons, List.flatten_nil, List.append_nil]
            at hcollect hcollect'
          refine ⟨_, hsrc.ascending hdirectory, ?_, hcollect, hcollect'⟩
          rw [hsrc.mem_iff hdirectory]
          exact ⟨["src"], [".a", "x.ts"], hlocated,
            ⟨Or.inl ⟨.empty, rfl⟩, ⟨"x", "ts", rfl, by decide, by decide⟩, by decide⟩, rfl⟩

end Disk

end ModuleGraph
