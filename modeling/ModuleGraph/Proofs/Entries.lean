import Mathlib.Data.List.Infix
import ModuleGraph.Entries
import ModuleGraph.Proofs.Disk.Listing
import ModuleGraph.Proofs.Path.Order

set_option autoImplicit false

/-! # The entry files below a directory

Whether a path is that of a test is read off its whole text, so a mark may stand in any name on
the way (`Path.isTest_below`). What is kept of a directory tree therefore depends on two things:
on the tree itself, which gives an ascending list of places (`Node.modules`), and on the path of
its root. A root with a mark in its text loses all of its entry files; every other root has the
places of the tree, each behind the root (`Disk.collectEntries_relocated`).
-/

namespace ModuleGraph

open ModuleGraph.Path

/-! ## Marks of tests -/

theorem occursIn_iff (part text : List Char) : occursIn part text = true ↔ part <:+: text := by
  induction text with
  | nil => simp [occursIn]
  | cons c rest ih =>
      rw [occursIn, Bool.or_eq_true, List.isPrefixOf_iff_prefix, ih, List.infix_cons_iff]

namespace Path

theorem isTest_iff (p : Path) :
    p.isTest = true ↔ ∃ mark ∈ [".test.", ".spec."], mark.toList <:+: p.text.toList := by
  simp only [isTest, List.any_eq_true, occursIn_iff]

/-- A mark has no slash, so it stands in the path of the directory or in the name. -/
theorem isTest_join_name {p : Path} (hp : p.text ≠ "") {name : String}
    (hname : IsName name.toList) :
    (p.join ⟨name⟩).isTest = (p.isTest || (Path.mk name).isTest) := by
  obtain ⟨front, hbase, hjoin⟩ := exists_joinText_name (toList_text_ne_nil hp) hname
  have hmark : ∀ mark ∈ [".test.", ".spec."],
      (mark.toList <:+: (p.join ⟨name⟩).text.toList ↔
        mark.toList <:+: p.text.toList ∨ mark.toList <:+: name.toList) := by
    intro mark hmark
    have hmarks : ∀ mark ∈ [".test.", ".spec."], '/' ∉ mark.toList ∧ mark.toList ≠ [] := by decide
    obtain ⟨hslash, hempty⟩ := hmarks mark hmark
    -- A slash at the end of the directory's path cannot complete a mark.
    have hfront : mark.toList <:+: p.text.toList ↔ mark.toList <:+: front := by
      rcases hbase with hbase | hbase
      · rw [hbase]
      · rw [hbase, infix_append_cons_iff hslash, List.infix_nil, or_iff_left hempty]
    rw [join, String.toList_ofList, hjoin, infix_append_cons_iff hslash, hfront]
  rw [Bool.eq_iff_iff, Bool.or_eq_true, isTest_iff, isTest_iff, isTest_iff]
  constructor
  · rintro ⟨mark, hmem, hinfix⟩
    exact ((hmark mark hmem).mp hinfix).imp (fun h => ⟨mark, hmem, h⟩) fun h => ⟨mark, hmem, h⟩
  · rintro (⟨mark, hmem, hinfix⟩ | ⟨mark, hmem, hinfix⟩)
    · exact ⟨mark, hmem, (hmark mark hmem).mpr (Or.inl hinfix)⟩
    · exact ⟨mark, hmem, (hmark mark hmem).mpr (Or.inr hinfix)⟩

theorem isTest_below {p : Path} (hp : p.text ≠ "") {names : Place}
    (hnames : ∀ name ∈ names, IsName name.toList) :
    (p.below names).isTest = (p.isTest || names.any fun name => (Path.mk name).isTest) := by
  induction names generalizing p with
  | nil => simp
  | cons name rest ih =>
      rw [List.forall_mem_cons] at hnames
      rw [below_cons, ih (join_text_ne hp _) hnames.2, isTest_join_name hp hnames.1,
        List.any_cons, Bool.or_assoc]

/-! ## Paths below a directory -/

theorem stepsOf_name {name : String} (hname : IsName name.toList) :
    stepsOf name.toList = [.name name] := by
  have hproper : (Component.name name).IsProper := hname
  exact stepsOf_text hproper

theorem components_below {p : Path} (hp : p.text ≠ "") {names : Place}
    (hnames : ∀ name ∈ names, IsName name.toList) :
    (p.below names).components = p.components ++ names.map Component.name := by
  induction names generalizing p with
  | nil => simp
  | cons name rest ih =>
      rw [List.forall_mem_cons] at hnames
      have hhead : name.toList.head? ≠ some '/' := fun h =>
        hnames.1.2.1 (List.mem_of_mem_head? h)
      have hjoin : (p.join ⟨name⟩).components = p.components ++ [.name name] := by
        rw [components_join (toList_text_ne_nil hp) hhead, stepsOf_name hnames.1]
      rw [below_cons, ih (join_text_ne hp _) hnames.2, hjoin, List.append_assoc]
      rfl

theorem fileName?_of_isName {name : String} (hname : IsName name.toList) :
    (Path.mk name).fileName? = some name := by
  have hproper : (Component.name name).IsProper := hname
  have hcomponents : (Path.mk name).components = [.name name] :=
    componentsOf_text (Or.inl hproper)
  rw [fileName?, hcomponents]
  rfl

theorem hasExtension_below {p : Path} (hp : p.text ≠ "") {names : Place} {name : String}
    (hnames : ∀ name ∈ names, IsName name.toList) (hlast : names.getLast? = some name)
    (extensions : List String) :
    (p.below names).hasExtension extensions = (Path.mk name).hasExtension extensions := by
  have hfile : (p.below names).fileName? = some name := by
    rw [fileName?, components_below hp hnames, List.getLast?_append, List.getLast?_map, hlast]
    rfl
  have hname := hnames name (List.mem_of_getLast? hlast)
  rw [hasExtension, hasExtension, extension?, extension?, hfile, fileName?_of_isName hname]

theorem compareComponents_append (front : List Component) (as bs : List Component) :
    compareComponents (front ++ as) (front ++ bs) = compareComponents as bs := by
  induction front with
  | nil => rfl
  | cons c front ih =>
      have hsame : c.compare c = .eq := Std.ReflCmp.compare_self
      rw [List.cons_append, List.cons_append, compareComponents, ih, hsame]
      rfl

theorem compare_below {p : Path} (hp : p.text ≠ "") {names names' : Place}
    (hnames : ∀ name ∈ names, IsName name.toList)
    (hnames' : ∀ name ∈ names', IsName name.toList) :
    (p.below names).compare (p.below names')
      = compareComponents (names.map Component.name) (names'.map Component.name) := by
  rw [compare, components_below hp hnames, components_below hp hnames', compareComponents_append]

end Path

/-! ## The modules of a tree -/

/-- Sorted without repetition is strictly sorted. -/
theorem mergeSort_strict {α : Type} {cmp : α → α → Ordering} [Std.TransCmp cmp] {l : List α}
    (h : l.Pairwise fun a b => cmp a b ≠ .eq) :
    (l.mergeSort fun a b => (cmp a b).isLE).Pairwise fun a b => cmp a b = .lt := by
  have htotal : ∀ a b, ((cmp a b).isLE || (cmp b a).isLE) = true := by
    intro a b
    have hswap : cmp b a = (cmp a b).swap := Std.OrientedCmp.eq_swap
    rw [hswap]
    cases cmp a b <;> rfl
  have hsorted := List.pairwise_mergeSort (fun _ _ _ => Std.TransCmp.isLE_trans) htotal l
  have hdistinct : (l.mergeSort fun a b => (cmp a b).isLE).Pairwise fun a b => cmp a b ≠ .eq :=
    (List.mergeSort_perm l _).symm.pairwise h fun {a b} hab hba =>
      hab (Std.OrientedCmp.eq_symm hba)
  refine (hsorted.and hdistinct).imp fun {a b} hab => ?_
  cases hcompare : cmp a b with
  | lt => rfl
  | eq => exact absurd hcompare hab.2
  | gt =>
      rw [hcompare] at hab
      cases hab.1

namespace Place

/-- The order of the places in a tree. -/
def compare (names names' : Place) : Ordering :=
  compareComponents (names.map Component.name) (names'.map Component.name)

theorem compare_eq_compareLex (names names' : Place) :
    Place.compare names names' = List.compareLex Component.compare
      (names.map Component.name) (names'.map Component.name) :=
  compareComponents_eq_compareLex _ _

theorem compare_eq_iff (names names' : Place) :
    Place.compare names names' = .eq ↔ names = names' := by
  rw [compare_eq_compareLex, Std.LawfulEqCmp.compare_eq_iff_eq]
  exact List.map_inj_right fun _ _ h => Component.name.inj h

instance : Std.OrientedCmp Place.compare where
  eq_swap {a b} := by
    rw [compare_eq_compareLex, compare_eq_compareLex]
    exact Std.OrientedCmp.eq_swap

instance : Std.TransCmp Place.compare where
  isLE_trans {a b c} hab hbc := by
    rw [compare_eq_compareLex] at hab hbc ⊢
    exact Std.TransCmp.isLE_trans hab hbc

/-- Sorting puts places in their order, and two are never alike if none was listed twice. -/
theorem pairwise_mergeSort {places : List Place} (h : places.Nodup) :
    (places.mergeSort fun a b => (Place.compare a b).isLE).Pairwise
      fun a b => Place.compare a b = .lt :=
  mergeSort_strict (h.imp fun {a b} hne heq => hne ((compare_eq_iff a b).mp heq))

end Place

namespace Node

/-- Whether a place in a tree is that of a file; `leads` says which links lead to one. -/
def isFileAt (tree : Node) (leads : Place → Bool) (names : Place) : Bool :=
  match tree.at? names with
  | some (.file _) => true
  | some (.link _) => leads names
  | _ => false

/-- Whether a place in a tree is that of a module: a file with the extension of a module, where no
name on the way has the mark of a test. -/
def isModule (tree : Node) (leads : Place → Bool) (names : Place) : Bool :=
  tree.isFileAt leads names && !(names.any fun name => (Path.mk name).isTest) &&
    (names.getLast?).any fun name => (Path.mk name).hasExtension moduleExtensions

/-- The places of the modules of a tree, in their order. -/
def modules (tree : Node) (leads : Place → Bool) : List Place :=
  (tree.places.filter (tree.isModule leads)).mergeSort fun a b => (Place.compare a b).isLE

theorem isFileAt_iff (tree : Node) (leads : Place → Bool) (names : Place) :
    tree.isFileAt leads names = true ↔
      (∃ bytes, tree.at? names = some (.file bytes)) ∨
        (∃ target, tree.at? names = some (.link target)) ∧ leads names = true := by
  unfold isFileAt
  cases tree.at? names with
  | none => simp
  | some node => cases node <;> simp

theorem modules_congr {tree : Node} {leads leads' : Place → Bool}
    (h : ∀ names target, tree.at? names = some (.link target) → leads names = leads' names) :
    tree.modules leads = tree.modules leads' := by
  have hfile : ∀ names, tree.isFileAt leads names = tree.isFileAt leads' names := by
    intro names
    rw [Bool.eq_iff_iff, isFileAt_iff, isFileAt_iff]
    refine or_congr_right (and_congr_right ?_)
    rintro ⟨target, htarget⟩
    rw [h names target htarget]
  have hmodule : tree.isModule leads = tree.isModule leads' := by
    funext names
    rw [isModule, isModule, hfile]
  rw [modules, modules, hmodule]

theorem mem_modules_iff {tree : Node} (htree : tree.IsTree) (leads : Place → Bool)
    (names : Place) : names ∈ tree.modules leads ↔
      tree.isFileAt leads names = true ∧ (∀ name ∈ names, (Path.mk name).isTest = false) ∧
        ∃ name, names.getLast? = some name ∧
          (Path.mk name).hasExtension moduleExtensions = true := by
  have hplace : tree.isFileAt leads names = true → names ∈ tree.places := by
    rw [isFileAt_iff, mem_places_iff htree]
    rintro (⟨bytes, hbytes⟩ | ⟨⟨target, htarget⟩, -⟩)
    · exact ⟨_, hbytes⟩
    · exact ⟨_, htarget⟩
  rw [modules, (List.mergeSort_perm _ _).mem_iff, List.mem_filter, isModule, Bool.and_eq_true,
    Bool.and_eq_true, and_assoc, ← and_assoc, and_iff_right_of_imp hplace]
  simp [Option.any_eq_true]

end Node

/-! ## Collecting entries -/

namespace Disk

variable {disk disk' : Disk} {root root' : Path} {place place' : Place} {tree : Node}
  {entries : List (String × Node)}

theorem Holds.isFile_below (h : disk.Holds root place tree) {names : Place} {node : Node}
    (hnode : tree.at? names = some node) : disk.isFile (root.below names)
      = tree.isFileAt (fun names => disk.isFile (root.below names)) names := by
  rw [Node.isFileAt, hnode]
  cases node with
  | file bytes => rw [isFile, h.node?_below hnode (by simp)]
  | directory entries => rw [isFile, h.node?_below hnode (by simp)]
  | link target => rfl

theorem Holds.isEntry_below (h : disk.Holds root place (.directory entries)) {names : Place}
    (hnames : names ∈ (Node.directory entries).places) : disk.isEntry (root.below names)
      = (!root.isTest && (Node.directory entries).isModule
          (fun names => disk.isFile (root.below names)) names) := by
  obtain ⟨node, hnode⟩ := (Node.mem_places_iff h.isTree names).mp hnames
  have hisName := h.isTree.isName_of_at? hnode
  have htext := text_ne_of_locate h.located
  rw [isEntry, h.isFile_below hnode, isTest_below htext hisName, Node.isModule]
  cases hlast : names.getLast? with
  | none =>
      -- The root is a directory, so it is no file whatever it is called.
      obtain rfl := List.getLast?_eq_none_iff.mp hlast
      simp [Node.isFileAt, Node.at?]
  | some name =>
      rw [hasExtension_below htext hisName hlast, Option.any_some, Bool.not_or]
      ac_rfl

theorem Holds.sortPaths_map_below (h : disk.Holds root place tree) {places : List Place}
    (hplaces : places ⊆ tree.places) : sortPaths (places.map root.below)
      = (places.mergeSort fun a b => (Place.compare a b).isLE).map root.below := by
  have htext := text_ne_of_locate h.located
  refine (List.map_mergeSort fun a ha b hb => ?_).symm
  rw [compare_below htext (h.isTree.isName_of_mem_places (hplaces ha))
    (h.isTree.isName_of_mem_places (hplaces hb)), Place.compare]

theorem Holds.isDirectory (h : disk.Holds root place (.directory entries)) :
    disk.isDirectory root = true := by
  have hroot : disk.node? (root.below []) = some (.directory entries) :=
    h.node?_below rfl (by simp)
  rw [below_nil] at hroot
  rw [Disk.isDirectory, hroot]

/-- A directory with no ignore file in it or above it is listed, and what is no entry is left
out. -/
theorem Holds.entriesOf_eq_sortPaths (h : disk.Holds root place (.directory entries)) :
    disk.entriesOf root = .ok (sortPaths ((disk.listing root).filter disk.isEntry)) := by
  rw [Disk.entriesOf, if_pos h.isDirectory, h.located]
  simp only [h.faultsAbove]

/-- **The entry files of a directory** are the modules of its tree, unless its path has the mark
of a test. -/
theorem Holds.entriesOf (h : disk.Holds root place (.directory entries)) :
    disk.entriesOf root = .ok (if root.isTest then [] else
      ((Node.directory entries).modules fun names => disk.isFile (root.below names)).map
        root.below) := by
  -- The root is in front of every place, so its own marks are seen at every place or at none.
  have hentries : (disk.listing root).filter disk.isEntry
      = ((Node.directory entries).places.filter fun names => !root.isTest &&
          (Node.directory entries).isModule (fun names => disk.isFile (root.below names))
            names).map root.below := by
    rw [h.listing, List.filter_map]
    exact congrArg _ (List.filter_congr fun names hnames => h.isEntry_below hnames)
  rw [h.entriesOf_eq_sortPaths, hentries]
  cases htest : root.isTest with
  | true =>
      have hnone : (Node.directory entries).places.filter (fun _ => false) = [] := by simp
      simp only [Bool.not_true, Bool.false_and, hnone, List.map_nil, sortPaths,
        List.mergeSort_nil, if_true]
  | false =>
      rw [h.sortPaths_map_below List.filter_sublist.subset]
      simp only [Bool.not_false, Bool.true_and, Bool.false_eq_true, if_false]
      rfl

theorem collectEntries_singleton (disk : Disk) (root : Path) :
    disk.collectEntries [root] = disk.entriesOf root := by
  rw [collectEntries, List.mapM_cons, List.mapM_nil]
  cases disk.entriesOf root with
  | error e => rfl
  | ok found => simp [Except.map, bind, Except.bind, pure, Except.pure]

/-- **Entry files of one tree at two roots.** A tree that stands at two roots, with no ignore file
in it or above it, has one ascending list of places that does not depend on the roots: those of
its files, and of its links to files, that have the extension of a module and no mark of a test in
any name below the root. Each root gives the paths of these places behind the root, in this order,
unless the text of the root itself has the mark of a test: then it gives nothing at all. -/
theorem collectEntries_relocated (h : disk.Holds root place (.directory entries))
    (h' : disk'.Holds root' place' (.directory entries))
    (hlinks : ∀ names target, (Node.directory entries).at? names = some (.link target) →
      disk.isFile (root.below names) = disk'.isFile (root'.below names)) :
    ∃ places : List Place, places.Pairwise (fun a b => Place.compare a b = .lt) ∧
      (∀ names, names ∈ places ↔
        ((∃ bytes, (Node.directory entries).at? names = some (.file bytes)) ∨
          (∃ target, (Node.directory entries).at? names = some (.link target)) ∧
            disk.isFile (root.below names) = true) ∧
        (∀ name ∈ names, (Path.mk name).isTest = false) ∧
        ∃ name, names.getLast? = some name ∧
          (Path.mk name).hasExtension moduleExtensions = true) ∧
      disk.collectEntries [root] = .ok (if root.isTest then [] else places.map root.below) ∧
      disk'.collectEntries [root'] = .ok (if root'.isTest then [] else places.map root'.below) := by
  refine ⟨(Node.directory entries).modules fun names => disk.isFile (root.below names),
    Place.pairwise_mergeSort ((Node.nodup_places h.isTree).filter _), fun names => ?_, ?_, ?_⟩
  · rw [Node.mem_modules_iff h.isTree, Node.isFileAt_iff]
  · rw [collectEntries_singleton, h.entriesOf]
  · rw [collectEntries_singleton, h'.entriesOf, Node.modules_congr hlinks]

def sampleEntries : List (String × Node) := [("a.test.js", .file .empty), ("x.js", .file .empty)]

def ofSample (name : String) : Disk where
  root := .directory [("vfs", .directory [(name, .directory sampleEntries)])]

theorem isTree_sampleEntries : (Node.directory sampleEntries).IsTree := by
  refine Node.isTree_directory (by decide) (by decide) ?_
  simp only [sampleEntries, List.forall_mem_cons]
  exact ⟨Node.isTree_file _, Node.isTree_file _, by simp⟩

theorem holds_ofSample : ∀ name ∈ ["app", "my.test.app"],
    (ofSample name).Holds ⟨"/vfs/" ++ name⟩ ["vfs", name] (.directory sampleEntries) := by
  have hlocated : ∀ name ∈ ["app", "my.test.app"],
      (ofSample name).locate ⟨"/vfs/" ++ name⟩ = .ok ["vfs", name] := by
    decide +kernel
  have habove : ∀ name ∈ ["app", "my.test.app"], ∀ directory ∈ List.inits ["vfs", name],
      (ofSample name).HasNoRules directory := by
    decide +kernel
  have hbelow : ∀ name ∈ ["app", "my.test.app"], ∀ names ∈ (Node.directory sampleEntries).places,
      (ofSample name).HasNoRules (["vfs", name] ++ names) := by
    decide +kernel
  intro name hname
  refine ⟨hlocated name hname, ?_, isTree_sampleEntries, ?_, ?_⟩
  · simp [ofSample, Node.at?, Node.entries]
  · exact fun directory hprefix => habove name hname directory ((List.mem_inits _ _).mpr hprefix)
  · exact fun names entries hnode => hbelow name hname names
      ((Node.mem_places_iff isTree_sampleEntries names).mpr ⟨_, hnode⟩)

theorem collectEntries_relocated_sample :
    ∃ places : List Place, ["x.js"] ∈ places ∧
      (ofSample "app").collectEntries [⟨"/vfs/app"⟩]
        = .ok (places.map (Path.below ⟨"/vfs/app"⟩)) ∧
      (ofSample "my.test.app").collectEntries [⟨"/vfs/my.test.app"⟩] = .ok [] := by
  have hlinks : ∀ names target, (Node.directory sampleEntries).at? names = some (.link target) →
      (ofSample "app").isFile (Path.below ⟨"/vfs/app"⟩ names)
        = (ofSample "my.test.app").isFile (Path.below ⟨"/vfs/my.test.app"⟩ names) := by
    intro names target hnode
    have hnone : ∀ names ∈ (Node.directory sampleEntries).places,
        (Node.directory sampleEntries).isFileAt (fun _ => true) names
          = (Node.directory sampleEntries).isFileAt (fun _ => false) names := by
      decide +kernel
    have hlink := hnone names ((Node.mem_places_iff isTree_sampleEntries names).mpr ⟨_, hnode⟩)
    simp [Node.isFileAt, hnode] at hlink
  obtain ⟨places, -, hmem, hentries, hnothing⟩ := collectEntries_relocated
    (holds_ofSample "app" (by decide)) (holds_ofSample "my.test.app" (by decide)) hlinks
  refine ⟨places, (hmem _).mpr ⟨Or.inl ⟨.empty, rfl⟩, by decide, "x.js", rfl, by decide⟩, ?_, ?_⟩
  · exact hentries
  · exact hnothing

/-- A directory of modules has no entry file when its own name has the mark of a test. -/
theorem root_name_hides_entries :
    (ofSample "app").collectEntries [⟨"/vfs/app"⟩] = .ok [⟨"/vfs/app/x.js"⟩] ∧
      (ofSample "my.test.app").collectEntries [⟨"/vfs/my.test.app"⟩] = .ok [] := by
  have hmodules : ∀ leads, (Node.directory sampleEntries).modules leads = [["x.js"]] := by
    intro leads
    have hfilter : (Node.directory sampleEntries).places.filter
        ((Node.directory sampleEntries).isModule leads) = [["x.js"]] := by rfl
    rw [Node.modules, hfilter, List.mergeSort_singleton]
  constructor
  · have happ := (holds_ofSample "app" (by decide)).entriesOf
    rw [hmodules] at happ
    rw [collectEntries_singleton]
    exact happ
  · rw [collectEntries_singleton]
    exact (holds_ofSample "my.test.app" (by decide)).entriesOf

end Disk

end ModuleGraph
