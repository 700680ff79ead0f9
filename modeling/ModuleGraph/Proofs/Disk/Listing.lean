import ModuleGraph.Ignore.Listing
import ModuleGraph.Proofs.Disk.Locate
import ModuleGraph.Proofs.Table

set_option autoImplicit false

/-! # Listings without ignore rules

The places in a tree, the place of the tree itself first, are listed by `Node.places`. Where no
ignore file can be read, the listing of a directory is that of its tree, with the path of the
directory in front of every place (`Disk.Holds.listing`).
-/

namespace ModuleGraph

open ModuleGraph.Path

/-! ## Trees -/

/-- In every directory of the tree the names are such as files can have, and no two are alike. -/
def Node.IsTree (tree : Node) : Prop :=
  ∀ place entries, tree.at? place = some (.directory entries) →
    (entries.map Prod.fst).Nodup ∧ ∀ entry ∈ entries, IsName entry.1.toList

mutual

def Node.places : Node → List Place
  | .directory entries => [] :: Node.placesOf entries
  | .file _ | .link _ => [[]]

def Node.placesOf : List (String × Node) → List Place
  | [] => []
  | (name, node) :: rest => node.places.map (name :: ·) ++ Node.placesOf rest

end

namespace Node

theorem IsTree.nodup {entries : List (String × Node)} (h : (directory entries).IsTree) :
    (entries.map Prod.fst).Nodup :=
  (h [] entries rfl).1

theorem IsTree.isName {entries : List (String × Node)} (h : (directory entries).IsTree)
    {name : String} {child : Node} (hchild : (name, child) ∈ entries) : IsName name.toList :=
  (h [] entries rfl).2 _ hchild

theorem IsTree.lookup {entries : List (String × Node)} (h : (directory entries).IsTree)
    {name : String} {child : Node} (hchild : (name, child) ∈ entries) :
    entries.lookup name = some child :=
  (lookup_eq_some_iff_mem h.nodup name child).mpr hchild

theorem IsTree.child {entries : List (String × Node)} (h : (directory entries).IsTree)
    {name : String} {child : Node} (hchild : (name, child) ∈ entries) : child.IsTree := by
  intro place inner hinner
  refine h (name :: place) inner ?_
  rw [at?, Node.entries, h.lookup hchild]
  exact hinner

theorem isTree_directory {entries : List (String × Node)} (hnodup : (entries.map Prod.fst).Nodup)
    (hnames : ∀ entry ∈ entries, IsName entry.1.toList)
    (hchildren : ∀ entry ∈ entries, entry.2.IsTree) : (directory entries).IsTree := by
  intro place inner hinner
  cases place with
  | nil =>
      obtain rfl := directory.inj (Option.some.inj hinner)
      exact ⟨hnodup, hnames⟩
  | cons name rest =>
      rw [at?, Node.entries] at hinner
      cases hlookup : entries.lookup name with
      | none =>
          rw [hlookup] at hinner
          cases hinner
      | some child =>
          rw [hlookup] at hinner
          have hchild := (lookup_eq_some_iff_mem hnodup name child).mp hlookup
          exact hchildren _ hchild rest inner hinner

theorem isTree_file (bytes : ByteArray) : (file bytes).IsTree := by
  intro place entries h
  cases place <;> cases h

/-- A place in a directory is the name of an entry and a place in that. -/
theorem at?_directory_cons {entries : List (String × Node)} (h : (directory entries).IsTree)
    {name : String} {rest : Place} {node : Node} :
    (directory entries).at? (name :: rest) = some node ↔
      ∃ child, (name, child) ∈ entries ∧ child.at? rest = some node := by
  rw [at?, Node.entries]
  constructor
  · intro hat
    cases hlookup : entries.lookup name with
    | none =>
        rw [hlookup] at hat
        cases hat
    | some child =>
        rw [hlookup] at hat
        exact ⟨child, (lookup_eq_some_iff_mem h.nodup name child).mp hlookup, hat⟩
  · rintro ⟨child, hchild, hat⟩
    rw [h.lookup hchild]
    exact hat

theorem IsTree.isName_of_at? {tree node : Node} (h : tree.IsTree) {names : Place}
    (hnode : tree.at? names = some node) : ∀ name ∈ names, IsName name.toList := by
  induction names generalizing tree with
  | nil => simp
  | cons name rest ih =>
      cases tree with
      | file bytes => cases hnode
      | link target => cases hnode
      | directory entries =>
          obtain ⟨child, hchild, hrest⟩ := (at?_directory_cons h).mp hnode
          rw [List.forall_mem_cons]
          exact ⟨h.isName hchild, ih (h.child hchild) hrest⟩

mutual

/-- A tree has a node at each of its places and nowhere else. -/
theorem mem_places_iff : ∀ {tree : Node}, tree.IsTree → ∀ names : Place,
    names ∈ tree.places ↔ ∃ node, tree.at? names = some node
  | .directory entries, _, [] => by simp [places, at?]
  | .directory entries, h, name :: rest => by
      have hbelow := mem_placesOf_iff (fun name child => h.child) name rest
      simp only [places, List.mem_cons, reduceCtorEq, false_or, hbelow, at?_directory_cons h]
      exact ⟨fun ⟨child, hchild, node, hnode⟩ => ⟨node, child, hchild, hnode⟩,
        fun ⟨node, child, hchild, hnode⟩ => ⟨child, hchild, node, hnode⟩⟩
  | .file _, _, [] | .link _, _, [] => by simp [places, at?]
  | .file _, _, _ :: _ | .link _, _, _ :: _ => by simp [places, at?, Node.entries]

theorem mem_placesOf_iff : ∀ {entries : List (String × Node)},
    (∀ name child, (name, child) ∈ entries → child.IsTree) → ∀ (name : String) (rest : Place),
    name :: rest ∈ placesOf entries ↔
      ∃ child, (name, child) ∈ entries ∧ ∃ node, child.at? rest = some node
  | [], _, _, _ => by simp [placesOf]
  | (first, node) :: others, h, name, rest => by
      have hfirst := mem_places_iff (h first node List.mem_cons_self) rest
      have hothers := mem_placesOf_iff
        (fun name child hchild => h name child (List.mem_cons_of_mem _ hchild)) name rest
      have hmap : name :: rest ∈ node.places.map (first :: ·) ↔
          name = first ∧ ∃ inner, node.at? rest = some inner := by
        rw [← hfirst]
        simp [eq_comm, and_comm]
      rw [placesOf, List.mem_append, hmap, hothers]
      constructor
      · rintro (⟨rfl, hinner⟩ | ⟨child, hchild, hinner⟩)
        · exact ⟨node, List.mem_cons_self, hinner⟩
        · exact ⟨child, List.mem_cons_of_mem _ hchild, hinner⟩
      · rintro ⟨child, hchild, hinner⟩
        rcases List.mem_cons.mp hchild with heq | hchild
        · obtain ⟨rfl, rfl⟩ := Prod.mk.inj heq
          exact Or.inl ⟨rfl, hinner⟩
        · exact Or.inr ⟨child, hchild, hinner⟩

end

theorem IsTree.isName_of_mem_places {tree : Node} (h : tree.IsTree) {names : Place}
    (hnames : names ∈ tree.places) : ∀ name ∈ names, IsName name.toList := by
  obtain ⟨node, hnode⟩ := (mem_places_iff h names).mp hnames
  exact h.isName_of_at? hnode

theorem exists_name_of_mem_placesOf {entries : List (String × Node)} {names : Place}
    (h : names ∈ placesOf entries) : ∃ name rest, names = name :: rest ∧
      name ∈ entries.map Prod.fst := by
  induction entries with
  | nil => cases h
  | cons entry others ih =>
      rw [placesOf, List.mem_append] at h
      rcases h with h | h
      · obtain ⟨rest, -, rfl⟩ := List.mem_map.mp h
        exact ⟨entry.1, rest, rfl, List.mem_cons_self⟩
      · obtain ⟨name, rest, hnames, hname⟩ := ih h
        exact ⟨name, rest, hnames, List.mem_cons_of_mem _ hname⟩

mutual

/-- No place of a tree is listed twice. -/
theorem nodup_places : ∀ {tree : Node}, tree.IsTree → tree.places.Nodup
  | .directory entries, h => by
      refine List.nodup_cons.mpr ⟨fun hmem => ?_, nodup_placesOf h.nodup fun name child => h.child⟩
      obtain ⟨name, rest, hnames, -⟩ := exists_name_of_mem_placesOf hmem
      cases hnames
  | .file _, _ | .link _, _ => by simp [places]

theorem nodup_placesOf : ∀ {entries : List (String × Node)}, (entries.map Prod.fst).Nodup →
    (∀ name child, (name, child) ∈ entries → child.IsTree) → (placesOf entries).Nodup
  | [], _, _ => by simp [placesOf]
  | (first, node) :: others, hnodup, h => by
      rw [List.map_cons, List.nodup_cons] at hnodup
      have hfirst := nodup_places (h first node List.mem_cons_self)
      have hothers := nodup_placesOf hnodup.2
        fun name child hchild => h name child (List.mem_cons_of_mem _ hchild)
      -- Places below two entries differ in their first name.
      refine List.nodup_append.mpr
        ⟨hfirst.map (fun _ _ heq => (List.cons.inj heq).2), hothers, ?_⟩
      rintro names hnames _ hmem rfl
      obtain ⟨rest, -, rfl⟩ := List.mem_map.mp hnames
      obtain ⟨name, rest', heq, hname⟩ := exists_name_of_mem_placesOf hmem
      rw [(List.cons.inj heq).1] at hnodup
      exact hnodup.1 hname

end

end Node

/-! ## Layers without rules -/

/-- None of the ignore files of a directory can be read. -/
def Disk.HasNoRules (disk : Disk) (directory : Place) : Prop :=
  ∀ file ∈ Layer.files directory, (disk.readBytes file).isOk = false

def Layer.IsBlank (layer : Layer) : Prop :=
  layer.plain.rules = [] ∧ layer.git.rules = [] ∧ layer.excluded.rules = []

instance (disk : Disk) (directory : Place) : Decidable (disk.HasNoRules directory) :=
  inferInstanceAs (Decidable (∀ file ∈ Layer.files directory, _))

theorem Layer.readFile_of_not_isOk {disk : Disk} {file : Path}
    (h : (disk.readBytes file).isOk = false) : Layer.readFile disk file = {} := by
  rw [readFile]
  cases hread : disk.readBytes file with
  | error e => rfl
  | ok bytes =>
      rw [hread] at h
      cases h

theorem Disk.HasNoRules.isBlank {disk : Disk} {directory : Place}
    (h : disk.HasNoRules directory) : (Layer.ofDirectory disk directory).IsBlank := by
  have hfile : ∀ name ∈ [[".ignore"], [".gitignore"], [".git", "info", "exclude"]],
      (Layer.readFile disk (Place.toPath (directory ++ name))).rules = [] := by
    intro name hname
    rw [Layer.readFile_of_not_isOk (h _ (List.mem_map_of_mem hname))]
  exact ⟨hfile _ (by simp), hfile _ (by simp), hfile _ (by simp)⟩

theorem isIgnored_of_isBlank {layers : List Layer} (h : ∀ layer ∈ layers, layer.IsBlank)
    (name : String) (isDirectory : Bool) : isIgnored layers name isDirectory = false := by
  have hask : ∀ (asked : List Layer) (file : Layer → IgnoreFile), asked ⊆ layers →
      (∀ layer ∈ layers, (file layer).rules = []) →
      asked.findSome? (fun layer => (file layer).verdict? (layer.pathTo name) isDirectory)
        = none := by
    intro asked file hasked hfile
    rw [List.findSome?_eq_none_iff]
    intro layer hlayer
    rw [IgnoreFile.verdict?, hfile layer (hasked hlayer)]
    rfl
  -- Whether a repository is there does not matter: its layers are some of the given ones.
  have hrepository : repositoryLayers layers ⊆ layers := by
    unfold repositoryLayers
    split
    · refine List.append_subset.mpr ⟨(List.takeWhile_sublist _).subset, fun layer hlayer => ?_⟩
      exact List.mem_of_find?_eq_some (Option.mem_toList.mp hlayer)
    · exact List.nil_subset _
  have hplain := hask _ Layer.plain (List.Subset.refl _) fun layer hl => (h layer hl).1
  have hgit := hask _ Layer.git hrepository fun layer hl => (h layer hl).2.1
  have hexcluded := hask _ Layer.excluded hrepository fun layer hl => (h layer hl).2.2
  simp only [isIgnored, layersVerdict?, hplain, hgit, hexcluded]
  rfl

/-! ## Listings -/

mutual

theorem listNode_eq {disk : Disk} : ∀ {layers : List Layer} {place : Place} {tree : Node}
    (p : Path), tree.IsTree → (∀ layer ∈ layers, layer.IsBlank) →
    (∀ names entries, tree.at? names = some (.directory entries) →
      disk.HasNoRules (place ++ names)) →
    listNode disk layers place p tree = tree.places.map p.below
  | layers, place, .directory entries, p, h, hlayers, hrules => by
      -- The layer of the directory itself is new, the layers above it come along.
      have hblank := (hrules [] entries rfl).isBlank
      rw [List.append_nil] at hblank
      have hentries : ∀ name child, (name, child) ∈ entries → child.IsTree ∧
          ∀ names inner, child.at? names = some (.directory inner) →
            disk.HasNoRules (place ++ name :: names) :=
        fun name child hchild => ⟨h.child hchild, fun names inner hinner =>
          hrules _ inner ((Node.at?_directory_cons h).mpr ⟨child, hchild, hinner⟩)⟩
      rw [listNode, Node.places, List.map_cons, Path.below_nil,
        listEntries_eq p (List.forall_mem_cons.mpr ⟨hblank, hlayers⟩) hentries]
  | _, _, .file _, p, _, _, _ | _, _, .link _, p, _, _, _ => by
      simp [listNode, Node.places]

theorem listEntries_eq {disk : Disk} : ∀ {layers : List Layer} {place : Place}
    {entries : List (String × Node)} (p : Path), (∀ layer ∈ layers, layer.IsBlank) →
    (∀ name child, (name, child) ∈ entries → child.IsTree ∧
      ∀ names inner, child.at? names = some (.directory inner) →
        disk.HasNoRules (place ++ name :: names)) →
    listEntries disk layers place p entries = (Node.placesOf entries).map p.below
  | _, _, [], _, _, _ => by simp [listEntries, Node.placesOf]
  | layers, place, (name, node) :: rest, p, hlayers, hentries => by
      have hdescend : ∀ layer ∈ layers.map (Layer.descend name), layer.IsBlank := by
        intro layer hlayer
        obtain ⟨outer, houter, rfl⟩ := List.mem_map.mp hlayer
        exact hlayers outer houter
      obtain ⟨htree, hrules⟩ := hentries name node List.mem_cons_self
      have hbelow : ∀ names inner, node.at? names = some (.directory inner) →
          disk.HasNoRules (place ++ [name] ++ names) := by
        intro names inner hinner
        rw [List.append_assoc]
        exact hrules names inner hinner
      rw [listEntries, Node.placesOf, List.map_append, List.map_map, listEntries_eq p hlayers
        fun name child hchild => hentries name child (List.mem_cons_of_mem _ hchild)]
      simp only [isIgnored_of_isBlank hlayers, Bool.false_eq_true, if_false,
        listNode_eq (p.join ⟨name⟩) htree hdescend hbelow]
      rfl

end

namespace Disk

variable {disk : Disk} {root : Path} {place : Place} {tree : Node}

/-- A path leads to a tree, and no ignore file can be read in the tree or above it. -/
structure Holds (disk : Disk) (root : Path) (place : Place) (tree : Node) : Prop where
  located : disk.locate root = .ok place
  found : disk.root.at? place = some tree
  isTree : tree.IsTree
  above : ∀ directory, directory <+: place → disk.HasNoRules directory
  below : ∀ names entries, tree.at? names = some (.directory entries) →
    disk.HasNoRules (place ++ names)

/-- **The listing of a directory is that of its tree.** -/
theorem Holds.listing (h : disk.Holds root place tree) :
    disk.listing root = tree.places.map root.below := by
  have habove : ∀ layer ∈ layersAbove disk place, layer.IsBlank := by
    intro layer hlayer
    obtain ⟨depth, -, rfl⟩ := List.mem_map.mp (List.mem_reverse.mp hlayer)
    exact (h.above _ (List.take_prefix depth place)).isBlank
  simp only [Disk.listing, h.located, h.found]
  exact listNode_eq root h.isTree habove h.below

theorem Holds.faultsAbove (h : disk.Holds root place tree) : faultsAbove disk place = [] := by
  refine List.flatMap_eq_nil_iff.mpr fun depth _ => List.flatMap_eq_nil_iff.mpr fun file hfile => ?_
  have hrules := h.above _ (List.take_prefix depth place)
  rw [Layer.readFile_of_not_isOk (hrules file hfile)]
  rfl

theorem Holds.node?_below (h : disk.Holds root place tree) {names : Place} {node : Node}
    (hnode : tree.at? names = some node) (hlink : ∀ target, node ≠ .link target) :
    disk.node? (root.below names) = some node :=
  Disk.node?_below h.located h.found (h.isTree.isName_of_at? hnode) hnode hlink

end Disk

end ModuleGraph
