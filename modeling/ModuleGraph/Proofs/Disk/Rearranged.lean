import ModuleGraph.Proofs.Disk.Listing

set_option autoImplicit false

/-! # Entries in another order

The entries of a directory are a list, and nothing says in which order a host gives them. Two
trees are *rearranged* when they have the same places, with the same file or link at each of them
and with the same names in every directory (`Node.Rearranged`). A path is followed by looking names
up, never by their position, so it ends at the same place in both (`Disk.Rearranged.locate`), and
what is read there is the same.
-/

namespace ModuleGraph

open ModuleGraph.Path

/-! ## Trees -/

/-- Two nodes are alike by themselves, whatever is below them: directories have the same names, in
some order. -/
inductive Node.SameItem : Node → Node → Prop
  | file (bytes : ByteArray) : SameItem (.file bytes) (.file bytes)
  | link (target : Path) : SameItem (.link target) (.link target)
  | directory {entries entries' : List (String × Node)}
      (h : (entries.map Prod.fst).Perm (entries'.map Prod.fst)) :
      SameItem (.directory entries) (.directory entries')

/-- Two trees with the same nodes at the same places, up to the order of entries. -/
def Node.Rearranged (tree tree' : Node) : Prop :=
  ∀ place, Option.Rel SameItem (tree.at? place) (tree'.at? place)

namespace Node

variable {tree tree' : Node}

theorem SameItem.refl (node : Node) : SameItem node node := by
  cases node with
  | file bytes => exact .file bytes
  | link target => exact .link target
  | directory entries => exact .directory (.refl _)

theorem SameItem.symm {node node' : Node} (h : SameItem node node') : SameItem node' node := by
  cases h with
  | file bytes => exact .file bytes
  | link target => exact .link target
  | directory hnames => exact .directory hnames.symm

/-- Only directories can differ. -/
theorem SameItem.eq_or_directories {found found' : Option Node}
    (h : Option.Rel SameItem found found') : found = found' ∨
      ∃ entries entries', found = some (.directory entries) ∧ found' = some (.directory entries') := by
  cases h with
  | none => exact Or.inl rfl
  | some hitem =>
      cases hitem with
      | file bytes => exact Or.inl rfl
      | link target => exact Or.inl rfl
      | directory hnames => exact Or.inr ⟨_, _, rfl, rfl⟩

theorem Rearranged.refl (tree : Node) : tree.Rearranged tree := by
  intro place
  cases tree.at? place with
  | none => exact .none
  | some node => exact .some (.refl node)

theorem Rearranged.symm (h : tree.Rearranged tree') : tree'.Rearranged tree := by
  intro place
  have hrel := h place
  generalize tree.at? place = found at hrel ⊢
  generalize tree'.at? place = found' at hrel ⊢
  cases hrel with
  | none => exact .none
  | some hitem => exact .some hitem.symm

theorem Rearranged.exists_at? (h : tree.Rearranged tree') {place : Place} {node : Node}
    (hnode : tree.at? place = some node) :
    ∃ node', tree'.at? place = some node' ∧ SameItem node node' := by
  have hrel := h place
  rw [hnode] at hrel
  generalize tree'.at? place = found at hrel ⊢
  cases hrel with
  | some hitem => exact ⟨_, rfl, hitem⟩

/-- Rearranging a tree leaves its names as they are. -/
theorem Rearranged.isTree (h : tree.Rearranged tree') (htree : tree.IsTree) : tree'.IsTree := by
  intro place entries' hentries'
  obtain ⟨node, hnode, hitem⟩ := h.symm.exists_at? hentries'
  cases hitem with
  | directory hnames =>
      obtain ⟨hnodup, hisName⟩ := htree place _ hnode
      refine ⟨hnames.nodup_iff.mpr hnodup, fun entry' hentry' => ?_⟩
      obtain ⟨entry, hentry, hname⟩ :=
        List.mem_map.mp (hnames.subset (List.mem_map_of_mem hentry'))
      rw [← hname]
      exact hisName entry hentry

/-- A directory is rearranged when its entries are permuted and rearranged themselves. -/
theorem rearranged_directory {entries entries' : List (String × Node)}
    (hnodup : (entries.map Prod.fst).Nodup)
    (hnames : (entries.map Prod.fst).Perm (entries'.map Prod.fst))
    (hchildren : ∀ name child child', (name, child) ∈ entries → (name, child') ∈ entries' →
      child.Rearranged child') :
    (directory entries).Rearranged (directory entries') := by
  have hnodup' := hnames.nodup_iff.mp hnodup
  intro place
  cases place with
  | nil => exact .some (.directory hnames)
  | cons name rest =>
      rw [at?, at?, Node.entries, Node.entries]
      cases hchild : entries.lookup name with
      | none =>
          have habsent : entries'.lookup name = none := by
            rw [List.lookup_eq_none_iff] at hchild ⊢
            intro entry' hentry'
            have hmem := hnames.symm.subset (List.mem_map_of_mem hentry')
            obtain ⟨entry, hentry, hname⟩ := List.mem_map.mp hmem
            rw [← hname]
            exact hchild entry hentry
          rw [habsent]
          exact .none
      | some child =>
          have hmem := (lookup_eq_some_iff_mem hnodup name child).mp hchild
          have hname := hnames.subset (List.mem_map_of_mem hmem)
          obtain ⟨⟨_, child'⟩, hmem', rfl⟩ := List.mem_map.mp hname
          rw [(lookup_eq_some_iff_mem hnodup' _ child').mpr hmem']
          exact hchildren _ child child' hmem hmem' rest

theorem rearranged_of_perm {entries entries' : List (String × Node)}
    (hnodup : (entries.map Prod.fst).Nodup) (hperm : entries.Perm entries') :
    (directory entries).Rearranged (directory entries') := by
  refine rearranged_directory hnodup (hperm.map _) fun name child child' hchild hchild' => ?_
  have hsame : some child = some child' := by
    rw [← (lookup_eq_some_iff_mem hnodup name child).mpr hchild,
      (lookup_eq_some_iff_mem hnodup name child').mpr (hperm.mem_iff.mpr hchild')]
  rw [Option.some.inj hsame]
  exact .refl child'

end Node

/-! ## Following paths -/

section Pieces

variable {root root' : Node}

theorem Node.Rearranged.lookup (h : root.Rearranged root') {here : Place}
    {entries entries' : List (String × Node)} (hhere : root.at? here = some (.directory entries))
    (hhere' : root'.at? here = some (.directory entries')) (name : String) :
    Option.Rel Node.SameItem (entries.lookup name) (entries'.lookup name) := by
  have hentry : ∀ {node : Node} {inner : List (String × Node)},
      node.at? here = some (.directory inner) → node.at? (here ++ [name]) = inner.lookup name := by
    intro node inner hnode
    rw [Node.at?_append_of_at? hnode, Node.at?, Node.entries]
    cases inner.lookup name <;> rfl
  rw [← hentry hhere, ← hentry hhere']
  exact h (here ++ [name])

theorem goWith_rearranged (h : root.Rearranged root') (last : LastLink)
    (next : Place → List String → Except ReadError Place) (here : Place) (pieces : List String) :
    goWith root last next here pieces = goWith root' last next here pieces := by
  induction pieces generalizing here with
  | nil => rfl
  | cons piece rest ih =>
      rw [goWith, goWith]
      have hrel := h here
      generalize hhere : root.at? here = found at hrel
      generalize hhere' : root'.at? here = found' at hrel
      cases hrel with
      | none => rfl
      | some hitem =>
          cases hitem with
          | file bytes => rfl
          | link target => rfl
          | directory hnames =>
              -- The names are looked up, so that their order does not matter.
              have hchild := h.lookup hhere hhere' piece
              simp only [ih]
              generalize List.lookup piece _ = child at hchild
              generalize List.lookup piece _ = child' at hchild
              cases hchild with
              | none => rfl
              | some hinner => cases hinner <;> rfl

theorem go_rearranged (h : root.Rearranged root') (last : LastLink) (links : Nat) (here : Place)
    (pieces : List String) : go root last links here pieces = go root' last links here pieces := by
  induction links generalizing here pieces with
  | zero => exact goWith_rearranged h last _ here pieces
  | succ links ih =>
      have hnext : go root last links = go root' last links := by
        funext here pieces
        exact ih here pieces
      rw [go, go, hnext]
      exact goWith_rearranged h last _ here pieces

end Pieces

/-! ## Disks -/

/-- Two disks that differ in the order of the entries of their directories only. -/
structure Disk.Rearranged (disk disk' : Disk) : Prop where
  cwd : disk.cwd = disk'.cwd
  root : disk.root.Rearranged disk'.root

namespace Disk.Rearranged

variable {disk disk' : Disk}

theorem symm (h : disk.Rearranged disk') : disk'.Rearranged disk := ⟨h.cwd.symm, h.root.symm⟩

/-- **A path ends at the same place, whatever the order of entries is.** -/
theorem locate (h : disk.Rearranged disk') (p : Path) : disk.locate p = disk'.locate p := by
  rw [Disk.locate, Disk.locate, locateLast, locateLast, h.cwd,
    go_rearranged h.root .follow linkLimit]

theorem node? (h : disk.Rearranged disk') (p : Path) :
    Option.Rel Node.SameItem (disk.node? p) (disk'.node? p) := by
  rw [Disk.node?, Disk.node?, h.locate p]
  cases disk'.locate p with
  | error e => exact .none
  | ok place => exact h.root place

theorem isFile (h : disk.Rearranged disk') (p : Path) : disk.isFile p = disk'.isFile p := by
  rw [Disk.isFile, Disk.isFile]
  rcases Node.SameItem.eq_or_directories (h.node? p) with hsame | ⟨_, _, hnode, hnode'⟩
  · rw [hsame]
  · rw [hnode, hnode']

theorem isDirectory (h : disk.Rearranged disk') (p : Path) :
    disk.isDirectory p = disk'.isDirectory p := by
  rw [Disk.isDirectory, Disk.isDirectory]
  rcases Node.SameItem.eq_or_directories (h.node? p) with hsame | ⟨_, _, hnode, hnode'⟩
  · rw [hsame]
  · rw [hnode, hnode']

theorem readBytes (h : disk.Rearranged disk') (p : Path) :
    disk.readBytes p = disk'.readBytes p := by
  rw [Disk.readBytes, Disk.readBytes, h.locate p]
  cases disk'.locate p with
  | error e => rfl
  | ok place =>
      simp only
      rcases Node.SameItem.eq_or_directories (h.root place) with hsame | ⟨_, _, hnode, hnode'⟩
      · rw [hsame]
      · rw [hnode, hnode']

theorem hasNoRules (h : disk.Rearranged disk') {directory : Place}
    (hrules : disk.HasNoRules directory) : disk'.HasNoRules directory := by
  intro file hfile
  rw [← h.readBytes file]
  exact hrules file hfile

end Disk.Rearranged

end ModuleGraph
