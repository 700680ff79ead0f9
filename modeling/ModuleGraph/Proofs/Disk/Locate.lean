import ModuleGraph.Disk.Basic
import ModuleGraph.Proofs.Path.Rooted

set_option autoImplicit false

/-! # Where paths end

A path is followed piece by piece, and what stands behind some pieces is gone along from the
place where these end (`go_split`). So the entry of a directory is found behind every path that
leads to the directory (`Disk.locate_join`), however the path is spelled and whatever links are
on the way.
-/

namespace ModuleGraph

open ModuleGraph.Path

theorem Node.at?_append (node : Node) (front back : Place) :
    node.at? (front ++ back) = (node.at? front).bind fun child => child.at? back := by
  induction front generalizing node with
  | nil => rfl
  | cons name rest ih =>
      rw [List.cons_append, at?, at?]
      cases node.entries.lookup name with
      | none => rfl
      | some child => exact ih child

theorem Node.at?_append_of_at? {node child : Node} {front : Place}
    (h : node.at? front = some child) (back : Place) :
    node.at? (front ++ back) = child.at? back := by
  rw [at?_append, h, Option.bind_some]

/-! ## Pieces -/

section Pieces

variable {root : Node} {here place : Place} {front back : List String}

/-- The pieces of a path up to its first link, or with it. -/
theorem goWith_split {next : Place → List String → Except ReadError Place}
    (h : goWith root .follow next here (front ++ back) = .ok place) :
    (∃ mid, ∀ more,
        goWith root .follow next here (front ++ more) = goWith root .follow next mid more) ∨
      ∃ mid left, ∀ more,
        goWith root .follow next here (front ++ more) = next mid (left ++ more) := by
  -- Only the piece at hand decides what happens next: what follows it is never looked at, except
  -- when a link at the end may be kept, which is not so here.
  induction front generalizing here with
  | nil => exact Or.inl ⟨here, fun _ => rfl⟩
  | cons piece front ih =>
      simp only [List.cons_append, goWith] at h ⊢
      split at h
      · split at h
        · rename_i hstay
          simp only [if_pos hstay]
          exact ih h
        · rename_i hstay
          simp only [if_neg hstay]
          split at h
          · rename_i hup
            simp only [if_pos hup]
            exact ih h
          · rename_i hup
            simp only [if_neg hup]
            split at h
            · cases h
            · rename_i target _
              refine Or.inr ⟨if target.isAbsolute then [] else here, target.pieces ++ front, ?_⟩
              simp
            · exact ih h
      · cases h
      · cases h

/-- **What is behind some pieces of a path is gone along from where they end**, with as many
links as are left. -/
theorem go_split {links : Nat} (h : go root .follow links here (front ++ back) = .ok place) :
    ∃ left mid, ∀ more,
      go root .follow links here (front ++ more) = go root .follow left mid more := by
  induction links generalizing here front with
  | zero =>
      rcases goWith_split h with ⟨mid, hmid⟩ | ⟨mid, rest, hnext⟩
      · exact ⟨0, mid, hmid⟩
      · -- No link may be followed any more, so this is no way that ends anywhere.
        have hfail := hnext back
        rw [go] at h
        rw [h] at hfail
        cases hfail
  | succ links ih =>
      rcases goWith_split h with ⟨mid, hmid⟩ | ⟨mid, rest, hnext⟩
      · exact ⟨links + 1, mid, hmid⟩
      · have hback := hnext back
        rw [go] at h
        rw [h] at hback
        obtain ⟨left, place', hleft⟩ := ih hback.symm
        exact ⟨left, place', fun more => (hnext more).trans (hleft more)⟩

theorem go_nil (root : Node) (last : LastLink) (links : Nat) (here : Place) :
    go root last links here [] = .ok here := by
  cases links <;> rfl

theorem go_empty {links : Nat} (h : go root .follow links here [""] = .ok place) :
    place = here := by
  have hstay : ∀ next, goWith root .follow next here [""] = .ok place → place = here := by
    intro next h
    rw [goWith] at h
    split at h
    · rw [if_pos (Or.inl rfl), goWith] at h
      exact (Except.ok.inj h).symm
    · cases h
    · cases h
  cases links <;> exact hstay _ h

theorem go_entry {entries : List (String × Node)} {name : String} {child : Node} {links : Nat}
    (hhere : root.at? here = some (.directory entries)) (hname : IsName name.toList)
    (hchild : entries.lookup name = some child) (hlink : ∀ target, child ≠ .link target) :
    go root .follow links here [name] = .ok (here ++ [name]) := by
  obtain ⟨hempty, -, hdot, hup⟩ := hname
  have hstay : ¬(name = "" ∨ name = ".") := by
    rintro (rfl | rfl)
    · exact hempty rfl
    · exact hdot rfl
  have hdown : name ≠ ".." := by
    rintro rfl
    exact hup rfl
  have hstep : ∀ next, goWith root .follow next here [name] = .ok (here ++ [name]) := by
    intro next
    simp only [goWith, hhere, if_neg hstay, if_neg hdown, hchild]
  cases links <;> exact hstep _

end Pieces

/-! ## Entries of a directory -/

namespace Path

/-- The path of what is below a directory at a place. -/
def below (p : Path) (names : Place) : Path := names.foldl (fun q name => q.join ⟨name⟩) p

@[simp] theorem below_nil (p : Path) : p.below [] = p := rfl

@[simp] theorem below_cons (p : Path) (name : String) (names : Place) :
    p.below (name :: names) = (p.join ⟨name⟩).below names := rfl

/-- A name is written behind a slash, which may be there already. -/
theorem exists_joinText_name {base name : List Char} (hbase : base ≠ []) (hname : IsName name) :
    ∃ front, (base = front ∨ base = front ++ ['/']) ∧
      joinText base name = front ++ '/' :: name := by
  by_cases hlast : base.getLast? = some '/'
  · obtain ⟨front, rfl⟩ := List.getLast?_eq_some_iff.mp hlast
    refine ⟨front, Or.inr rfl, ?_⟩
    rw [joinText]
    · rw [if_pos (Or.inr hlast), List.append_assoc, List.singleton_append]
    · rintro rest rfl
      exact hname.2.1 List.mem_cons_self
  · exact ⟨base, Or.inl rfl, joinText_name hname hbase hlast⟩

theorem toList_text_ne_nil {p : Path} (hp : p.text ≠ "") : p.text.toList ≠ [] :=
  fun h => hp (String.toList_inj.mp h)

theorem join_text_ne {p : Path} (hp : p.text ≠ "") (q : Path) : (p.join q).text ≠ "" := by
  intro h
  have hnil := congrArg String.toList h
  rw [join, String.toList_ofList] at hnil
  exact joinText_ne_nil q.text.toList (toList_text_ne_nil hp) hnil

theorem isAbsolute_join_name {p : Path} (hp : p.text ≠ "") {name : String}
    (hname : IsName name.toList) : (p.join ⟨name⟩).isAbsolute = p.isAbsolute := by
  have hne := toList_text_ne_nil hp
  obtain ⟨front, hbase, hjoin⟩ := exists_joinText_name hne hname
  rw [Bool.eq_iff_iff, isAbsolute_iff_head?, isAbsolute_iff_head?, join, String.toList_ofList,
    hjoin]
  cases front with
  | nil =>
      rcases hbase with hbase | hbase
      · exact absurd hbase hne
      · rw [hbase]
        rfl
  | cons c front => rcases hbase with hbase | hbase <;> rw [hbase] <;> rfl

theorem exists_pieces_join {p : Path} (hp : p.text ≠ "") {name : String}
    (hname : IsName name.toList) :
    ∃ front, (p.pieces = front ∨ p.pieces = front ++ [""]) ∧
      (p.join ⟨name⟩).pieces = front ++ [name] := by
  obtain ⟨front, hbase, hjoin⟩ := exists_joinText_name (toList_text_ne_nil hp) hname
  refine ⟨(splitSlash front).map String.ofList, ?_, ?_⟩
  · rcases hbase with hbase | hbase
    · exact Or.inl (by rw [pieces, hbase])
    · exact Or.inr (by rw [pieces, hbase, splitSlash_append_slash, List.map_append]; rfl)
  · rw [pieces, join, String.toList_ofList, hjoin, splitSlash_append_slash,
      splitSlash_of_not_mem hname.2.1, List.map_append, List.map_singleton, String.ofList_toList]

end Path

namespace Disk

variable {disk : Disk} {p : Path} {place : Place}

theorem text_ne_of_locate (h : disk.locate p = .ok place) : p.text ≠ "" := by
  intro htext
  rw [locate, locateLast, if_pos htext] at h
  cases h

theorem locate_join (h : disk.locate p = .ok place) {name : String} (hname : IsName name.toList) :
    ∃ links, disk.locate (p.join ⟨name⟩) = go disk.root .follow links place [name] := by
  have htext := text_ne_of_locate h
  obtain ⟨front, hpieces, hjoin⟩ := exists_pieces_join htext hname
  rw [locate, locateLast, if_neg htext] at h
  obtain ⟨back, hback, hend⟩ : ∃ back, p.pieces = front ++ back ∧ (back = [] ∨ back = [""]) := by
    rcases hpieces with hpieces | hpieces
    · exact ⟨[], by rw [List.append_nil, hpieces], Or.inl rfl⟩
    · exact ⟨[""], hpieces, Or.inr rfl⟩
  rw [hback] at h
  obtain ⟨left, mid, hmid⟩ := go_split h
  -- A slash at the end of the path adds an empty piece, which stays where it is.
  have hplace : place = mid := by
    rw [hmid back] at h
    rcases hend with rfl | rfl
    · rw [go_nil] at h
      exact (Except.ok.inj h).symm
    · exact go_empty h
  refine ⟨left, ?_⟩
  rw [locate, locateLast, if_neg (join_text_ne htext _), isAbsolute_join_name htext hname, hjoin,
    hmid, hplace]

/-- **An entry of a directory is found behind every path of the directory.** -/
theorem locate_below {tree node : Node} {names : Place} (h : disk.locate p = .ok place)
    (htree : disk.root.at? place = some tree) (hnames : ∀ name ∈ names, IsName name.toList)
    (hnode : tree.at? names = some node) (hlink : ∀ target, node ≠ .link target) :
    disk.locate (p.below names) = .ok (place ++ names) := by
  induction names generalizing p place tree with
  | nil => rw [List.append_nil, below_nil, h]
  | cons name rest ih =>
      rw [List.forall_mem_cons] at hnames
      cases tree with
      | file bytes => cases hnode
      | link target => cases hnode
      | directory entries =>
          rw [Node.at?, Node.entries] at hnode
          cases hchild : entries.lookup name with
          | none =>
              rw [hchild] at hnode
              cases hnode
          | some child =>
              rw [hchild] at hnode
              -- A link has no entries, so it is the last one on the way.
              have hstep : ∀ target, child ≠ .link target := by
                rintro target rfl
                cases rest with
                | nil => exact hlink target (Option.some.inj hnode).symm
                | cons _ _ => cases hnode
              obtain ⟨links, hjoin⟩ := locate_join h hnames.1
              rw [go_entry htree hnames.1 hchild hstep] at hjoin
              have hat : disk.root.at? (place ++ [name]) = some child := by
                rw [Node.at?_append_of_at? htree, Node.at?, Node.entries, hchild]
                rfl
              rw [below_cons, ih hjoin hat hnames.2 hnode, List.append_assoc, List.singleton_append]

theorem node?_below {tree node : Node} {names : Place} (h : disk.locate p = .ok place)
    (htree : disk.root.at? place = some tree) (hnames : ∀ name ∈ names, IsName name.toList)
    (hnode : tree.at? names = some node) (hlink : ∀ target, node ≠ .link target) :
    disk.node? (p.below names) = some node := by
  rw [node?, locate_below h htree hnames hnode hlink]
  exact (Node.at?_append_of_at? htree names).trans hnode

end Disk

end ModuleGraph
