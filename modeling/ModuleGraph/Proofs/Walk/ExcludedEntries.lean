import ModuleGraph.Proofs.Path.Order
import ModuleGraph.Proofs.Path.Rooted
import ModuleGraph.Proofs.Walk.Narrowing

set_option autoImplicit false

/-! # Entries that are excluded by name

An exclude pattern without `*` names one file, and an entry names one file too. The two are read
in different ways: an entry is cleaned, while an absolute pattern stays as it is written and is
compared component by component, and a relative pattern is put behind the working directory and
then read like any other pattern. `Path.NamesItself` says when both readings of one path agree.
Where they do, a walk from an entry that is excluded under its own name reads nothing
(`Walker.walk_of_excluded`).
-/

namespace ModuleGraph

/-! ## Exact patterns -/

/-- A path without `*` that stands for the same file as an entry and as an exclude pattern: it is
absolute and has no `..`, or it is relative and its file has no `*` in its path. -/
def Path.NamesItself (p cwd : Path) : Prop :=
  (p.isAbsolute = true → .up ∉ p.components) ∧
    (p.isAbsolute = false → '*' ∉ (p.absolutize cwd).text.toList)

namespace Exclude

variable {pattern : String} {cwd p q : Path}

theorem anchor_of_isAbsolute (h : p.isAbsolute = true) : anchor cwd p.text = p.text := by
  unfold anchor
  rw [if_pos (by simp [h])]

/-- A relative pattern is read from the directory as an entry is. -/
theorem anchor_of_relative (hrelative : p.isAbsolute = false) (hstar : '*' ∉ p.text.toList) :
    anchor cwd p.text = (p.absolutize cwd).text := by
  have hprefix : ['*', '*'].isPrefixOf p.text.toList = false := by
    rw [← Bool.not_eq_true, List.isPrefixOf_iff_prefix]
    intro hpre
    exact hstar (hpre.mem (by simp))
  unfold anchor
  rw [if_neg (by simp [hrelative, hprefix]), isGlob_eq_false hstar, if_neg (by simp),
    Path.absolutize, if_neg (by simp [hrelative])]

/-- The filter of an absolute pattern compares components with those that are written there. -/
theorem excludes_absolutize_iff (habs : p.isAbsolute = true) :
    excludes ⟨[p], []⟩ (p.absolutize cwd) = true ↔ .up ∉ p.components := by
  rw [excludes_exact, Path.same_iff, Path.absolutize, if_pos habs,
    Path.components_clean_eq_iff habs]

theorem compileAt_of_isAbsolute (cwd : Path) (habs : p.isAbsolute = true) (hstar : '*' ∉ p.text.toList) :
    compileAt cwd [p.text] = .ok ⟨[p], []⟩ := by
  rw [compileAt, List.map_singleton, anchor_of_isAbsolute habs, compile_exact hstar]

theorem compileAt_of_relative (hrelative : p.isAbsolute = false) (hstar : '*' ∉ p.text.toList)
    (hfile : '*' ∉ (p.absolutize cwd).text.toList) :
    compileAt cwd [p.text] = .ok ⟨[p.absolutize cwd], []⟩ := by
  rw [compileAt, List.map_singleton, anchor_of_relative hrelative hstar, compile_exact hfile]

/-- A path that names itself excludes the file that it names and no other. -/
theorem exists_compileAt_exact (hstar : '*' ∉ p.text.toList) (h : p.NamesItself cwd) :
    ∃ filter, compileAt cwd [p.text] = .ok filter ∧
      ∀ q, filter.excludes q = true ↔ q.same (p.absolutize cwd) = true := by
  cases habs : p.isAbsolute with
  | false =>
      exact ⟨_, compileAt_of_relative habs hstar (h.2 habs), fun q => excludes_exact⟩
  | true =>
      refine ⟨_, compileAt_of_isAbsolute cwd habs hstar, fun q => ?_⟩
      have hcomponents := (Path.components_clean_eq_iff habs).mpr (h.1 habs)
      rw [excludes_exact, Path.same_iff, Path.same_iff, Path.absolutize, if_pos habs, hcomponents]

/-- More patterns exclude the file too. -/
theorem excludes_of_mem {filter : Exclude} {patterns : List String}
    (hcompile : compileAt cwd patterns = .ok filter) (hmem : p.text ∈ patterns)
    (hstar : '*' ∉ p.text.toList) (h : p.NamesItself cwd) :
    filter.excludes (p.absolutize cwd) = true := by
  obtain ⟨alone, halone, hexcludes⟩ := exists_compileAt_exact hstar h
  have hsub : [p.text] ⊆ patterns := by simpa using hmem
  exact excludes_compileAt_mono hsub halone hcompile ((hexcludes _).mpr (Path.same_refl _))

end Exclude

/-! ## Walks -/

namespace Walker

variable {w : Walker} {p cwd : Path}

/-- **A walk from one excluded entry asks nothing and finds nothing.** -/
theorem walk_of_excluded (hfiles : w.options.files = [p])
    (h : w.exclude.excludes (p.absolutize w.cwd) = true) (budget : Nat) :
    w.walk budget = some ⟨[], .ok {}⟩ := by
  have hpass : w.Passes {} (p.absolutize w.cwd) := Or.inr h
  have hentry : w.walkEntry budget [] {} p = some ⟨[], .ok {}⟩ := by
    unfold walkEntry
    split
    · cases budget with
      | zero => exact drainWith_of_passes hpass
      | succ budget => exact drainWith_of_passes hpass
    · exact drainWith_of_passes hpass
  rw [walk, hfiles, walkEntries, hentry]
  rfl

/-- A walk from an entry that is not excluded reads it. -/
theorem read_mem_events {budget : Nat} {run : Run} (hfiles : w.options.files = [p])
    (h : w.exclude.excludes (p.absolutize w.cwd) = false) (hrun : w.walk budget = some run) :
    .read (p.absolutize w.cwd) ∈ run.events := by
  have hsearch := search_of_walk hrun
  rw [starts, hfiles, List.map_singleton] at hsearch
  have hnew : ¬w.Passes {} (p.absolutize w.cwd) := by
    rintro (hdone | hexcluded)
    · cases hdone
    · rw [h] at hexcluded
      cases hexcluded
  have hread : .read (p.absolutize w.cwd) ∈ w.eventsOf (p.absolutize w.cwd) :=
    w.read_mem_eventsOf _
  obtain ⟨events, result⟩ := run
  cases hsearch with
  | skip hpass _ => exact absurd hpass hnew
  | stop _ _ => exact hread
  | fail _ _ _ => exact List.mem_append_left _ hread
  | go _ _ _ _ => exact List.mem_append_left _ hread

/-- **An entry that is excluded under its own name.** A path without `*` excludes the file that it
names as an entry, and no other, where both readings of it agree; a walk from it that has it among
its exclude patterns then asks nothing of its host and finds the empty graph. An absolute path
with a `..` excludes another path instead, and the file is read. -/
theorem exact_pattern_excludes_entry (hstar : '*' ∉ p.text.toList) :
    (p.NamesItself cwd →
      (∃ filter, Exclude.compileAt cwd [p.text] = .ok filter ∧
        ∀ q, filter.excludes q = true ↔ q.same (p.absolutize cwd) = true) ∧
      ∀ host options w, create host options cwd = .ok w → options.files = [p] →
        p.text ∈ options.exclude →
          ∀ budget, ∃ s, w.walk budget = some ⟨[], .ok s⟩ ∧ s.toGraph = {}) ∧
    (p.isAbsolute = true → .up ∈ p.components →
      (∃ filter, Exclude.compileAt cwd [p.text] = .ok filter ∧
        filter.excludes (p.absolutize cwd) = false) ∧
      ∀ host options, options.files = [p] → options.exclude = [p.text] →
        ∃ w, create host options cwd = .ok w ∧
          ∀ budget run, w.walk budget = some run → .read (p.absolutize cwd) ∈ run.events) := by
  constructor
  · intro hnames
    refine ⟨Exclude.exists_compileAt_exact hstar hnames, ?_⟩
    intro host options w hcreate hfiles hmem budget
    obtain ⟨exclude, hexclude, rfl⟩ := create_eq_ok_iff.mp hcreate
    have hexcluded := Exclude.excludes_of_mem hexclude hmem hstar hnames
    exact ⟨{}, walk_of_excluded hfiles hexcluded budget, rfl⟩
  · intro habs hup
    have hcompile := Exclude.compileAt_of_isAbsolute cwd habs hstar
    have hkept : Exclude.excludes ⟨[p], []⟩ (p.absolutize cwd) = false := by
      rw [← Bool.not_eq_true, Exclude.excludes_absolutize_iff habs]
      simpa using hup
    refine ⟨⟨_, hcompile, hkept⟩, ?_⟩
    intro host options hfiles hexclude
    refine ⟨⟨host, options, ⟨[p], []⟩, cwd⟩, ?_, ?_⟩
    · rw [create, hexclude, hcompile]
      rfl
    · intro budget run hrun
      exact read_mem_events (w := ⟨host, options, ⟨[p], []⟩, cwd⟩) hfiles hkept hrun

/-- A roundabout name of a file in `/src` is excluded together with another file. -/
theorem exact_pattern_excludes_entry_sample :
    ∃ w s, create Host.sample
        { files := [⟨"./b/..//a.js"⟩], exclude := ["c.js", "./b/..//a.js"] } ⟨"/src"⟩ = .ok w ∧
      w.walk 0 = some ⟨[], .ok s⟩ ∧ s.toGraph = {} := by
  have hnames : Path.NamesItself ⟨"./b/..//a.js"⟩ ⟨"/src"⟩ :=
    ⟨fun habs => absurd habs (by decide), fun _ => by decide⟩
  have hwalk := ((exact_pattern_excludes_entry (by decide)).1 hnames).2
  obtain ⟨s, hrun, hgraph⟩ := hwalk Host.sample
    { files := [⟨"./b/..//a.js"⟩], exclude := ["c.js", "./b/..//a.js"] } _ rfl rfl (by simp) 0
  exact ⟨_, s, rfl, hrun, hgraph⟩

/-- Exact patterns that miss the entry they name: one because of its `..`, one because of a
working directory that reads as a glob. -/
theorem exact_pattern_misses_entry :
    (Exclude.compileAt ⟨"/repo"⟩ ["/repo/src/../a.js"]).toOption.map
      (·.excludes (Path.absolutize ⟨"/repo/src/../a.js"⟩ ⟨"/repo"⟩)) = some false ∧
    (Exclude.compileAt ⟨"/work/*[draft]"⟩ ["a.js"]).toOption.map
      (·.excludes (Path.absolutize ⟨"a.js"⟩ ⟨"/work/*[draft]"⟩)) = some false := by
  decide +kernel

end Walker

end ModuleGraph
