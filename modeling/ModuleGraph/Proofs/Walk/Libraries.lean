import ModuleGraph.Proofs.Path.Relative
import ModuleGraph.Proofs.Walk.Locality

set_option autoImplicit false

/-! # Library code is never opened

The library test looks at the way from the importing file and not at the target itself, so one
target can be library code to one file and not to another. A resolver that looks packages up in the
library directories above the importing file (`LooksUp`) leaves no such doubt: as long as the
importing file lies outside of all library directories, the way to a package turns off into a
library directory (`LooksUp.isLibrary`). So whatever a walk comes to lies outside of them, from its
entries on (`Reaches.outside`).
-/

namespace ModuleGraph

variable {dirs : List String} {importer target : Path}

/-- `p.PassesThrough dirs`: one of the given directories is a component of the path. -/
def Path.PassesThrough (p : Path) (dirs : List String) : Prop :=
  ∃ c ∈ p.components, c.text ∈ dirs

instance (p : Path) (dirs : List String) : Decidable (p.PassesThrough dirs) :=
  inferInstanceAs (Decidable (∃ c ∈ p.components, c.text ∈ dirs))

/-- `LooksUp dirs importer target`: what a lookup from the file `importer` leads to. It is a
built-in module, a file outside of all library directories, or something below a library directory
that stands next to the file or above it. -/
inductive LooksUp (dirs : List String) (importer target : Path) : Prop
  | builtIn (h : target.isAbsolute = false)
  | project (h : ¬ target.PassesThrough dirs)
  | package {above below rest : List Component} {c : Component} {dir : String} (hdir : dir ∈ dirs)
      (himporter : importer.components = above ++ c :: below)
      (htarget : target.components = above ++ .name dir :: rest)

/-- Seen from a file outside of all library directories, what a lookup finds inside of them is
library code. -/
theorem LooksUp.isLibrary (h : LooksUp dirs importer target)
    (himporter : ¬ importer.PassesThrough dirs) (htarget : target.PassesThrough dirs) :
    importer.isLibrary target dirs = true := by
  cases h with
  | builtIn h => exact Path.isLibrary_iff.mpr (Or.inl h)
  | project h => exact absurd htarget h
  | @package above below rest c dir hdir habove hlib =>
      refine Path.isLibrary_of_turn hdir hlib habove ?_
      -- The importing file does not enter the library directory itself.
      rintro rfl
      refine himporter ⟨.name dir, ?_, hdir⟩
      rw [habove]
      exact List.mem_append_right _ List.mem_cons_self

namespace Walker

variable {w : Walker} {s : WalkState} {f p : Path} {c : Progress} {kind : Path → Prop}

/-- Whatever is imported was found by a lookup from the importing file. -/
def ResolvesByLookup (w : Walker) : Prop :=
  ∀ file facts specifier names target, w.HasFacts file facts →
    (specifier, names) ∈ facts.imports →
    w.host.resolve specifier file.directory = .ok target →
    LooksUp w.options.libraryDirs file target

theorem Imports.not_passesThrough (hlookup : w.ResolvesByLookup) (h : w.Imports f p)
    (hf : ¬ f.PassesThrough w.options.libraryDirs) : ¬ p.PassesThrough w.options.libraryDirs := by
  obtain ⟨facts, specifier, names, hfacts, himports, hresolve, hlib⟩ := h
  intro hp
  have hlooks := hlookup f facts specifier names p hfacts himports hresolve
  rw [hlooks.isLibrary hf hp] at hlib
  cases hlib

/-! ## What local imports keep -/

section Keeps

variable (hstarts : ∀ p ∈ w.starts, kind p) (himports : ∀ f p, kind f → w.Imports f p → kind p)

include hstarts himports

theorem Tracks.keeps (h : w.Tracks c) (hlists : ∀ p, c.state.Lists p → kind p) :
    ∀ p ∈ c.waiting, kind p := by
  intro p hp
  rcases h.waiting p hp with hstart | ⟨f, hf, himport⟩
  · exact hstarts p hstart
  · exact himports f p (hlists f (Or.inl hf)) himport

/-- What holds of the entries and is kept by local imports holds of every file that waits or is
listed. -/
theorem Reaches.keeps (h : w.Reaches c) :
    (∀ p ∈ c.waiting, kind p) ∧ ∀ p, c.state.Lists p → kind p := by
  have hlists : w.Tracks c ∧ ∀ p, c.state.Lists p → kind p := by
    refine h.induction (P := fun c => w.Tracks c ∧ ∀ p, c.state.Lists p → kind p)
      ⟨Reaches.tracks .refl, fun _ hp => absurd hp WalkState.not_lists_empty⟩ ?_
    rintro c c' ⟨hc, hlists⟩ hturn
    refine ⟨hc.turn hturn, fun p hp => ?_⟩
    cases hturn with
    | enter => exact hlists p hp
    | skip hstep =>
        rw [(passes_of_step hstep).2] at hp
        exact hlists p hp
    | go hstep =>
        -- The file that is taken waited before.
        obtain ⟨hnew, htakes, -, -⟩ := takes_of_step hstep
        rcases (htakes.lists_iff hnew p).mp hp with rfl | hold
        · exact hc.keeps hstarts himports hlists p List.mem_cons_self
        · exact hlists p hold
  exact ⟨hlists.1.keeps hstarts himports hlists.2, hlists.2⟩

end Keeps

/-- **No walk comes to library code.** -/
theorem Reaches.outside (hstarts : ∀ p ∈ w.starts, ¬ p.PassesThrough w.options.libraryDirs)
    (hlookup : w.ResolvesByLookup) (h : w.Reaches c) :
    (∀ p ∈ c.waiting, ¬ p.PassesThrough w.options.libraryDirs) ∧
      ∀ p, c.state.Lists p → ¬ p.PassesThrough w.options.libraryDirs :=
  h.keeps hstarts fun _ _ hf himports => himports.not_passesThrough hlookup hf

/-! ## Walks -/

/-- What a loaded file takes from a path is in the imports of the graph, library code or not. -/
theorem Merged.exists_imports (hs : w.Merged s) (hf : f ∈ s.loaded) {names : List String}
    (htakes : w.TakesFrom f p names) :
    ∃ all, s.imports.get? p = some all ∧ names ⊆ all := by
  obtain ⟨all, hall⟩ := (hs.imports.exists_get? p).mpr ⟨names, f, hf, htakes⟩
  refine ⟨all, hall, fun name hname => ?_⟩
  exact (hs.imports.mem_iff p all hall name).mpr ⟨names, ⟨f, hf, htakes⟩, hname⟩

/-- **Library code is never opened.** From entries outside of all library directories, and with a
resolver that looks packages up, no walk ever reads or loads a file inside of them, whether or not
it comes to an end. Their names are taken all the same: where a walk succeeds, all that its loaded
files resolve is in the imports. -/
theorem libraries_stay_closed
    (hstarts : ∀ p ∈ w.starts, ¬ p.PassesThrough w.options.libraryDirs)
    (hlookup : w.ResolvesByLookup) :
    (∀ c, w.Reaches c →
      (∀ p, w.ReadsAt c p → ¬ p.PassesThrough w.options.libraryDirs) ∧
      ∀ p, c.state.Lists p → ¬ p.PassesThrough w.options.libraryDirs) ∧
    ∀ budget run, w.walk budget = some run →
      (∀ p ∈ run.reads, ¬ p.PassesThrough w.options.libraryDirs) ∧
      ∀ s, run.result = .ok s →
        (∀ p ∈ s.toGraph.loadedFiles, ¬ p.PassesThrough w.options.libraryDirs) ∧
        ∀ f ∈ s.toGraph.loadedFiles, ∀ p names, w.TakesFrom f p names →
          ∃ all, s.toGraph.imports.get? p = some all ∧ names ⊆ all := by
  have hreads : ∀ c, w.Reaches c → ∀ p, w.ReadsAt c p →
      ¬ p.PassesThrough w.options.libraryDirs := by
    rintro c hc p ⟨⟨waiting, hwaiting⟩, -⟩
    refine (hc.outside hstarts hlookup).1 p ?_
    rw [hwaiting]
    exact List.mem_cons_self
  refine ⟨fun c hc => ⟨hreads c hc, (hc.outside hstarts hlookup).2⟩,
    fun budget run hwalk => ⟨fun p hp => ?_, fun s hok => ?_⟩⟩
  · obtain ⟨c, hc, hreadsAt⟩ := (mem_reads_iff_opens hwalk).mp hp
    exact hreads c hc p hreadsAt
  · obtain ⟨last, hlast, hend⟩ := turns_of_walk hwalk
    rw [hok] at hend
    obtain rfl : last = ⟨run.events, s, [], []⟩ := hend
    have hsearch := search_of_walk hwalk
    rw [hok] at hsearch
    have hmerged := hsearch.merged w.merged_empty
    exact ⟨fun p hp => (hlast.outside hstarts hlookup).2 p (Or.inl hp),
      fun f hf p names htakes => hmerged.exists_imports hf htakes⟩

/-- A project with a package next to it. Both its files import the package, a file of the project
and a built-in module; the package itself cannot be read. -/
def samplePackaged : Walker where
  host :=
    { read := fun file =>
        if file.text ∈ ["/src/a.js", "/src/lib/b.js"] then .ok "" else .error .notFound
      parse := fun _ _ => .ok { imports := [("lodash", ["map"]), ("./lib/b", []), ("fs", ["*"])] }
      resolve := fun specifier _ =>
        if specifier = "lodash" then .ok ⟨"/src/node_modules/lodash.js"⟩
        else if specifier = "./lib/b" then .ok ⟨"/src/lib/b.js"⟩
        else .ok ⟨"fs"⟩ }
  options := { files := [⟨"a.js"⟩] }
  exclude := {}
  cwd := ⟨"/src"⟩

theorem resolvesByLookup_samplePackaged : samplePackaged.ResolvesByLookup := by
  rintro ⟨text⟩ facts specifier names target ⟨source, hread, -⟩ - hresolve
  have htext : text = "/src/a.js" ∨ text = "/src/lib/b.js" := by
    simp only [samplePackaged] at hread
    split at hread
    · rename_i hmem
      simpa using hmem
    · cases hread
  simp only [samplePackaged] at hresolve
  split at hresolve
  · cases hresolve
    -- Both files lie below `/src`, where the library directory is.
    obtain ⟨c, below, himporter⟩ : ∃ c below,
        Path.components ⟨text⟩ = [.root, .name "src"] ++ c :: below := by
      rcases htext with rfl | rfl
      · exact ⟨_, _, rfl⟩
      · exact ⟨_, _, rfl⟩
    exact .package List.mem_cons_self himporter rfl
  · split at hresolve
    · cases hresolve
      exact .project (by decide)
    · cases hresolve
      exact .builtIn rfl

/-- The package is imported and not read. -/
theorem libraries_stay_closed_sample : ∃ run s, samplePackaged.walk 2 = some run ∧
    run.result = .ok s ∧ run.reads = [⟨"/src/a.js"⟩, ⟨"/src/lib/b.js"⟩] ∧
    (∀ p ∈ run.reads, ¬ p.PassesThrough ["node_modules"]) ∧
    Path.PassesThrough ⟨"/src/node_modules/lodash.js"⟩ ["node_modules"] ∧
    ∃ all, s.toGraph.imports.get? ⟨"/src/node_modules/lodash.js"⟩ = some all ∧ "map" ∈ all := by
  obtain ⟨run, s, hwalk, hok, hreads, hloaded⟩ : ∃ run s, samplePackaged.walk 2 = some run ∧
      run.result = .ok s ∧ run.reads = [⟨"/src/a.js"⟩, ⟨"/src/lib/b.js"⟩] ∧
      ⟨"/src/a.js"⟩ ∈ s.toGraph.loadedFiles := ⟨_, _, rfl, rfl, rfl, List.mem_cons_self⟩
  have hstarts : ∀ p ∈ samplePackaged.starts,
      ¬ p.PassesThrough samplePackaged.options.libraryDirs := by decide
  obtain ⟨-, hruns⟩ := libraries_stay_closed hstarts resolvesByLookup_samplePackaged
  obtain ⟨hclosed, hgraph⟩ := hruns 2 run hwalk
  have htakes : samplePackaged.TakesFrom ⟨"/src/a.js"⟩ ⟨"/src/node_modules/lodash.js"⟩ ["map"] :=
    ⟨_, _, _, ⟨_, rfl, rfl⟩, List.mem_cons_self, rfl, rfl⟩
  obtain ⟨all, hall, hsub⟩ := (hgraph s hok).2 _ hloaded _ _ htakes
  exact ⟨run, s, hwalk, hok, hreads, hclosed, by decide, all, hall, hsub List.mem_cons_self⟩

end Walker

end ModuleGraph
