import ModuleGraph.Proofs.Walk.Entries
import ModuleGraph.Proofs.Walk.Failure

set_option autoImplicit false

/-! # A file that does not parse is like a file without facts

A walk goes on after a file that does not parse and need not. To see that nothing else depends on
that file, two walks are run in step: in one of them the file does not parse, in the other one it
has another text, which parses and says nothing. Their states differ, since the file is unparsed in
the one and loaded in the other, but the same files are done (`Resembles`). So both walks pass over
the same files, read the same files and stop at the same file (`InStep.walk`), and their graphs
differ in that file and its line in the statistics only (`parse_failure_isolated`).
-/

namespace ModuleGraph

/-- The graph `g` is `g'` without the file `f`, statistics apart. -/
structure Graph.Without (g g' : Graph) (f : Path) : Prop where
  imports : g.imports = g'.imports
  loadedFiles : g.loadedFiles = g'.loadedFiles.filter (· ≠ f)
  exports : g.exports = g'.exports.filter (·.1 ≠ f)

namespace Walker

variable {w w' : Walker} {kind : Path → Prop} {R : WalkState → WalkState → Prop}
  {s s' t : WalkState} {file f g p : Path} {files reads : List Path} {events : List Event}
  {host' : Host} {reason : String}

/-! ## Two walks in step -/

/-- Both results are the same error, or they are related states. -/
inductive SameOutcome (R : WalkState → WalkState → Prop) :
    Except GraphError WalkState → Except GraphError WalkState → Prop
  | error (e : GraphError) : SameOutcome R (.error e) (.error e)
  | ok {s t : WalkState} (h : R s t) : SameOutcome R (.ok s) (.ok t)

/-- Both runs ask the same questions and come to the same outcome. -/
structure SameRun (R : WalkState → WalkState → Prop) (run run' : Run) : Prop where
  events : run.events = run'.events
  result : SameOutcome R run.result run'.result

inductive SameStep (kind : Path → Prop) (R : WalkState → WalkState → Prop) : Step → Step → Prop
  | skip {s t : WalkState} (h : R s t) : SameStep kind R (.skip s) (.skip t)
  | stop (events : List Event) {s t : WalkState} (h : R s t) (e : GraphError) :
      SameStep kind R (.stop events s e) (.stop events t e)
  | go {events : List Event} {s t : WalkState} {files : List Path} (h : R s t)
      (hfiles : ∀ f ∈ files, kind f) : SameStep kind R (.go events s files) (.go events t files)

/-- In related states the walkers do the same with each file of the kind, and they have the same
entries, which are of the kind. -/
structure InStep (w w' : Walker) (kind : Path → Prop) (R : WalkState → WalkState → Prop) :
    Prop where
  step : ∀ s t file, R s t → kind file → SameStep kind R (w.step s file) (w'.step t file)
  options : w'.options = w.options
  cwd : w'.cwd = w.cwd
  entry : ∀ entry : Path, kind (entry.absolutize w.cwd)

namespace InStep

theorem drainWith {next next' : List Event → WalkState → List Path → Option Run}
    (h : w.InStep w' kind R)
    (hnext : ∀ events s t files, R s t → (∀ f ∈ files, kind f) →
      Option.Rel (SameRun R) (next events s files) (next' events t files))
    (events : List Event) (hR : R s t) (hfiles : ∀ f ∈ files, kind f) :
    Option.Rel (SameRun R) (w.drainWith next events s files)
      (w'.drainWith next' events t files) := by
  induction files generalizing s t with
  | nil => exact .some ⟨rfl, .ok hR⟩
  | cons file rest ih =>
      have hrest : ∀ f ∈ rest, kind f := fun f hf => hfiles f (List.mem_cons_of_mem _ hf)
      have hstep := h.step s t file hR (hfiles file List.mem_cons_self)
      rw [Walker.drainWith, Walker.drainWith]
      generalize w.step s file = step, w'.step t file = step' at hstep
      cases hstep with
      | skip hR' => exact ih hR' hrest
      | stop more _ e => exact .some ⟨rfl, .error e⟩
      | go hR' hmore =>
          refine hnext _ _ _ _ hR' fun f hf => ?_
          rcases List.mem_append.mp hf with hf | hf
          · exact hmore f hf
          · exact hrest f hf

theorem drain (h : w.InStep w' kind R) (budget : Nat) (events : List Event) (hR : R s t)
    (hfiles : ∀ f ∈ files, kind f) :
    Option.Rel (SameRun R) (w.drain budget events s files) (w'.drain budget events t files) := by
  induction budget generalizing events s t files with
  | zero => exact h.drainWith (fun _ _ _ _ _ _ => .none) events hR hfiles
  | succ budget ih =>
      refine h.drainWith ?_ events hR hfiles
      intro events s t files hR hfiles
      exact ih events hR hfiles

theorem walkEntry (h : w.InStep w' kind R) (budget : Nat) (events : List Event) (hR : R s t)
    (entry : Path) :
    Option.Rel (SameRun R) (w.walkEntry budget events s entry)
      (w'.walkEntry budget events t entry) := by
  have hentry : ∀ f ∈ [entry.absolutize w.cwd], kind f := by
    intro f hf
    rw [List.mem_singleton.mp hf]
    exact h.entry entry
  unfold Walker.walkEntry
  rw [h.options, h.cwd]
  cases w.options.recurse with
  | true => exact h.drain budget events hR hentry
  | false =>
      refine h.drainWith ?_ events hR hentry
      intro events s t files hR _
      exact .some ⟨rfl, .ok hR⟩

theorem walkEntries (h : w.InStep w' kind R) (budget : Nat) (events : List Event) (hR : R s t)
    (entries : List Path) :
    Option.Rel (SameRun R) (w.walkEntries budget events s entries)
      (w'.walkEntries budget events t entries) := by
  induction entries generalizing events s t with
  | nil => exact .some ⟨rfl, .ok hR⟩
  | cons entry more ih =>
      have hentry := h.walkEntry budget events hR entry
      rw [Walker.walkEntries, Walker.walkEntries]
      generalize w.walkEntry budget events s entry = first,
        w'.walkEntry budget events t entry = first' at hentry
      cases hentry with
      | none => exact .none
      | @some run run' hrun =>
          obtain ⟨events₁, result⟩ := run
          obtain ⟨events₂, result'⟩ := run'
          obtain ⟨rfl, hresult⟩ := hrun
          cases hresult with
          | error e => exact .some ⟨rfl, .error e⟩
          | ok hR' => exact ih events₁ hR'

/-- **Walkers that do the same with each file do the same all along.** -/
theorem walk (h : w.InStep w' kind R) (hempty : R {} {}) (budget : Nat) :
    Option.Rel (SameRun R) (w.walk budget) (w'.walk budget) := by
  unfold Walker.walk
  rw [h.options]
  exact h.walkEntries budget [] hempty w.options.files

end InStep

/-! ## A file that is mended -/

/-- The same walk with another host. -/
def on (w : Walker) (host' : Host) : Walker := { w with host := host' }

/-- `w.Mends host' f reason`: the file `f` does not parse, for the given reason, and need not. In
`host'` it has another text, which parses and says nothing, and nothing else differs. Files are
compared in their normal form, in which a walk reads them, so that it does not matter whether the
other spellings of `f` have the old text or the new one. -/
structure Mends (w : Walker) (host' : Host) (f : Path) (reason : String) : Prop where
  unparsed : ∃ source, w.host.read f = .ok source ∧ w.host.parse f source = .error reason
  lenient : w.options.isStrict f = false
  empty : ∃ text, host'.read f = .ok text ∧ host'.parse f text = .ok {}
  read : ∀ p, p.IsClean → p ≠ f → host'.read p = w.host.read p
  parse : host'.parse = w.host.parse
  resolve : host'.resolve = w.host.resolve

/-- The states took the same names from the same files, and the same files are done. -/
structure Resembles (s t : WalkState) : Prop where
  imports : s.imports = t.imports
  isDone : ∀ p, s.isDone p = t.isDone p

theorem resembles_empty : Resembles {} {} := ⟨rfl, fun _ => rfl⟩

theorem Resembles.recordFailure (h : Resembles s t) (file : Path) (reason : String) :
    Resembles (s.recordFailure file reason) (t.recordFailure file reason) := by
  refine ⟨h.imports, fun p => ?_⟩
  rw [WalkState.isDone_recordFailure, WalkState.isDone_recordFailure, h.isDone]

theorem Resembles.merge (h : Resembles s t) (file : Path) (exports : List String)
    (imports : List (Path × List String)) :
    Resembles (s.merge file exports imports) (t.merge file exports imports) := by
  refine ⟨?_, fun p => ?_⟩
  · show imports.foldl WalkState.addImport s.imports = imports.foldl WalkState.addImport t.imports
    rw [h.imports]
  · rw [WalkState.isDone_merge, WalkState.isDone_merge, h.isDone]

/-- A file without facts adds what an unparsed file adds. -/
theorem Resembles.recordFailure_merge (h : Resembles s t) (file : Path) (reason : String) :
    Resembles (s.recordFailure file reason) (t.merge file [] []) := by
  refine ⟨h.imports, fun p => ?_⟩
  rw [WalkState.isDone_recordFailure, WalkState.isDone_merge, h.isDone]

theorem isClean_localsOf (hw : w.host.ResolvesCleanly) (hg : g ∈ w.localsOf file) :
    g.IsClean := by
  unfold localsOf at hg
  split at hg
  · rename_i hparsed
    exact (imports_of_mem_locals hparsed hg).isClean hw
  · cases hg

namespace Mends

theorem alike (h : w.Mends host' f reason) (hp : p.IsClean) (hne : p ≠ f) :
    w.Alike (w.on host') p :=
  ⟨h.read p hp hne, h.parse, h.resolve, rfl, rfl, rfl⟩

theorem inspect_self (h : w.Mends host' f reason) : w.inspect f = .unparsed reason := by
  obtain ⟨source, hread, hparse⟩ := h.unparsed
  exact inspect_eq_unparsed_iff.mpr ⟨source, hread, hparse, h.lenient⟩

theorem inspect_mended (h : w.Mends host' f reason) :
    (w.on host').inspect f = .parsed [] [] := by
  obtain ⟨text, hread, hparse⟩ := h.empty
  exact inspect_eq_parsed_iff.mpr ⟨{}, ⟨text, hread, hparse⟩, rfl, rfl⟩

theorem eventsOf_self (h : w.Mends host' f reason) :
    (w.on host').eventsOf f = w.eventsOf f := by
  have hold : w.eventsOf f = [.read f] :=
    eventsOf_of_not_hasFacts fun ⟨_, hfacts⟩ => not_hasFacts_of_unparsed h.inspect_self hfacts
  obtain ⟨text, hread, hparse⟩ := h.empty
  have hmended : (w.on host').eventsOf f = [.read f] :=
    eventsOf_of_hasFacts (w := w.on host') ⟨text, hread, hparse⟩
  rw [hold, hmended]

theorem passes_iff (h : Resembles s t) : (w.on host').Passes t file ↔ w.Passes s file := by
  rw [Passes, Passes, h.isDone]
  rfl

/-- **In step.** The file itself is taken in both walks and leads nowhere, and all other files are
the same to both. -/
theorem step (h : w.Mends host' f reason) (hw : w.host.ResolvesCleanly) (hR : Resembles s t)
    (hclean : file.IsClean) :
    SameStep Path.IsClean Resembles (w.step s file) ((w.on host').step t file) := by
  by_cases hpass : w.Passes s file
  · rw [step_of_passes hpass, step_of_passes ((passes_iff hR).mpr hpass)]
    exact .skip hR
  · have hpass' : ¬ (w.on host').Passes t file := mt (passes_iff hR).mp hpass
    by_cases hfile : file = f
    · -- The file itself is unparsed in the one walk and has no facts in the other one.
      subst hfile
      have hlocals : w.localsOf file = [] := by simp [localsOf, h.inspect_self]
      have hlocals' : (w.on host').localsOf file = [] := by
        simp [localsOf, h.inspect_mended, locals, firstOccurrences]
      rw [step_of_takes hpass (.failed h.inspect_self),
        step_of_takes hpass' (.loaded h.inspect_mended), h.eventsOf_self, hlocals, hlocals']
      exact .go (hR.recordFailure_merge file reason) (by simp)
    · have halike := h.alike hclean hfile
      have hfiles : ∀ g ∈ w.localsOf file, g.IsClean := fun g => isClean_localsOf hw
      cases hinspect : w.inspect file with
      | broken e =>
          have hfails : w.Fails file e := inspect_eq_broken_iff.mp hinspect
          rw [step_of_fails hpass hfails, step_of_fails hpass' (halike.agrees.fails hfails),
            halike.eventsOf]
          exact .stop _ hR e
      | unparsed cause =>
          rw [step_of_takes hpass (.failed hinspect),
            step_of_takes hpass' (.failed (halike.inspect.trans hinspect)), halike.eventsOf,
            halike.localsOf]
          exact .go (hR.recordFailure file cause) hfiles
      | parsed exports imports =>
          rw [step_of_takes hpass (.loaded hinspect),
            step_of_takes hpass' (.loaded (halike.inspect.trans hinspect)), halike.eventsOf,
            halike.localsOf]
          exact .go (hR.merge file exports imports) hfiles

theorem inStep (h : w.Mends host' f reason) (hw : w.host.ResolvesCleanly) :
    w.InStep (w.on host') Path.IsClean Resembles where
  step _ _ _ hR hclean := h.step hw hR hclean
  options := rfl
  cwd := rfl
  entry entry := Path.isClean_absolutize entry w.cwd

theorem resolvesCleanly (h : w.Mends host' f reason) (hw : w.host.ResolvesCleanly) :
    (w.on host').host.ResolvesCleanly := by
  intro specifier directory target hr
  refine hw specifier directory target ?_
  rw [← h.resolve]
  exact hr

theorem hasFacts_iff (h : w.Mends host' f reason) (hp : p.IsClean) (hne : p ≠ f) (facts : Facts) :
    (w.on host').HasFacts p facts ↔ w.HasFacts p facts := by
  rw [HasFacts, HasFacts, (h.alike hp hne).read, (h.alike hp hne).parse]

theorem failureLines_eq (h : w.Mends host' f reason) (hreads : ∀ p ∈ reads, p.IsClean)
    (hf : f ∉ reads) : (w.on host').failureLines reads = w.failureLines reads := by
  have hfailure : ∀ p ∈ reads, (w.on host').parseFailure? p = w.parseFailure? p := by
    intro p hp
    have halike := h.alike (hreads p hp) (fun heq => hf (heq ▸ hp))
    simp only [parseFailure?, halike.read, halike.parse]
  have hfailures : (w.on host').failures reads = w.failures reads :=
    List.filterMap_congr fun p hp => by rw [hfailure p hp]
  rw [failureLines, failureLines, hfailures]

/-! ## Two graphs -/

theorem loaded_eq (h : w.Mends host' f reason) (hs : w.Explored reads s)
    (ht : (w.on host').Explored reads t) : s.loaded = t.loaded.filter (· ≠ f) := by
  refine hs.merged.ascending.eq_of_mem_iff (ht.merged.ascending.filter _) fun p => ?_
  rw [List.mem_filter, hs.mem_loaded_iff, ht.mem_loaded_iff, decide_eq_true_iff]
  constructor
  · rintro ⟨hp, facts, hfacts⟩
    have hne : p ≠ f := by
      rintro rfl
      exact not_hasFacts_of_unparsed h.inspect_self hfacts
    exact ⟨⟨hp, facts, (h.hasFacts_iff (hs.isClean hp) hne facts).mpr hfacts⟩, hne⟩
  · rintro ⟨⟨hp, facts, hfacts⟩, hne⟩
    exact ⟨hp, facts, (h.hasFacts_iff (hs.isClean hp) hne facts).mp hfacts⟩

theorem without (h : w.Mends host' f reason) (hs : w.Explored reads s)
    (ht : (w.on host').Explored reads t) (hR : Resembles s t) :
    s.toGraph.Without t.toGraph f := by
  have hloaded := h.loaded_eq hs ht
  refine ⟨hR.imports, hloaded, ht.exports_eq_filter hs (· ≠ f) hloaded fun p hp facts hfacts => ?_⟩
  have hclean : p.IsClean := hs.clean p (Or.inl hp)
  have hne : p ≠ f := by
    rw [hloaded, List.mem_filter, decide_eq_true_iff] at hp
    exact hp.2
  exact (h.hasFacts_iff hclean hne facts).mpr hfacts

theorem stats_eq (h : w.Mends host' f reason) (hs : w.Explored reads s)
    (ht : (w.on host').Explored reads t) (hf : f ∉ reads) : s.stats = t.stats := by
  rw [hs.consistent.stats, ht.consistent.stats, h.failureLines_eq (fun _ => hs.isClean) hf]

/-- Where the file is read, there is its line in the statistics. -/
theorem stats_of_mem (h : w.Mends host' f reason) (hs : w.Explored reads s)
    (ht : (w.on host').Explored reads t) (hf : f ∈ reads) :
    ∃ before after, reads = before ++ f :: after ∧ f ∉ before ∧ f ∉ after ∧
      t.stats = w.failureLines before ++ w.failureLines after ∧
      s.stats = w.failureLines before ++ failureLine f reason :: w.failureLines after := by
  obtain ⟨before, after, rfl⟩ := List.append_of_mem hf
  have hnodup := hs.consistent.nodup
  rw [List.nodup_append, List.nodup_cons] at hnodup
  obtain ⟨-, ⟨hafter, -⟩, hdisjoint⟩ := hnodup
  have hbefore : f ∉ before := fun hmem => hdisjoint f hmem f List.mem_cons_self rfl
  have hcleanBefore : ∀ p ∈ before, p.IsClean := fun p hp =>
    hs.isClean (List.mem_append_left _ hp)
  have hcleanAfter : ∀ p ∈ after, p.IsClean := fun p hp =>
    hs.isClean (List.mem_append_right _ (List.mem_cons_of_mem _ hp))
  have hself : w.failureLines [f] = [failureLine f reason] := by
    simp [failureLines, failures_of_unparsed h.inspect_self]
  have hmended : (w.on host').failureLines [f] = [] := by
    simp [failureLines, failures_of_parsed h.inspect_mended]
  have hsplit : before ++ f :: after = before ++ ([f] ++ after) := rfl
  refine ⟨before, after, rfl, hbefore, hafter, ?_, ?_⟩
  · rw [ht.consistent.stats, hsplit, failureLines_append, failureLines_append, hmended,
      h.failureLines_eq hcleanBefore hbefore, h.failureLines_eq hcleanAfter hafter, List.nil_append]
  · rw [hs.consistent.stats, hsplit, failureLines_append, failureLines_append, hself,
      List.singleton_append]

end Mends

/-! ## Isolation -/

/-- A successful walk has come to the files that it lists. -/
theorem Search.reached (h : w.Search {} w.starts events (.ok s)) (hf : s.Lists f) :
    w.Reached f := by
  refine h.preserves (P := fun s => ∀ f, s.Lists f → w.Reached f)
    (Q := fun f => w.exclude.excludes f = false → w.Reached f) ?_
    (fun _ hf => absurd hf WalkState.not_lists_empty) (fun _ hfile hex => .entry hfile hex) f hf
  intro s file s' hs hfile hnew htakes
  have hreached := hfile (not_excludes_of_not_passes hnew)
  refine ⟨fun f hf => ?_, fun g hg hex => hreached.follow hg hex⟩
  rcases (htakes.lists_iff hnew f).mp hf with rfl | hf
  · exact hreached
  · exact hs f hf

theorem mem_reads_iff_reached (hw : w.host.ResolvesCleanly)
    (h : w.Search {} w.starts events (.ok s)) :
    f ∈ events.filterMap Event.read? ↔ w.Reached f := by
  have hexplored := h.explored hw fun _ => isClean_starts
  constructor
  · intro hf
    exact h.reached (hexplored.lists_iff.mpr hf)
  · intro hf
    exact (hexplored.isDone_iff (hf.isClean hw)).mp (h.isDone_of_reached hw hf)

/-- `w.Isolates f reason run run'`: the run `run`, in which the file `f` does not parse, differs
from `run'` in nothing but this file and its line in the statistics. The line stands where the file
was read. -/
structure Isolates (w : Walker) (f : Path) (reason : String) (run run' : Run) : Prop where
  events : run.events = run'.events
  error_iff : ∀ e, run.result = .error e ↔ run'.result = .error e
  graph : ∀ s s', run.result = .ok s → run'.result = .ok s' → s.toGraph.Without s'.toGraph f
  unreached : ∀ s s', run.result = .ok s → run'.result = .ok s' → ¬ w.Reached f →
    s.toGraph.stats = s'.toGraph.stats
  reached : ∀ s s', run.result = .ok s → run'.result = .ok s' → w.Reached f →
    ∃ before after, run.reads = before ++ f :: after ∧ f ∉ before ∧ f ∉ after ∧
      s'.toGraph.stats = w.failureLines before ++ w.failureLines after ∧
      s.toGraph.stats
        = w.failureLines before ++ failureLine f reason :: w.failureLines after

theorem Mends.isolates (h : w.Mends host' f reason) (hw : w.host.ResolvesCleanly) {budget : Nat}
    {run run' : Run} (hwalk : w.walk budget = some run)
    (hwalk' : (w.on host').walk budget = some run') (hsame : SameRun Resembles run run') :
    w.Isolates f reason run run' := by
  have hsearch := search_of_walk hwalk
  have hsearch' := search_of_walk hwalk'
  obtain ⟨events, result⟩ := run
  obtain ⟨events', result'⟩ := run'
  obtain ⟨rfl, hresult⟩ := hsame
  cases hresult with
  | error e =>
      refine ⟨rfl, fun _ => Iff.rfl, ?_, ?_, ?_⟩ <;> rintro s s' ⟨⟩
  | @ok s t hR =>
      have hs := hsearch.explored hw fun _ => isClean_starts
      have ht := hsearch'.explored (h.resolvesCleanly hw) fun _ => isClean_starts
      have hreached := mem_reads_iff_reached (f := f) hw hsearch
      refine ⟨rfl, fun e => ⟨?_, ?_⟩, ?_, ?_, ?_⟩
      · rintro ⟨⟩
      · rintro ⟨⟩
      · rintro _ _ ⟨⟩ ⟨⟩
        exact h.without hs ht hR
      · rintro _ _ ⟨⟩ ⟨⟩ hf
        exact h.stats_eq hs ht (mt hreached.mp hf)
      · rintro _ _ ⟨⟩ ⟨⟩ hf
        exact h.stats_of_mem hs ht (hreached.mpr hf)

/-- **Parse failures are isolated.** A file that does not parse and need not is to a walk like a
file without facts: with any budget, both walks ask the same questions and fail with the same
error, or both graphs are the same but for the file itself and its one line in the statistics. -/
theorem parse_failure_isolated (hw : w.host.ResolvesCleanly) (h : w.Mends host' f reason)
    (budget : Nat) :
    Option.Rel (w.Isolates f reason) (w.walk budget) ((w.on host').walk budget) := by
  have hsame := (h.inStep hw).walk resembles_empty budget
  generalize hwalk : w.walk budget = answer, hwalk' : (w.on host').walk budget = answer' at hsame
  cases hsame with
  | none => exact .none
  | some hrun => exact .some (h.isolates hw hwalk hwalk' hrun)

def sampleWithBlanks : Host :=
  { Host.sample with
    parse := fun file source => if source = "" then .ok {} else Host.sample.parse file source }

def sampleWithBlankC : Host :=
  { sampleWithBlanks with
    read := fun file => if file = ⟨"/src/c.js"⟩ then .ok "" else Host.sample.read file }

theorem mends_sample : ((sample [⟨"a.js"⟩] true).on sampleWithBlanks).Mends sampleWithBlankC
    ⟨"/src/c.js"⟩ "unexpected token" where
  unparsed := ⟨_, rfl, rfl⟩
  lenient := rfl
  empty := ⟨_, rfl, rfl⟩
  read _ _ hne := if_neg hne
  parse := rfl
  resolve := rfl

/-- In the small project both `a` and `b` import `c`, which does not parse. Once `c` is empty it is
loaded, and there is no other difference. -/
theorem parse_failure_isolated_sample : ∃ run run' s s',
    ((sample [⟨"a.js"⟩] true).on sampleWithBlanks).walk 3 = some run ∧
    ((sample [⟨"a.js"⟩] true).on sampleWithBlankC).walk 3 = some run' ∧
    run.result = .ok s ∧ run'.result = .ok s' ∧
    s.toGraph.loadedFiles = [⟨"/src/a.js"⟩, ⟨"/src/b.js"⟩] ∧
    s'.toGraph.loadedFiles = [⟨"/src/a.js"⟩, ⟨"/src/b.js"⟩, ⟨"/src/c.js"⟩] ∧
    s.toGraph.Without s'.toGraph ⟨"/src/c.js"⟩ := by
  have hrel := parse_failure_isolated (w := (sample [⟨"a.js"⟩] true).on sampleWithBlanks)
    Host.resolvesCleanly_sample mends_sample 3
  obtain ⟨run, s, hwalk, hok, hloaded⟩ : ∃ run s,
      ((sample [⟨"a.js"⟩] true).on sampleWithBlanks).walk 3 = some run ∧ run.result = .ok s ∧
        s.toGraph.loadedFiles = [⟨"/src/a.js"⟩, ⟨"/src/b.js"⟩] := ⟨_, _, rfl, rfl, rfl⟩
  obtain ⟨run', s', hwalk', hok', hloaded'⟩ : ∃ run s,
      ((sample [⟨"a.js"⟩] true).on sampleWithBlankC).walk 3 = some run ∧ run.result = .ok s ∧
        s.toGraph.loadedFiles = [⟨"/src/a.js"⟩, ⟨"/src/b.js"⟩, ⟨"/src/c.js"⟩] :=
    ⟨_, _, rfl, rfl, rfl⟩
  have hmended : (((sample [⟨"a.js"⟩] true).on sampleWithBlanks).on sampleWithBlankC).walk 3
      = some run' := hwalk'
  rw [hwalk, hmended] at hrel
  cases hrel with
  | some hisolates =>
      exact ⟨run, run', s, s', hwalk, hwalk', hok, hok', hloaded, hloaded',
        hisolates.graph s s' hok hok'⟩

end Walker

end ModuleGraph
