import ModuleGraph.Project
import ModuleGraph.Proofs.Walk.DepthFirst

set_option autoImplicit false

/-! # Scripts lead nowhere

What a script must not hold and what the facts of a source are taken from are two lists of cases
over statements. The first one covers the second one: a statement that a script may hold has no
part in the facts (`Facts.addStatement_of_plain`). So the facts of a script that parses are empty
(`Source.parseFacts_script`). In a walk where all facts are empty no file leads to another one, and
the entries are all that it reads (`Search.reads_eq`).
-/

namespace ModuleGraph

/-! ## Facts of a script -/

theorem Source.Statement.exports_of_plain {statement : Source.Statement}
    (h : statement.isModuleSyntax = false) : statement.exports = [] := by
  cases statement with
  | declaration d => rfl
  | other inner => rfl
  | _ => cases h

theorem Source.Statement.import?_of_plain {statement : Source.Statement}
    (h : statement.isModuleSyntax = false) : statement.import? = none := by
  cases statement with
  | declaration d => rfl
  | other inner => rfl
  | _ => cases h

/-- A statement that a script may hold adds nothing to the facts. -/
theorem Facts.addStatement_of_plain {statement : Source.Statement}
    (h : statement.isModuleSyntax = false) (facts : Facts) :
    facts.addStatement statement = facts := by
  simp [addStatement, addExports, Source.Statement.exports_of_plain h,
    Source.Statement.import?_of_plain h]

theorem Facts.ofStatements_of_plain {program : List Source.Statement}
    (h : ∀ statement ∈ program, statement.isModuleSyntax = false) : ofStatements program = {} := by
  have key : ∀ facts : Facts, program.foldl addStatement facts = facts := by
    induction program with
    | nil => exact fun facts => rfl
    | cons statement rest ih =>
        intro facts
        rw [List.foldl_cons, addStatement_of_plain (h statement List.mem_cons_self)]
        exact ih (fun s hs => h s (List.mem_cons_of_mem _ hs)) facts
  exact key {}

theorem Source.factsOfProgram_script {program : List Source.Statement} {facts : Facts}
    (h : Source.factsOfProgram .script program = .ok facts) : facts = {} := by
  unfold Source.factsOfProgram at h
  split at h
  · cases h
  · rename_i hplain
    cases h
    refine Facts.ofStatements_of_plain fun statement hmem => ?_
    rw [← Bool.not_eq_true]
    exact fun hmodule => hplain ⟨rfl, List.any_eq_true.mpr ⟨statement, hmem, hmodule⟩⟩

theorem Source.exists_program_of_parseFacts {options : ParserOptions} {p : Path} {source : String}
    {facts : Facts} (h : Source.parseFacts options p source = .ok facts) :
    ∃ program, Source.factsOfProgram options.sourceKind program = .ok facts := by
  unfold Source.parseFacts at h
  split at h
  · cases h
  · exact ⟨_, h⟩

/-- **A script that parses has no facts.** -/
theorem Source.parseFacts_script {options : ParserOptions} (hscript : options.sourceKind = .script)
    {p : Path} {source : String} {facts : Facts}
    (h : Source.parseFacts options p source = .ok facts) : facts = {} := by
  obtain ⟨program, hprogram⟩ := Source.exists_program_of_parseFacts h
  rw [hscript] at hprogram
  exact Source.factsOfProgram_script hprogram

/-- `host.ParsesAs kind`: whatever the host parses has the facts of some program of this kind.
Which texts it parses, and what it says of the others, is up to the host. -/
def Host.ParsesAs (host : Host) (kind : SourceKind) : Prop :=
  ∀ p source facts, host.parse p source = .ok facts →
    ∃ program, Source.factsOfProgram kind program = .ok facts

theorem Host.parsesAs_of_parseFacts {host : Host} {options : ParserOptions}
    (h : ∀ p source, host.parse p source
      = (Source.parseFacts options p source).mapError Source.ParseError.message) :
    host.ParsesAs options.sourceKind := by
  intro p source facts hfacts
  rw [h] at hfacts
  cases hresult : Source.parseFacts options p source with
  | error e =>
      rw [hresult] at hfacts
      cases hfacts
  | ok found =>
      rw [hresult] at hfacts
      cases hfacts
      exact Source.exists_program_of_parseFacts hresult

/-- A disk serves a walk as such a host. -/
theorem Disk.parsesAs_host (disk : Disk) (options : GraphOptions) :
    (disk.host options).ParsesAs options.parserOptions.sourceKind :=
  Host.parsesAs_of_parseFacts fun _ _ => rfl

namespace Walker

variable {w : Walker} {s s' : WalkState} {file : Path} {files : List Path} {events : List Event}

/-! ## Walks without facts -/

/-- `w.Mute`: what can be parsed exports nothing and imports nothing. -/
def Mute (w : Walker) : Prop := ∀ file facts, w.HasFacts file facts → facts = {}

theorem mute_of_script (hparse : w.host.ParsesAs .script) : w.Mute := by
  rintro file facts ⟨source, -, hfacts⟩
  obtain ⟨program, hprogram⟩ := hparse file source facts hfacts
  exact Source.factsOfProgram_script hprogram

namespace Mute

theorem inspect (hmute : w.Mute) {exports : List String} {imports : List (Path × List String)}
    (h : w.inspect file = .parsed exports imports) : exports = [] ∧ imports = [] := by
  obtain ⟨facts, hfacts, hexports, hresolve⟩ := inspect_eq_parsed_iff.mp h
  obtain rfl := hmute file facts hfacts
  cases hresolve
  exact ⟨hexports.symm, rfl⟩

theorem follow (hmute : w.Mute) (file : Path) : w.follow file = [] := by
  refine List.eq_nil_iff_forall_not_mem.mpr fun target htarget => ?_
  obtain ⟨facts, specifier, names, hfacts, himports, -, -⟩ := imports_of_mem_follow htarget
  rw [hmute file facts hfacts] at himports
  cases himports

/-- A file is read, and that is all. -/
theorem eventsOf (hmute : w.Mute) (file : Path) : w.eventsOf file = [.read file] := by
  by_cases h : ∃ facts, w.HasFacts file facts
  · obtain ⟨facts, hfacts⟩ := h
    rw [eventsOf_of_hasFacts hfacts, hmute file facts hfacts]
    rfl
  · exact eventsOf_of_not_hasFacts h

end Mute

/-- The state takes no names, and its files export none. -/
structure Nameless (s : WalkState) : Prop where
  imports : s.imports = []
  exports : ∀ entry ∈ s.exports, entry.2 = []

theorem Nameless.takes (hs : Nameless s) (hmute : w.Mute) (h : w.Takes s file s') :
    Nameless s' := by
  cases h with
  | failed _ => exact ⟨hs.imports, hs.exports⟩
  | loaded hloaded =>
      obtain ⟨rfl, rfl⟩ := hmute.inspect hloaded
      refine ⟨hs.imports, fun entry hentry => ?_⟩
      rcases PathMap.mem_insert_subset hentry with hnew | hold
      · exact hnew
      · exact hs.exports entry hold

theorem Search.nameless (h : w.Search {} files events (.ok s)) (hmute : w.Mute) : Nameless s :=
  h.preserves_of_takes (fun _ _ _ hs _ htakes => hs.takes hmute htakes) ⟨rfl, by simp⟩

/-! ## Walks of the entries alone -/

/-- Whether a file is still to be read in the given state. -/
def isDue (w : Walker) (s : WalkState) (file : Path) : Bool :=
  !s.isDone file && !w.exclude.excludes file

theorem isDue_iff : w.isDue s file = true ↔ ¬ w.Passes s file := by
  simp [isDue, Passes]

/-- Once a file was taken, it is not due any more, and nothing else changes. -/
theorem Takes.isDue (h : w.Takes s file s') (hclean : file.IsClean) {p : Path} (hp : p.IsClean) :
    w.isDue s' p = (w.isDue s p && !p == file) := by
  have hsame : file.same p = (p == file) := by
    rw [Bool.eq_iff_iff, beq_iff_eq]
    constructor
    · intro hsame
      exact (hclean.eq_of_same hp hsame).symm
    · rintro rfl
      exact Path.same_refl p
  rw [Walker.isDue, Walker.isDue, h.isDone, hsame]
  cases p == file <;> simp

/-- **Where no file leads to another one, the due files are read**, each once, in their order. -/
theorem Search.reads_eq (h : w.Search s files events (.ok s')) (hfollow : ∀ f, w.follow f = [])
    (hfiles : ∀ f ∈ files, f.IsClean) :
    events.filterMap Event.read? = (files.filter (w.isDue s)).eraseDups := by
  induction h using Search.ok_induction with
  | nil s => rfl
  | @skip s s' file rest events hpass _ ih =>
      have hdue : ¬ w.isDue s file = true := mt isDue_iff.mp (not_not_intro hpass)
      rw [List.filter_cons_of_neg hdue]
      exact ih fun f hf => hfiles f (List.mem_cons_of_mem _ hf)
  | @go s s₁ s₂ s' file rest events events' hnew htakes hsub _ _ ih =>
      obtain ⟨rfl, rfl⟩ : s₁ = s₂ ∧ events = [] := by
        rw [hfollow] at hsub
        cases hsub
        exact ⟨rfl, rfl⟩
      have hrest : ∀ f ∈ rest, f.IsClean := fun f hf => hfiles f (List.mem_cons_of_mem _ hf)
      -- What is due after the file was taken is what was due before, without the file.
      have hdue : rest.filter (w.isDue s₁)
          = (rest.filter (w.isDue s)).filter fun p => !p == file := by
        rw [List.filter_filter]
        refine List.filter_congr fun p hp => ?_
        rw [htakes.isDue (hfiles file List.mem_cons_self) (hrest p hp), Bool.and_comm]
      rw [List.filter_cons_of_pos (isDue_iff.mpr hnew), List.eraseDups_cons, ← hdue,
        List.nil_append, List.filterMap_append, filterMap_read?_eventsOf, ih hrest]
      rfl

/-! ## Walks of scripts -/

/-- **Scripts lead nowhere.** The source of a script does not parse or has no facts. So a walk of
scripts that succeeds takes no names and finds no exports, never asks where a specifier leads, and
reads the entries that are not excluded, each once, in their order. -/
theorem scripts_follow_nothing (options : ParserOptions) (hscript : options.sourceKind = .script) :
    (∀ p source, (∃ e, Source.parseFacts options p source = .error e) ∨
      Source.parseFacts options p source = .ok {}) ∧
    ∀ w : Walker, w.host.ParsesAs options.sourceKind → ∀ budget run s, w.walk budget = some run →
      run.result = .ok s →
      s.toGraph.imports = [] ∧ (∀ entry ∈ s.toGraph.exports, entry.2 = []) ∧
      run.events = run.reads.map .read ∧
      run.reads = (w.starts.filter fun p => !w.exclude.excludes p).eraseDups := by
  constructor
  · intro p source
    cases h : Source.parseFacts options p source with
    | error e => exact Or.inl ⟨e, rfl⟩
    | ok facts =>
        right
        rw [Source.parseFacts_script hscript h]
  · intro w hparse budget run s hwalk hok
    have hmute := mute_of_script (hscript ▸ hparse)
    have hsearch := search_of_walk hwalk
    obtain ⟨visited, hvisited, -⟩ := hsearch.visits
    rw [hok] at hsearch
    have hs := hsearch.nameless hmute
    refine ⟨hs.imports, fun entry hentry => ?_, ?_, ?_⟩
    · obtain ⟨old, hold, rfl⟩ := List.mem_map.mp hentry
      simp [hs.exports old hold, sortNames]
    · have hevents : w.eventsOf = fun f => [.read f] := funext hmute.eventsOf
      rw [reads_of_flatMap hvisited, hvisited, hevents, List.map_eq_flatMap]
    · exact hsearch.reads_eq hmute.follow fun _ => isClean_starts

def sampleScripts : Walker where
  host :=
    { read := fun file =>
        if file.text = "/src/a.js" then .ok "require('./c')"
        else if file.text = "/src/b.ts" then .ok "import './c'"
        else .error .notFound
      parse := fun p source =>
        (Source.parseFacts { sourceKind := .script } p source).mapError Source.ParseError.message
      resolve := fun _ _ => .ok ⟨"/src/c.js"⟩ }
  options := { files := [⟨"a.js"⟩, ⟨"b.ts"⟩, ⟨"./a.js"⟩] }
  exclude := {}
  cwd := ⟨"/src"⟩

theorem parsesAs_sampleScripts : sampleScripts.host.ParsesAs .script :=
  @Host.parsesAs_of_parseFacts _ { sourceKind := .script } fun _ _ => rfl

theorem inspect_sampleScripts_a : sampleScripts.inspect ⟨"/src/a.js"⟩ = .parsed [] [] := by
  decide +kernel

theorem inspect_sampleScripts_b : sampleScripts.inspect ⟨"/src/b.ts"⟩
    = .unparsed "'import' and 'export' may appear only with sourceType: module" := by
  decide +kernel

/-- Both scripts name `c`, which is not there. -/
theorem scripts_follow_nothing_sample : ∃ budget run s, sampleScripts.walk budget = some run ∧
    run.result = .ok s ∧ s.toGraph.loadedFiles = [⟨"/src/a.js"⟩] ∧ s.toGraph.imports = [] ∧
    run.events = [.read ⟨"/src/a.js"⟩, .read ⟨"/src/b.ts"⟩] := by
  obtain ⟨-, hwalks⟩ := scripts_follow_nothing { sourceKind := .script } rfl
  have hleaf : ∀ s f, sampleScripts.Search s (sampleScripts.follow f) [] (.ok s) := by
    intro s f
    rw [(mute_of_script parsesAs_sampleScripts).follow]
    exact .nil s
  have hstarts : sampleScripts.starts = [⟨"/src/a.js"⟩, ⟨"/src/b.ts"⟩, ⟨"/src/a.js"⟩] := by
    decide +kernel
  obtain ⟨events, s, hsearch, hloaded⟩ : ∃ events s,
      sampleScripts.Search {} sampleScripts.starts events (.ok s) ∧
        s.toGraph.loadedFiles = [⟨"/src/a.js"⟩] := by
    rw [hstarts]
    exact ⟨_, _, .go (isDue_iff.mp rfl) (.loaded inspect_sampleScripts_a) (hleaf _ _)
      (.go (isDue_iff.mp rfl) (.failed inspect_sampleScripts_b) (hleaf _ _)
        (.skip (Or.inl rfl) (.nil _))), rfl⟩
  obtain ⟨budget, hbudget⟩ := walk_of_search hsearch
  have hwalk := hbudget budget (Nat.le_refl budget)
  obtain ⟨himports, -, hevents, hreads⟩ :=
    hwalks sampleScripts parsesAs_sampleScripts budget _ s hwalk rfl
  refine ⟨budget, ⟨events, .ok s⟩, s, hwalk, rfl, hloaded, himports, ?_⟩
  rw [hevents, hreads, hstarts]
  rfl

end Walker

end ModuleGraph
