import ModuleGraph.Proofs.Grouping
import ModuleGraph.Proofs.Walk.Closure

set_option autoImplicit false

/-! # The working list is a recursive search

`Walker.dfs` is the plain recursive search: a file that is done or excluded is left alone, any
other one is looked at, and then its local imports are searched in order. Its recursion is
bounded by a depth. A walk and the recursive search ask the same questions in the same order
and come to the same result, since both are instances of `Walker.Search`
(`search_of_dfsWalk`, `dfsWalk_of_search`). The questions of a search are those of the files
it visits, one file after the other, and it visits no file twice (`Search.visits`).
-/

namespace ModuleGraph

/-- The run that comes after the given events. -/
def Run.after (events : List Event) (run : Run) : Run := ⟨events ++ run.events, run.result⟩

namespace Walker

variable {w : Walker} {s s' : WalkState} {file : Path} {files rest : List Path}
  {events : List Event} {e : GraphError} {result : Except GraphError WalkState} {run : Run}

/-! ## Recursive search -/

/-- Visits files in order, up to the first error. -/
def inOrder (visit : WalkState → Path → Option Run) : WalkState → List Path → Option Run
  | s, [] => some ⟨[], .ok s⟩
  | s, file :: rest =>
    match visit s file with
    | some ⟨events, .ok s'⟩ => (inOrder visit s' rest).map (Run.after events)
    | stopped => stopped

/-- Depth-first search from one file. There is no answer when it goes deeper than allowed. -/
def dfs (w : Walker) : Nat → WalkState → Path → Option Run
  | 0, _, _ => none
  | depth + 1, s, file =>
    if s.isDone file || w.exclude.excludes file then some ⟨[], .ok s⟩
    else
      match w.inspect file with
      | .broken e => some ⟨w.eventsOf file, .error e⟩
      | .unparsed reason => some ⟨w.eventsOf file, .ok (s.recordFailure file reason)⟩
      | .parsed exports imports =>
        (inOrder (w.dfs depth) (s.merge file exports imports) (w.locals file imports)).map
          (Run.after (w.eventsOf file))

/-- Depth-first search from the entries, one after the other. -/
def dfsWalk (w : Walker) (depth : Nat) : Option Run := inOrder (w.dfs depth) {} w.starts

theorem dfs_of_passes (h : w.Passes s file) (depth : Nat) :
    w.dfs (depth + 1) s file = some ⟨[], .ok s⟩ := by
  rw [dfs, if_pos (by simpa [Passes] using h)]

theorem dfs_of_fails (hnew : ¬ w.Passes s file) (h : w.Fails file e) (depth : Nat) :
    w.dfs (depth + 1) s file = some ⟨w.eventsOf file, .error e⟩ := by
  rw [dfs, if_neg (by simpa [Passes] using hnew), inspect_eq_broken_iff.mpr h]

theorem dfs_of_takes (hnew : ¬ w.Passes s file) (h : w.Takes s file s') (depth : Nat) :
    w.dfs (depth + 1) s file
      = (inOrder (w.dfs depth) s' (w.localsOf file)).map (Run.after (w.eventsOf file)) := by
  rw [dfs, if_neg (by simpa [Passes] using hnew), localsOf]
  cases h with
  | failed h => simp [h, inOrder, Run.after]
  | loaded h => rw [h]

/-! ## The recursive search is a search -/

theorem search_of_inOrder {visit : WalkState → Path → Option Run}
    (hvisit : ∀ s file run, visit s file = some run → w.Search s [file] run.events run.result)
    (h : inOrder visit s files = some run) : w.Search s files run.events run.result := by
  induction files generalizing s run with
  | nil =>
      cases h
      exact .nil s
  | cons file rest ih =>
      rw [inOrder] at h
      cases hfile : visit s file with
      | none => simp [hfile] at h
      | some first =>
          have hfirst := hvisit s file first hfile
          obtain ⟨events, result⟩ := first
          cases result with
          | error e =>
              simp only [hfile] at h
              cases h
              exact hfirst.append_error rest
          | ok s' =>
              simp only [hfile, Option.map_eq_some_iff] at h
              obtain ⟨more, hmore, rfl⟩ := h
              exact hfirst.append_ok (ih hmore)

theorem search_of_dfs (hrec : w.options.recurse = true) {depth : Nat}
    (h : w.dfs depth s file = some run) : w.Search s [file] run.events run.result := by
  induction depth generalizing s file run with
  | zero => cases h
  | succ depth ih =>
      by_cases hpass : w.Passes s file
      · rw [dfs_of_passes hpass] at h
        cases h
        exact .skip hpass (.nil s)
      · rcases w.fails_or_takes s file with ⟨e, hfails⟩ | ⟨s', htakes⟩
        · rw [dfs_of_fails hpass hfails] at h
          cases h
          exact .stop hpass hfails
        · rw [dfs_of_takes hpass htakes, Option.map_eq_some_iff] at h
          obtain ⟨sub, hsub, rfl⟩ := h
          rw [← follow_of_recurse hrec] at hsub
          have hsearch := search_of_inOrder (fun _ _ _ => ih) hsub
          obtain ⟨events, result⟩ := sub
          cases result with
          | error e => exact .fail hpass htakes hsearch
          | ok s₂ =>
              have hgo := Search.go hpass htakes hsearch (.nil s₂)
              rwa [List.append_nil] at hgo

theorem search_of_dfsWalk (hrec : w.options.recurse = true) {depth : Nat}
    (h : w.dfsWalk depth = some run) : w.Search {} w.starts run.events run.result :=
  search_of_inOrder (fun _ _ _ => search_of_dfs hrec) h

/-! ## Every search is carried out by the recursive search -/

theorem inOrder_of_search (hrec : w.options.recurse = true)
    (h : w.Search s files events result) :
    ∃ depth, ∀ depth' ≥ depth, inOrder (w.dfs depth') s files = some ⟨events, result⟩ := by
  induction h with
  | nil s => exact ⟨0, fun _ _ => rfl⟩
  | skip hpass _ ih =>
      obtain ⟨d, hd⟩ := ih
      refine ⟨d + 1, fun depth hle => ?_⟩
      obtain ⟨k, rfl⟩ : ∃ k, depth = k + 1 := ⟨depth - 1, by omega⟩
      simp [inOrder, dfs_of_passes hpass, hd (k + 1) (by omega), Run.after]
  | stop hnew hfails =>
      refine ⟨1, fun depth hle => ?_⟩
      obtain ⟨k, rfl⟩ : ∃ k, depth = k + 1 := ⟨depth - 1, by omega⟩
      simp [inOrder, dfs_of_fails hnew hfails]
  | fail hnew htakes _ ih =>
      obtain ⟨d, hd⟩ := ih
      refine ⟨d + 1, fun depth hle => ?_⟩
      obtain ⟨k, rfl⟩ : ∃ k, depth = k + 1 := ⟨depth - 1, by omega⟩
      rw [inOrder, dfs_of_takes hnew htakes, ← follow_of_recurse hrec, hd k (by omega)]
      rfl
  | go hnew htakes _ _ ihsub ihrest =>
      obtain ⟨d, hd⟩ := ihsub
      obtain ⟨d', hd'⟩ := ihrest
      refine ⟨max (d + 1) d', fun depth hle => ?_⟩
      obtain ⟨k, rfl⟩ : ∃ k, depth = k + 1 := ⟨depth - 1, by omega⟩
      rw [inOrder, dfs_of_takes hnew htakes, ← follow_of_recurse hrec, hd k (by omega)]
      simp [Run.after, hd' (k + 1) (by omega)]

theorem dfsWalk_of_search (hrec : w.options.recurse = true)
    (h : w.Search {} w.starts events result) :
    ∃ depth, ∀ depth' ≥ depth, w.dfsWalk depth' = some ⟨events, result⟩ :=
  inOrder_of_search hrec h

/-! ## Visited files -/

/-- What is known of the files that a search visits: they are new to the state in which it
starts, they differ from each other, and a successful search lists them all. -/
structure Visits (w : Walker) (s : WalkState) (visited : List Path)
    (result : Except GraphError WalkState) : Prop where
  fresh : ∀ f ∈ visited, ¬ w.Passes s f
  distinct : visited.Pairwise fun p q => p.same q = false
  lists_iff : ∀ s', result = .ok s' → ∀ f, s'.Lists f ↔ s.Lists f ∨ f ∈ visited

namespace Visits

variable {visited later : List Path}

theorem nil (s : WalkState) : w.Visits s [] (.ok s) :=
  ⟨by simp, List.Pairwise.nil, by rintro _ ⟨⟩ f; simp⟩

/-- What was visited or done before is done afterwards. -/
theorem isDone_of_mem (h : w.Visits s visited (.ok s')) {f : Path}
    (hf : s.Lists f ∨ f ∈ visited) {p : Path} (hsame : f.same p = true) : s'.isDone p = true :=
  WalkState.isDone_iff.mpr ⟨f, (h.lists_iff s' rfl f).mpr hf, hsame⟩

theorem append (h : w.Visits s visited (.ok s')) (hlater : w.Visits s' later result) :
    w.Visits s (visited ++ later) result := by
  refine ⟨fun f hf => ?_, List.pairwise_append.mpr ⟨h.distinct, hlater.distinct, ?_⟩, ?_⟩
  · rcases List.mem_append.mp hf with hf | hf
    · exact h.fresh f hf
    · refine mt (Or.imp_left fun hdone => ?_) (hlater.fresh f hf)
      obtain ⟨g, hg, hsame⟩ := WalkState.isDone_iff.mp hdone
      exact h.isDone_of_mem (Or.inl hg) hsame
  · intro p hp q hq
    rw [← Bool.not_eq_true]
    exact fun hsame => hlater.fresh q hq (Or.inl (h.isDone_of_mem (Or.inr hp) hsame))
  · intro s₂ hs₂ f
    rw [hlater.lists_iff s₂ hs₂, h.lists_iff s' rfl, or_assoc, List.mem_append]

theorem of_takes (hnew : ¬ w.Passes s file) (h : w.Takes s file s') :
    w.Visits s [file] (.ok s') := by
  refine ⟨by simpa using hnew, List.pairwise_singleton _ _, ?_⟩
  rintro _ ⟨⟩ f
  rw [h.lists_iff hnew, List.mem_singleton, or_comm]

end Visits

/-- **A search visits no file twice**, and asks for nothing but what its visits need. -/
theorem Search.visits (h : w.Search s files events result) :
    ∃ visited, events = visited.flatMap w.eventsOf ∧ w.Visits s visited result := by
  induction h with
  | nil s => exact ⟨[], rfl, .nil s⟩
  | skip _ _ ih => exact ih
  | @stop s file _ e hnew _ =>
      refine ⟨[file], by simp, by simpa using hnew, List.pairwise_singleton _ _, ?_⟩
      rintro _ ⟨⟩
  | @fail _ _ file _ _ _ hnew htakes _ ih =>
      obtain ⟨visited, rfl, hvisits⟩ := ih
      exact ⟨file :: visited, rfl, (Visits.of_takes hnew htakes).append hvisits⟩
  | @go _ _ _ file _ _ _ _ hnew htakes _ _ ihsub ihrest =>
      obtain ⟨visited, rfl, hvisits⟩ := ihsub
      obtain ⟨later, rfl, hlater⟩ := ihrest
      refine ⟨file :: (visited ++ later), ?_, ?_⟩
      · rw [List.flatMap_cons, List.flatMap_append]
      · exact (Visits.of_takes hnew htakes).append (hvisits.append hlater)

end Walker

/-! ## Reads -/

def Event.read? : Event → Option Path
  | .read file => some file
  | .resolve _ _ => none

def Run.reads (run : Run) : List Path := run.events.filterMap Event.read?

namespace Walker

variable {w : Walker} {s : WalkState} {file : Path} {run : Run}

theorem filterMap_read?_asked (imports : List (String × List String)) :
    (w.asked file imports).filterMap Event.read? = [] := by
  induction imports with
  | nil => rfl
  | cons entry rest ih =>
      cases h : w.host.resolve entry.1 file.directory with
      | error reason =>
          rw [asked, ask_cons_of_error h]
          rfl
      | ok target =>
          rw [asked, ask_cons_of_ok h, List.filterMap_cons_none rfl]
          exact ih

theorem filterMap_read?_eventsOf : (w.eventsOf file).filterMap Event.read? = [file] := by
  by_cases h : ∃ facts, w.HasFacts file facts
  · obtain ⟨facts, hfacts⟩ := h
    have hread : Event.read? (.read file) = some file := rfl
    rw [eventsOf_of_hasFacts hfacts, List.filterMap_cons_some hread, filterMap_read?_asked]
  · rw [eventsOf_of_not_hasFacts h]
    rfl

theorem reads_of_flatMap {visited : List Path} (h : run.events = visited.flatMap w.eventsOf) :
    run.reads = visited := by
  rw [Run.reads, h, List.filterMap_flatMap]
  simp [filterMap_read?_eventsOf]

/-- Looking at a loaded file asks for each of its specifiers once. -/
theorem nodup_eventsOf {exports : List String} {imports : List (Path × List String)}
    {facts : Facts} (h : w.inspect file = .parsed exports imports) (hf : w.HasFacts file facts)
    (hnodup : facts.specifiers.Nodup) : (w.eventsOf file).Nodup := by
  rw [eventsOf_of_parsed h hf, List.nodup_cons]
  refine ⟨by simp, ?_⟩
  rw [List.Nodup, List.pairwise_map]
  refine hnodup.imp fun hne heq => hne ?_
  injection heq

/-- Every file of the run is read once, and each specifier of a loaded file is resolved once,
right after the file was read. -/
structure AsksOnce (w : Walker) (run : Run) : Prop where
  distinct : run.reads.Pairwise fun p q => p.same q = false
  events : run.events = run.reads.flatMap w.eventsOf
  specifiers : ∀ f ∈ run.reads, ∀ exports imports, w.inspect f = .parsed exports imports →
    ∃ facts, w.HasFacts f facts
      ∧ w.eventsOf f = .read f :: facts.specifiers.map (.resolve · f.directory)
      ∧ ∀ statements, facts = .ofStatements statements → (w.eventsOf f).Nodup
  loaded : ∀ s, run.result = .ok s → ∀ f, f ∈ s.toGraph.loadedFiles ↔
    f ∈ run.reads ∧ ∃ exports imports, w.inspect f = .parsed exports imports

theorem asksOnce_of_walk {budget : Nat} (h : w.walk budget = some run) : w.AsksOnce run := by
  obtain ⟨visited, hevents, hvisits⟩ := (search_of_walk h).visits
  obtain rfl := reads_of_flatMap hevents
  refine ⟨hvisits.distinct, hevents, fun f _ exports imports hparsed => ?_, fun s hok f => ?_⟩
  · obtain ⟨facts, hfacts⟩ := hasFacts_of_parsed hparsed
    refine ⟨facts, hfacts, eventsOf_of_parsed hparsed hfacts, ?_⟩
    rintro statements rfl
    exact nodup_eventsOf hparsed hfacts (Facts.nodup_specifiers_ofStatements statements)
  · have hsearch := search_of_walk h
    rw [hok] at hsearch
    have hacc := hsearch.accurate w.accurate_empty
    have hlists : s.Lists f ↔ f ∈ run.reads := by
      rw [hvisits.lists_iff s hok, or_iff_right WalkState.not_lists_empty]
    rw [← hlists]
    constructor
    · intro hf
      exact ⟨Or.inl hf, (hacc.loaded f hf).2⟩
    · rintro ⟨hf | hf, exports, imports, hparsed⟩
      · exact hf
      · obtain ⟨-, reason, hreason⟩ := hacc.unparsed f hf
        rw [hparsed] at hreason
        cases hreason

/-- **The working list of a walk is recursive depth-first search.** Each of them comes to the
same events and the same result as the other, with every sufficient budget and depth, and no
question is asked twice. -/
theorem walk_refines_dfs (hrec : w.options.recurse = true) :
    (∀ budget run, w.walk budget = some run →
      (∃ depth, ∀ depth' ≥ depth, w.dfsWalk depth' = some run) ∧ w.AsksOnce run) ∧
    ∀ depth run, w.dfsWalk depth = some run →
      ∃ budget, ∀ budget' ≥ budget, w.walk budget' = some run := by
  refine ⟨fun budget run hwalk => ⟨?_, asksOnce_of_walk hwalk⟩, fun depth run hdfs => ?_⟩
  · exact dfsWalk_of_search hrec (search_of_walk hwalk)
  · exact walk_of_search (search_of_dfsWalk hrec hdfs)

/-- In the small project the walk from `e` ends at a file that is not there. -/
theorem walk_refines_dfs_sample : ∃ run, (sample [⟨"e.js"⟩] true).walk 4 = some run ∧
    run.result = .error (.missingFile ⟨"/src/d.js"⟩) ∧
    (∃ depth, ∀ depth' ≥ depth, (sample [⟨"e.js"⟩] true).dfsWalk depth' = some run) ∧
    (sample [⟨"e.js"⟩] true).AsksOnce run := by
  obtain ⟨run, hwalk, herr⟩ : ∃ run, (sample [⟨"e.js"⟩] true).walk 4 = some run ∧
      run.result = .error (.missingFile ⟨"/src/d.js"⟩) := ⟨_, rfl, rfl⟩
  exact ⟨run, hwalk, herr, (walk_refines_dfs rfl).1 4 run hwalk⟩

end Walker

end ModuleGraph
