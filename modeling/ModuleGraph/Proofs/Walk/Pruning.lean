import ModuleGraph.Proofs.Walk.Termination

set_option autoImplicit false

/-! # Searches that start where another one ended

A search that succeeds leaves a state in which everything that is done is settled: all that it
leads to is done or excluded (`Walker.Closed`). A later search that starts in this state passes
over what is done there, and with it over everything that is reached only from there. So it visits
what it would have visited in the empty state, in the same order, without the files that were done
(`Search.prune`). Conversely, files that are all done or excluded in a closed state can be searched
from the empty state, and this succeeds (`Closed.exists_search`).
-/

namespace ModuleGraph

namespace Walker

variable {w w' : Walker} {s s' t c : WalkState} {file : Path} {files : List Path}
  {events : List Event} {e : GraphError} {result : Except GraphError WalkState}

/-! ## Walkers that see the same files -/

/-- A file is the same to both walkers: it has one text, and what comes of a text is decided in the
same way. -/
structure Alike (w w' : Walker) (file : Path) : Prop where
  read : w'.host.read file = w.host.read file
  parse : w'.host.parse = w.host.parse
  resolve : w'.host.resolve = w.host.resolve
  strict : w'.options.isStrict file = w.options.isStrict file
  libraryDirs : w'.options.libraryDirs = w.options.libraryDirs
  recurse : w'.options.recurse = w.options.recurse

theorem ask_congr (h : w'.host.resolve = w.host.resolve)
    (imports : List (String × List String)) : w'.ask file imports = w.ask file imports := by
  induction imports with
  | nil => rfl
  | cons entry more ih => rw [ask, ask, h, ih]

/-- The questions about a file do not depend on which files are strict. -/
theorem eventsOf_congr (hread : w'.host.read file = w.host.read file)
    (hparse : w'.host.parse = w.host.parse) (hresolve : w'.host.resolve = w.host.resolve) :
    w'.eventsOf file = w.eventsOf file := by
  have hfacts : ∀ facts, w'.HasFacts file facts ↔ w.HasFacts file facts := by
    intro facts
    rw [HasFacts, HasFacts, hread, hparse]
  by_cases h : ∃ facts, w.HasFacts file facts
  · obtain ⟨facts, h⟩ := h
    rw [eventsOf_of_hasFacts h, eventsOf_of_hasFacts ((hfacts facts).mpr h), asked, asked,
      ask_congr hresolve]
  · have h' : ¬∃ facts, w'.HasFacts file facts := (not_congr (exists_congr hfacts)).mpr h
    rw [eventsOf_of_not_hasFacts h, eventsOf_of_not_hasFacts h']

namespace Alike

theorem look (h : w.Alike w' file) : w'.look file = w.look file := by
  simp only [Walker.look, h.read, h.parse, h.strict, ask_congr h.resolve]

theorem inspect (h : w.Alike w' file) : w'.inspect file = w.inspect file := congrArg _ h.look

theorem eventsOf (h : w.Alike w' file) : w'.eventsOf file = w.eventsOf file := congrArg _ h.look

theorem localsOf (h : w.Alike w' file) : w'.localsOf file = w.localsOf file := by
  simp only [Walker.localsOf, h.inspect, Walker.locals, h.libraryDirs]

theorem follow (h : w.Alike w' file) : w'.follow file = w.follow file := by
  simp only [Walker.follow, h.recurse, h.localsOf]

end Alike

structure Agrees (w w' : Walker) (file : Path) : Prop where
  inspect : w'.inspect file = w.inspect file
  eventsOf : w'.eventsOf file = w.eventsOf file
  follow : w'.follow file = w.follow file

namespace Agrees

theorem takes (h : w.Agrees w' file) (ht : w.Takes s file s') : w'.Takes s file s' := by
  cases ht with
  | failed hfailed => exact .failed (h.inspect.trans hfailed)
  | loaded hloaded => exact .loaded (h.inspect.trans hloaded)

theorem fails (h : w.Agrees w' file) (hf : w.Fails file e) : w'.Fails file e := by
  rw [← inspect_eq_broken_iff, h.inspect]
  exact inspect_eq_broken_iff.mpr hf

end Agrees

theorem Alike.agrees (h : w.Alike w' file) : w.Agrees w' file := ⟨h.inspect, h.eventsOf, h.follow⟩

/-- A search says the same of every walker that learns the same from the files that are read. -/
theorem Search.agree (h : w.Search s files events result) (hex : w'.exclude = w.exclude)
    (hread : ∀ f ∈ events.filterMap Event.read?, w.Agrees w' f) :
    w'.Search s files events result := by
  have hpasses : ∀ s f, w'.Passes s f ↔ w.Passes s f := by
    intro s f
    rw [Passes, hex, Passes]
  induction h with
  | nil s => exact .nil s
  | skip hpass _ ih => exact .skip ((hpasses _ _).mpr hpass) (ih hread)
  | @stop s file rest e hnew hfails =>
      rw [filterMap_read?_eventsOf] at hread
      have hfile := hread file List.mem_cons_self
      rw [← hfile.eventsOf]
      exact .stop (mt (hpasses s file).mp hnew) (hfile.fails hfails)
  | @fail s s₁ file rest events e hnew htakes _ ih =>
      rw [List.filterMap_append, filterMap_read?_eventsOf] at hread
      have hfile := hread file List.mem_cons_self
      have hsub := ih fun f hf => hread f (List.mem_append_right _ hf)
      rw [← hfile.follow] at hsub
      rw [← hfile.eventsOf]
      exact .fail (mt (hpasses s file).mp hnew) (hfile.takes htakes) hsub
  | @go s s₁ s₂ file rest events events' result hnew htakes _ _ ihsub ihrest =>
      rw [List.filterMap_append, List.filterMap_append, filterMap_read?_eventsOf] at hread
      have hfile := hread file List.mem_cons_self
      have hsub := ihsub fun f hf => hread f (List.mem_append_right _ (List.mem_append_left _ hf))
      have hrest := ihrest fun f hf =>
        hread f (List.mem_append_right _ (List.mem_append_right _ hf))
      rw [← hfile.follow] at hsub
      rw [← hfile.eventsOf]
      exact .go (mt (hpasses s file).mp hnew) (hfile.takes htakes) hsub hrest

/-! ## Closed states -/

/-- Everything that is done is settled. -/
def Closed (w : Walker) (c : WalkState) : Prop :=
  ∀ p, p.IsClean → c.isDone p = true → w.Settled c p

theorem Search.isClosed (hw : w.host.ResolvesCleanly) (h : w.Search {} files events (.ok c))
    (hfiles : ∀ f ∈ files, f.IsClean) : w.Closed c :=
  fun _ hp hdone => h.settled hw hfiles hp rfl hdone

/-- A search of files that are all passed over does nothing. -/
theorem Search.eq_of_passes (h : w.Search s files events result)
    (hpass : ∀ f ∈ files, w.Passes s f) : events = [] ∧ result = .ok s := by
  induction h with
  | nil s => exact ⟨rfl, rfl⟩
  | skip _ _ ih => exact ih fun f hf => hpass f (List.mem_cons_of_mem _ hf)
  | stop hnew _ => exact absurd (hpass _ List.mem_cons_self) hnew
  | fail hnew _ _ _ => exact absurd (hpass _ List.mem_cons_self) hnew
  | go hnew _ _ _ _ _ => exact absurd (hpass _ List.mem_cons_self) hnew

/-- Whether a file is taken does not depend on the state. -/
theorem Takes.exists_takes (h : w.Takes s file s') (t : WalkState) : ∃ t', w.Takes t file t' := by
  cases h with
  | failed h => exact ⟨_, .failed h⟩
  | loaded h => exact ⟨_, .loaded h⟩

/-- **What is done in a closed state is left out of a search, and nothing else changes.** The
search in `s` succeeds, and `t` has done what `s` has done and also all that is done in the closed
state `c`. Then the search in `t` succeeds as well, and it reads the same files in the same order,
except for those that are done in `c`. -/
theorem Search.prune (hw : w.host.ResolvesCleanly) (hc : w.Closed c)
    (h : w.Search s files events (.ok s')) (hfiles : ∀ f ∈ files, f.IsClean)
    (ht : ∀ p, t.isDone p = (s.isDone p || c.isDone p)) :
    ∃ events' t', w.Search t files events' (.ok t')
      ∧ (∀ p, t'.isDone p = (s'.isDone p || c.isDone p))
      ∧ events'.filterMap Event.read?
        = (events.filterMap Event.read?).filter fun p => !c.isDone p := by
  induction h using Search.ok_induction generalizing t with
  | nil s => exact ⟨[], t, .nil t, ht, rfl⟩
  | @skip s s' file rest events hpass _ ih =>
      have hpass' : w.Passes t file := by
        refine hpass.imp_left fun hdone => ?_
        rw [ht, hdone, Bool.true_or]
      obtain ⟨events', t', hsearch, hdone, hreads⟩ :=
        ih (fun f hf => hfiles f (List.mem_cons_of_mem _ hf)) ht
      exact ⟨events', t', .skip hpass' hsearch, hdone, hreads⟩
  | @go s s₁ s₂ s' file rest events events' hnew htakes _ _ ihsub ihrest =>
      have hfile : file.IsClean := hfiles file List.mem_cons_self
      have hrest : ∀ f ∈ rest, f.IsClean := fun f hf => hfiles f (List.mem_cons_of_mem _ hf)
      have hfollow : ∀ g ∈ w.follow file, g.IsClean := fun g => isClean_follow hw
      rw [List.filterMap_append, List.filterMap_append, filterMap_read?_eventsOf,
        List.filter_append, List.filter_append]
      by_cases hold : c.isDone file = true
      · -- The file was done before, so the search in `t` passes over it. All that it leads to was
        -- done before as well, so nothing of what the search in `s` reads below it counts.
        have ht₁ : ∀ p, t.isDone p = (s₁.isDone p || c.isDone p) := by
          intro p
          rw [htakes.isDone, ht]
          cases hsame : file.same p with
          | false => rfl
          | true => rw [← c.isDone_congr hsame, hold, Bool.or_true, Bool.or_true]
        have hpass : ∀ p, w.Passes c p → w.Passes t p := by
          intro p hp
          refine hp.imp_left fun hdone => ?_
          rw [ht, hdone, Bool.or_true]
        obtain ⟨sub, t₂, hsub, hdone₂, hsubreads⟩ := ihsub hfollow ht₁
        obtain ⟨rfl, hres⟩ :=
          hsub.eq_of_passes fun g hg => hpass g ((hc file hfile hold).follow g hg)
        obtain rfl : t₂ = t := Except.ok.inj hres
        obtain ⟨later, t', hlater, hdone, hreads⟩ := ihrest hrest hdone₂
        refine ⟨later, t', .skip (hpass file (Or.inl hold)) hlater, hdone, ?_⟩
        rw [hreads, ← hsubreads]
        simp [hold]
      · -- The file is new to both searches, and both go on with what it leads to.
        obtain ⟨t₁, htakes'⟩ := htakes.exists_takes t
        have hnew' : ¬ w.Passes t file := by
          rintro (hdone | hex)
          · rw [ht, not_isDone_of_not_passes hnew, Bool.false_or] at hdone
            exact hold hdone
          · exact hnew (Or.inr hex)
        have ht₁ : ∀ p, t₁.isDone p = (s₁.isDone p || c.isDone p) := by
          intro p
          rw [htakes'.isDone, htakes.isDone, ht, Bool.or_assoc]
        obtain ⟨sub, t₂, hsub, hdone₂, hsubreads⟩ := ihsub hfollow ht₁
        obtain ⟨later, t', hlater, hdone, hreads⟩ := ihrest hrest hdone₂
        refine ⟨_, t', .go hnew' htakes' hsub hlater, hdone, ?_⟩
        rw [List.filterMap_append, List.filterMap_append, filterMap_read?_eventsOf, hsubreads,
          hreads]
        simp [hold]

/-! ## Searches within a closed state -/

/-- A search that fails comes to a file that fails, of the kind that the search stays in. -/
theorem Search.exists_fails {kind : Path → Prop}
    (hkind : ∀ p, kind p → w.exclude.excludes p = false → ∀ g ∈ w.follow p, kind g)
    (h : w.Search s files events (.error e)) (hfiles : ∀ f ∈ files, kind f) :
    ∃ f, kind f ∧ w.exclude.excludes f = false ∧ w.Fails f e := by
  induction h using Search.error_induction with
  | skip _ _ ih => exact ih fun f hf => hfiles f (List.mem_cons_of_mem _ hf)
  | stop hnew hfails =>
      exact ⟨_, hfiles _ List.mem_cons_self, not_excludes_of_not_passes hnew, hfails⟩
  | fail hnew _ _ ih =>
      exact ih (hkind _ (hfiles _ List.mem_cons_self) (not_excludes_of_not_passes hnew))
  | go _ _ _ _ ih => exact ih fun f hf => hfiles f (List.mem_cons_of_mem _ hf)

theorem Closed.settled (hc : w.Closed c) {p : Path} (hp : p.IsClean ∧ w.Passes c p)
    (hex : w.exclude.excludes p = false) : w.Settled c p :=
  hc p hp.1 (hp.2.resolve_right (by simp [hex]))

/-- From the files of a closed state a walk comes to no other files. -/
theorem Closed.confined (hw : w.host.ResolvesCleanly) (hc : w.Closed c) :
    w.Confined (fun p => p.IsClean ∧ w.Passes c p) (c.loaded ++ c.unparsed) := by
  refine ⟨fun p hp hex g hg => ⟨isClean_follow hw hg, (hc.settled hp hex).follow g hg⟩, ?_⟩
  intro p _ hp hex _
  obtain ⟨q, hq, hsame⟩ := WalkState.isDone_iff.mp (hp.2.resolve_right (by simp [hex]))
  exact ⟨q, List.mem_append.mpr hq, hsame⟩

theorem Closed.exists_search (hw : w.host.ResolvesCleanly) (hc : w.Closed c) (s : WalkState)
    (hfiles : ∀ f ∈ files, f.IsClean ∧ w.Passes c f) :
    ∃ events s', w.Search s files events (.ok s') := by
  have hconfined := hc.confined hw
  obtain ⟨events, result, hsearch⟩ := hconfined.exists_search s hfiles
  cases result with
  | ok s' => exact ⟨events, s', hsearch⟩
  | error e =>
      -- The file that fails was done in the closed state, and so it does not fail.
      obtain ⟨f, hf, hex, hfails⟩ := hsearch.exists_fails hconfined.follow hfiles
      exact absurd hfails ((hc.settled hf hex).notFails e)

end Walker

end ModuleGraph
