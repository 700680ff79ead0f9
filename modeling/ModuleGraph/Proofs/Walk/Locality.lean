import ModuleGraph.Proofs.Walk.Isolation

set_option autoImplicit false

/-! # Only what is read matters

At each point of a walk the next file is read unless it is passed over (`Walker.ReadsAt`), and it
was brought to wait as an entry or as a local import of a loaded file (`Reaches.tracks`). So
neither excluded files nor library code is ever read. What is not read cannot matter: two hosts
that give the same text to every file that a walk reads lead it through the same turns, and it
comes to the same run with every budget (`unread_files_irrelevant`).
-/

namespace ModuleGraph

namespace Walker

variable {w : Walker} {host' : Host} {s s' : WalkState} {file p : Path}
  {files entries : List Path} {events : List Event} {c c' c₁ c₂ : Progress} {run : Run}

/-! ## What is read, and when -/

/-- `w.ReadsAt c p`: at the given progress `p` is the next file, and it is read. -/
def ReadsAt (w : Walker) (c : Progress) (p : Path) : Prop :=
  (∃ waiting, c.waiting = p :: waiting) ∧ ¬ w.Passes c.state p

/-- `w.Opens p`: the walk reads the file `p` at some point, whether or not it comes to an end. -/
def Opens (w : Walker) (p : Path) : Prop := ∃ c, w.Reaches c ∧ w.ReadsAt c p

/-- `w.LeadsTo s p`: the file `p` is an entry, or a file that is loaded in `s` imports it and does
not see it as library code. -/
def LeadsTo (w : Walker) (s : WalkState) (p : Path) : Prop :=
  p ∈ w.starts ∨ ∃ f ∈ s.loaded, w.Imports f p

theorem Takes.loaded_mono (hnew : ¬ w.Passes s file) (h : w.Takes s file s')
    (hp : p ∈ s.loaded) : p ∈ s'.loaded := by
  cases h with
  | failed _ => exact hp
  | loaded _ => exact (mem_loaded_merge hnew _ _ p).mpr (Or.inr hp)

/-- Only a file that is loaded brings others to wait. -/
theorem Takes.leadsTo (hnew : ¬ w.Passes s file) (h : w.Takes s file s')
    (hp : p ∈ w.localsOf file) : w.LeadsTo s' p := by
  cases h with
  | failed hfailed => simp [localsOf, hfailed] at hp
  | @loaded exports imports hloaded =>
      have hfile := (mem_loaded_merge hnew exports imports file).mpr (Or.inl rfl)
      have hlocals : w.localsOf file = w.locals file imports := by rw [localsOf, hloaded]
      rw [hlocals] at hp
      exact Or.inr ⟨file, hfile, imports_of_mem_locals hloaded hp⟩

/-- Every file that waits was asked for, and every entry that is left is one of the options. -/
structure Tracks (w : Walker) (c : Progress) : Prop where
  waiting : ∀ p ∈ c.waiting, w.LeadsTo c.state p
  entries : ∀ entry ∈ c.entries, entry ∈ w.options.files

theorem Tracks.turn (h : w.Tracks c) (hturn : w.Turn c c') : w.Tracks c' := by
  cases hturn with
  | @enter _ _ entry _ =>
      refine ⟨fun p hp => ?_, fun e he => h.entries e (List.mem_cons_of_mem _ he)⟩
      rw [List.mem_singleton.mp hp]
      exact Or.inl (List.mem_map_of_mem (h.entries entry List.mem_cons_self))
  | skip hstep =>
      obtain ⟨-, rfl⟩ := passes_of_step hstep
      exact ⟨fun p hp => h.waiting p (List.mem_cons_of_mem _ hp), h.entries⟩
  | @go _ _ s s' file _ _ _ hstep =>
      obtain ⟨hnew, htakes, -, rfl⟩ := takes_of_step hstep
      refine ⟨fun p hp => ?_, h.entries⟩
      rcases List.mem_append.mp hp with hp | hp
      · split at hp
        · exact htakes.leadsTo hnew hp
        · cases hp
      · -- A file that waited before is still led to: loaded files stay loaded.
        refine (h.waiting p (List.mem_cons_of_mem _ hp)).imp_right ?_
        rintro ⟨f, hf, himports⟩
        exact ⟨f, htakes.loaded_mono hnew hf, himports⟩

theorem Reaches.tracks (h : w.Reaches c) : w.Tracks c :=
  h.induction ⟨by simp [start], fun _ he => he⟩ fun _ _ hc hturn => hc.turn hturn

theorem LeadsTo.isAbsolute (hcwd : w.cwd.isAbsolute = true) (h : w.LeadsTo s p) :
    p.isAbsolute = true := by
  rcases h with hstart | ⟨f, -, facts, specifier, names, -, -, -, hlib⟩
  · obtain ⟨entry, -, rfl⟩ := List.mem_map.mp hstart
    exact Path.isAbsolute_absolutize hcwd entry
  · exact isAbsolute_of_not_isLibrary hlib

/-- What is read is not excluded, it was led to, and it is no built-in module. -/
theorem Reaches.of_readsAt (h : w.Reaches c) (hp : w.ReadsAt c p) :
    w.exclude.excludes p = false ∧ (w.cwd.isAbsolute = true → p.isAbsolute = true)
      ∧ w.LeadsTo c.state p := by
  obtain ⟨⟨waiting, hwaiting⟩, hnew⟩ := hp
  have hleads : w.LeadsTo c.state p := by
    apply h.tracks.waiting
    rw [hwaiting]
    exact List.mem_cons_self
  exact ⟨not_excludes_of_not_passes hnew, fun hcwd => hleads.isAbsolute hcwd, hleads⟩

/-! ## Runs read what the walk reads -/

/-- There is at most one next turn. -/
theorem Turn.unique (h : w.Turn c c₁) (h' : w.Turn c c₂) : c₁ = c₂ := by
  cases h with
  | enter =>
      cases h'
      rfl
  | skip hskip =>
      cases h' with
      | skip hskip' =>
          rw [hskip] at hskip'
          cases hskip'
          rfl
      | go hgo =>
          rw [hskip] at hgo
          cases hgo
  | go hgo =>
      cases h' with
      | skip hskip =>
          rw [hskip] at hgo
          cases hgo
      | go hgo' =>
          rw [hgo] at hgo'
          cases hgo'
          rfl

/-- Where a walk ends there is no other turn. -/
theorem EndsWith.not_turn {result : Except GraphError WalkState}
    (h : w.EndsWith c events result) : ¬ w.Turn c c' := by
  intro hturn
  cases result with
  | ok s =>
      obtain rfl : c = ⟨events, s, [], []⟩ := h
      cases hturn
  | error e =>
      obtain ⟨file, waiting, more, s, hwaiting, hstop, -⟩ := h
      cases hturn with
      | enter => cases hwaiting
      | skip hskip =>
          cases hwaiting
          rw [hstop] at hskip
          cases hskip
      | go hgo =>
          cases hwaiting
          rw [hstop] at hgo
          cases hgo

theorem mem_reads_of_turns (h : Relation.ReflTransGen w.Turn c c') (hp : p ∈ c.reads) :
    p ∈ c'.reads := by
  induction h with
  | refl => exact hp
  | tail _ hturn ih =>
      rcases hturn.reads_cases with ⟨hreads, -⟩ | ⟨file, -, -, hreads⟩
      · rw [hreads]
        exact ih
      · rw [hreads]
        exact List.mem_append_left _ ih

/-- The turn after a file was read has read it. -/
theorem ReadsAt.mem_reads (h : w.ReadsAt c p) (hturn : w.Turn c c') : p ∈ c'.reads := by
  obtain ⟨⟨waiting, hwaiting⟩, hnew⟩ := h
  cases hturn with
  | enter => cases hwaiting
  | skip hskip =>
      cases hwaiting
      exact absurd (passes_of_step hskip).1 hnew
  | go hgo =>
      cases hwaiting
      obtain ⟨-, -, rfl, -⟩ := takes_of_step hgo
      simp [Progress.reads, filterMap_read?_eventsOf]

theorem Reaches.opens_of_mem_reads (h : w.Reaches c) : ∀ p ∈ c.reads, w.Opens p := by
  refine (h.induction (P := fun c => w.Reaches c ∧ ∀ p ∈ c.reads, w.Opens p) ⟨.refl, ?_⟩ ?_).2
  · intro p hp
    cases hp
  · rintro c c' ⟨hc, hopens⟩ hturn
    refine ⟨hc.tail hturn, fun p hp => ?_⟩
    cases hturn with
    | enter => exact hopens p hp
    | skip _ => exact hopens p hp
    | @go events _ s s' file _ waiting entries hstep =>
        obtain ⟨hnew, -, rfl, -⟩ := takes_of_step hstep
        have hreads : p ∈ (events ++ w.eventsOf file).filterMap Event.read? := hp
        rw [List.filterMap_append, filterMap_read?_eventsOf] at hreads
        rcases List.mem_append.mp hreads with hold | hfile
        · exact hopens p hold
        · obtain rfl := List.mem_singleton.mp hfile
          exact ⟨_, hc, ⟨waiting, rfl⟩, hnew⟩

/-- **The reads of a run are the files that the walk reads at some point.** -/
theorem mem_reads_iff_opens {budget : Nat} (h : w.walk budget = some run) :
    p ∈ run.reads ↔ w.Opens p := by
  obtain ⟨last, hlast, hend⟩ := turns_of_walk h
  have hstopped : ∀ c, ¬ w.Turn last c := fun c => hend.not_turn
  -- The run reads what was read up to its last progress, and the file that stops it there.
  have hreads : p ∈ run.reads ↔ p ∈ last.reads ∨ w.ReadsAt last p := by
    cases hresult : run.result with
    | ok s =>
        rw [hresult] at hend
        obtain rfl : last = ⟨run.events, s, [], []⟩ := hend
        have hnone : ¬ w.ReadsAt ⟨run.events, s, [], []⟩ p := by
          rintro ⟨⟨waiting, hwaiting⟩, -⟩
          cases hwaiting
        rw [or_iff_left hnone]
        rfl
    | error e =>
        rw [hresult] at hend
        obtain ⟨file, waiting, more, s, hwaiting, hstop, hevents⟩ := hend
        obtain ⟨hnew, -, rfl, -⟩ := fails_of_step hstop
        have hfile : w.ReadsAt last p ↔ p = file := by
          constructor
          · rintro ⟨⟨waiting', hwaiting'⟩, -⟩
            rw [hwaiting] at hwaiting'
            cases hwaiting'
            rfl
          · rintro rfl
            exact ⟨⟨waiting, hwaiting⟩, hnew⟩
        rw [Run.reads, hevents, List.filterMap_append, filterMap_read?_eventsOf, List.mem_append,
          List.mem_singleton, hfile]
        rfl
  rw [hreads]
  constructor
  · rintro (hp | hp)
    · exact hlast.opens_of_mem_reads p hp
    · exact ⟨last, hlast, hp⟩
  · rintro ⟨c, hc, hp⟩
    have hunique : Relator.RightUnique w.Turn := fun _ _ _ h₁ h₂ => h₁.unique h₂
    rcases Relation.ReflTransGen.total_of_right_unique hunique hc hlast with hturns | hturns
    · rcases hturns.cases_head with rfl | ⟨next, hnext, hrest⟩
      · exact Or.inr hp
      · exact Or.inl (mem_reads_of_turns hrest (hp.mem_reads hnext))
    · rcases hturns.cases_head with rfl | ⟨next, hnext, -⟩
      · exact Or.inr hp
      · exact absurd hnext (hstopped next)

/-! ## Hosts that agree on what is read -/

/-- The hosts decide everything in the same way, and give the same text to each file that the walk
reads. -/
structure AgreesOnReads (w : Walker) (host' : Host) : Prop where
  parse : host'.parse = w.host.parse
  resolve : host'.resolve = w.host.resolve
  read : ∀ p, w.Opens p → host'.read p = w.host.read p

namespace AgreesOnReads

/-- The next file is the same to both walkers. -/
theorem step (h : w.AgreesOnReads host') {waiting : List Path}
    (hc : w.Reaches ⟨events, s, file :: waiting, entries⟩) :
    (w.on host').step s file = w.step s file := by
  by_cases hpass : w.Passes s file
  · have hpass' : (w.on host').Passes s file := hpass
    rw [step_of_passes hpass, step_of_passes hpass']
  · have hopens : w.Opens file := ⟨_, hc, ⟨waiting, rfl⟩, hpass⟩
    have halike : w.Alike (w.on host') file :=
      ⟨h.read file hopens, h.parse, h.resolve, rfl, rfl, rfl⟩
    have hlocals : ∀ imports, (w.on host').locals file imports = w.locals file imports :=
      fun _ => rfl
    simp only [Walker.step, halike.look, hlocals]
    rfl

theorem turn_iff (h : w.AgreesOnReads host') (hc : w.Reaches c) :
    (w.on host').Turn c c' ↔ w.Turn c c' := by
  constructor
  · intro hturn
    cases hturn with
    | enter => exact .enter
    | skip hskip => exact .skip ((h.step hc).symm.trans hskip)
    | go hgo => exact .go ((h.step hc).symm.trans hgo)
  · intro hturn
    cases hturn with
    | enter => exact .enter
    | skip hskip => exact .skip ((h.step hc).trans hskip)
    | go hgo => exact Turn.go (w := w.on host') ((h.step hc).trans hgo)

/-- Both walks come to the same points, also when they do not end. -/
theorem reaches_iff (h : w.AgreesOnReads host') : (w.on host').Reaches c ↔ w.Reaches c := by
  constructor
  · intro hc
    refine Reaches.induction (w := w.on host') (P := w.Reaches) .refl ?_ hc
    intro c c' hc hturn
    exact hc.tail ((h.turn_iff hc).mp hturn)
  · intro hc
    refine (hc.induction (P := fun c => w.Reaches c ∧ (w.on host').Reaches c)
      ⟨.refl, .refl⟩ ?_).2
    rintro c c' ⟨hc, hc'⟩ hturn
    exact ⟨hc.tail hturn, hc'.tail ((h.turn_iff hc).mpr hturn)⟩

theorem drainWith (h : w.AgreesOnReads host')
    {next next' : List Event → WalkState → List Path → Option Run}
    (hnext : ∀ events s files rest,
      w.Reaches ⟨events, s, (if w.options.recurse then files else []) ++ rest, entries⟩ →
      next' events s (files ++ rest) = next events s (files ++ rest))
    (hc : w.Reaches ⟨events, s, files, entries⟩) :
    (w.on host').drainWith next' events s files = w.drainWith next events s files := by
  induction files generalizing s with
  | nil => rfl
  | cons file rest ih =>
      rw [Walker.drainWith, Walker.drainWith, h.step hc]
      cases hstep : w.step s file with
      | skip s' => exact ih (hc.tail (.skip hstep))
      | stop more s' e => rfl
      | go more s' files => exact hnext _ _ _ _ (hc.tail (.go hstep))

theorem drain (h : w.AgreesOnReads host') (hrec : w.options.recurse = true) (budget : Nat)
    (hc : w.Reaches ⟨events, s, files, entries⟩) :
    (w.on host').drain budget events s files = w.drain budget events s files := by
  induction budget generalizing events s files with
  | zero => exact h.drainWith (fun _ _ _ _ _ => rfl) hc
  | succ budget ih =>
      refine h.drainWith (fun events s files rest hc' => ?_) hc
      rw [if_pos hrec] at hc'
      exact ih hc'

theorem walkEntry (h : w.AgreesOnReads host') (budget : Nat) {entry : Path}
    (hc : w.Reaches ⟨events, s, [], entry :: entries⟩) :
    (w.on host').walkEntry budget events s entry = w.walkEntry budget events s entry := by
  have henter : w.Reaches ⟨events, s, [entry.absolutize w.cwd], entries⟩ := hc.tail .enter
  unfold Walker.walkEntry
  cases hrec : w.options.recurse with
  | true =>
      have hrec' : (w.on host').options.recurse = true := hrec
      rw [if_pos hrec', if_pos rfl]
      exact h.drain hrec budget henter
  | false =>
      have hrec' : ¬ (w.on host').options.recurse = true := by simp [on, hrec]
      rw [if_neg hrec', if_neg Bool.false_ne_true]
      exact h.drainWith (fun _ _ _ _ _ => rfl) henter

theorem walkEntries (h : w.AgreesOnReads host') (budget : Nat)
    (hc : w.Reaches ⟨events, s, [], entries⟩) :
    (w.on host').walkEntries budget events s entries
      = w.walkEntries budget events s entries := by
  induction entries generalizing events s with
  | nil => rfl
  | cons entry more ih =>
      rw [Walker.walkEntries, Walker.walkEntries, h.walkEntry budget hc]
      cases hentry : w.walkEntry budget events s entry with
      | none => rfl
      | some first =>
          obtain ⟨events', result⟩ := first
          cases result with
          | error e => rfl
          | ok s' =>
              -- The next entry is taken up where the search from this one ended.
              obtain ⟨asked, hasked, hsearch⟩ := found_of_walkEntry hentry
              have hturns := turns_of_search_ok hsearch events [] more
              rw [← show events' = events ++ asked from hasked] at hturns
              exact ih ((hc.tail .enter).trans hturns)

theorem walk (h : w.AgreesOnReads host') (budget : Nat) :
    (w.on host').walk budget = w.walk budget :=
  h.walkEntries budget .refl

end AgreesOnReads

/-! ## Unread files -/

/-- **Unread files do not matter.** Hosts that agree on what is read lead a walk to the same points
and to the same run. What is read is never excluded, never a built-in module, and always an entry
or a local import of a file that was loaded before. So it is enough that hosts agree on such
files. -/
theorem unread_files_irrelevant (w : Walker) :
    (∀ host', host'.parse = w.host.parse → host'.resolve = w.host.resolve →
      (∀ p, w.Opens p → host'.read p = w.host.read p) →
      (∀ budget, (w.on host').walk budget = w.walk budget) ∧
      ∀ c, (w.on host').Reaches c ↔ w.Reaches c) ∧
    (∀ budget run, w.walk budget = some run → ∀ p, p ∈ run.reads ↔ w.Opens p) ∧
    (∀ c p, w.Reaches c → w.ReadsAt c p →
      w.exclude.excludes p = false ∧ (w.cwd.isAbsolute = true → p.isAbsolute = true) ∧
      (p ∈ w.starts ∨ ∃ f ∈ c.state.loaded, w.Imports f p)) ∧
    ∀ host', host'.parse = w.host.parse → host'.resolve = w.host.resolve →
      (∀ p, w.exclude.excludes p = false → (w.cwd.isAbsolute = true → p.isAbsolute = true) →
        (p ∈ w.starts ∨ ∃ f, w.Imports f p) → host'.read p = w.host.read p) →
      ∀ budget, (w.on host').walk budget = w.walk budget := by
  refine ⟨fun host' hparse hresolve hread => ?_, fun budget run hwalk p => ?_,
    fun c p hc hp => hc.of_readsAt hp, fun host' hparse hresolve hread => ?_⟩
  · have hagrees : w.AgreesOnReads host' := ⟨hparse, hresolve, hread⟩
    exact ⟨hagrees.walk, fun c => hagrees.reaches_iff⟩
  · exact mem_reads_iff_opens hwalk
  · have hagrees : w.AgreesOnReads host' := by
      refine ⟨hparse, hresolve, ?_⟩
      rintro p ⟨c, hc, hp⟩
      obtain ⟨hex, habs, hleads⟩ := hc.of_readsAt hp
      refine hread p hex habs (hleads.imp_right ?_)
      rintro ⟨f, -, himports⟩
      exact ⟨f, himports⟩
    exact hagrees.walk

def sampleWithoutC : Walker :=
  { sample [⟨"a.js"⟩] true with exclude := { exact := [⟨"/src/c.js"⟩] } }

def sampleLackingC : Host :=
  { Host.sample with
    read := fun p => if p = ⟨"/src/c.js"⟩ then .error .notFound else Host.sample.read p }

/-- In the small project both `a` and `b` import `c`. Once `c` is excluded it can as well be
deleted. -/
theorem unread_files_irrelevant_sample :
    sampleLackingC.read ⟨"/src/c.js"⟩ ≠ Host.sample.read ⟨"/src/c.js"⟩ ∧
    ∃ run, sampleWithoutC.walk 2 = some run ∧ run.reads = [⟨"/src/a.js"⟩, ⟨"/src/b.js"⟩] ∧
      (sampleWithoutC.on sampleLackingC).walk 2 = some run := by
  obtain ⟨hsame, hopens, -, -⟩ := unread_files_irrelevant sampleWithoutC
  obtain ⟨run, hwalk, hreads⟩ : ∃ run, sampleWithoutC.walk 2 = some run ∧
      run.reads = [⟨"/src/a.js"⟩, ⟨"/src/b.js"⟩] := ⟨_, rfl, rfl⟩
  have hread : ∀ p, sampleWithoutC.Opens p → sampleLackingC.read p = Host.sample.read p := by
    intro p hp
    have hmem := (hopens 2 run hwalk p).mpr hp
    rw [hreads] at hmem
    refine if_neg ?_
    rintro rfl
    exact absurd hmem (by decide)
  refine ⟨by decide, run, hwalk, hreads, ?_⟩
  rw [(hsame sampleLackingC rfl rfl hread).1 2, hwalk]

end Walker

end ModuleGraph
