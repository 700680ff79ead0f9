import Mathlib.Data.List.Basic
import ModuleGraph.Proofs.Walk.Termination

set_option autoImplicit false

/-! # Which error ends a walk

A walk fails exactly when it comes to a file that fails (`Walker.Reached`, `Walker.Fails`).
When there are several, the first one in depth-first order decides. This order is stated
without a search: a simple route leads from an entry along local imports to a file, and routes
are compared at the first place where they part, by the order of declaration there
(`Walker.Precedes`). The error of a walk is that of the failing file with the first simple
route (`Walker.FirstFailure`).

What a successful part of a search has done cannot be on a simple route that ends in a failure
and avoids what was done before (`FailingRoute.avoids`), so the part can be left out when the
first route is looked for; this carries the induction of `Search.firstRoute`.
-/

namespace ModuleGraph

namespace Walker

variable {w : Walker} {s s' : WalkState} {file f g : Path} {files choices rest route : List Path}
  {events : List Event} {e : GraphError}

/-! ## Files that a walk comes to -/

/-- The file can be read, it parses, and all its specifiers lead somewhere. -/
def Intact (w : Walker) (file : Path) : Prop :=
  ∃ facts, w.HasFacts file facts ∧
    ∀ specifier ∈ facts.specifiers, ∃ target, w.host.resolve specifier file.directory = .ok target

theorem intact_of_parsed {exports : List String} {imports : List (Path × List String)}
    (h : w.inspect file = .parsed exports imports) : w.Intact file := by
  obtain ⟨facts, hfacts, -, hres⟩ := inspect_eq_parsed_iff.mp h
  refine ⟨facts, hfacts, fun specifier hs => ?_⟩
  obtain ⟨⟨_, names⟩, hmem, rfl⟩ := List.mem_map.mp hs
  exact resolve_of_resolveAll hres hmem

theorem Intact.parsed (h : w.Intact file) :
    ∃ exports imports, w.inspect file = .parsed exports imports := by
  obtain ⟨facts, hfacts, hall⟩ := h
  cases hres : w.resolveAll file facts.imports with
  | ok imports => exact ⟨_, imports, inspect_eq_parsed_iff.mpr ⟨facts, hfacts, rfl, hres⟩⟩
  | error e =>
      obtain ⟨before, specifier, names, after, reason, himports, -, hfails, -⟩ :=
        resolveAll_eq_error_iff.mp hres
      obtain ⟨target, ht⟩ := hall specifier (by simp [Facts.specifiers, himports])
      rw [hfails] at ht
      cases ht

/-- The files that a walk comes to: the entries and, with recursion, the local imports of
intact files, as far as they are not excluded. -/
inductive Reached (w : Walker) : Path → Prop
  | entry {file : Path} (hfile : file ∈ w.starts) (hex : w.exclude.excludes file = false) :
      Reached w file
  | imported {file target : Path} (hrec : w.options.recurse = true) (hfile : Reached w file)
      (hintact : w.Intact file) (himports : w.Imports file target)
      (hex : w.exclude.excludes target = false) : Reached w target

theorem Reached.isClean (hw : w.host.ResolvesCleanly) (h : w.Reached file) : file.IsClean := by
  cases h with
  | entry hfile _ => exact isClean_starts hfile
  | imported _ _ _ himports _ => exact himports.isClean hw

theorem Reached.follow (h : w.Reached file) (hg : g ∈ w.follow file)
    (hex : w.exclude.excludes g = false) : w.Reached g := by
  have himports := imports_of_mem_follow hg
  unfold Walker.follow localsOf at hg
  split at hg
  · rename_i hrec
    split at hg
    · rename_i hparsed
      exact .imported hrec h (intact_of_parsed hparsed) himports hex
    · cases hg
  · cases hg

/-- A successful walk is done with all files that it comes to. -/
theorem Search.isDone_of_reached (hw : w.host.ResolvesCleanly)
    (h : w.Search {} w.starts events (.ok s)) (hf : w.Reached f) : s.isDone f = true := by
  induction hf with
  | entry hfile hex => exact (h.covers _ hfile).resolve_right (by simp [hex])
  | imported hrec hfile hintact himports hex ih =>
      obtain ⟨exports, imports, hparsed⟩ := hintact.parsed
      have hsettled := h.settled hw (fun _ => isClean_starts) (hfile.isClean hw) rfl ih
      have hfollow := mem_follow_of_imports hw hrec hparsed himports
      exact (hsettled.follow _ hfollow).resolve_right (by simp [hex])

theorem Search.not_fails_of_reached (hw : w.host.ResolvesCleanly)
    (h : w.Search {} w.starts events (.ok s)) (hf : w.Reached f) : ¬ w.Fails f e := by
  have hdone := h.isDone_of_reached hw hf
  exact (h.settled hw (fun _ => isClean_starts) (hf.isClean hw) rfl hdone).notFails e

/-! ## Routes and their order -/

/-- `w.FailingRoute choices route f e`: the route starts with one of the choices, goes on along
local imports without excluded files and without coming back, and ends in the file `f`, which
fails with the error `e`. -/
inductive FailingRoute (w : Walker) : List Path → List Path → Path → GraphError → Prop
  | last {choices : List Path} {f : Path} {e : GraphError} (hf : f ∈ choices)
      (hex : w.exclude.excludes f = false) (hfails : w.Fails f e) : FailingRoute w choices [f] f e
  | step {choices route : List Path} {file f : Path} {e : GraphError} (hfile : file ∈ choices)
      (hex : w.exclude.excludes file = false) (hnew : file ∉ route)
      (hroute : FailingRoute w (w.follow file) route f e) :
      FailingRoute w choices (file :: route) f e

/-- The order of routes. Of two routes that part, the one comes first whose next file is
declared first; a route comes before those that go on from its end. -/
def Precedes (w : Walker) : List Path → List Path → List Path → Prop
  | _, _, [] => False
  | _, [], _ :: _ => True
  | choices, a :: p, b :: q =>
    choices.idxOf a < choices.idxOf b ∨ a = b ∧ w.Precedes (w.follow a) p q

theorem Precedes.asymm {p q : List Path} (h : w.Precedes choices p q) :
    ¬ w.Precedes choices q p := by
  induction p generalizing choices q with
  | nil =>
      cases q with
      | nil => exact h.elim
      | cons b q => exact fun h' => h'
  | cons a p ih =>
      cases q with
      | nil => exact h.elim
      | cons b q =>
          rintro (hlt' | ⟨rfl, h'⟩)
          · rcases h with hlt | ⟨rfl, -⟩
            · exact Nat.lt_asymm hlt hlt'
            · exact Nat.lt_irrefl _ hlt'
          · rcases h with hlt | ⟨-, h⟩
            · exact Nat.lt_irrefl _ hlt
            · exact ih h h'

/-- A choice that neither route starts with does not matter. -/
theorem Precedes.cons {a b : Path} {p q : List Path} (h : w.Precedes rest (a :: p) (b :: q))
    (ha : a ≠ file) (hb : b ≠ file) : w.Precedes (file :: rest) (a :: p) (b :: q) := by
  refine Or.imp_left (fun hlt => ?_) h
  rw [List.idxOf_cons_ne _ (Ne.symm ha), List.idxOf_cons_ne _ (Ne.symm hb)]
  exact Nat.succ_lt_succ hlt

/-- Routes that start with the first choice come before all others. -/
theorem precedes_of_ne {b : Path} {p q : List Path} (hb : b ≠ file) :
    w.Precedes (file :: rest) (file :: p) (b :: q) := by
  refine Or.inl ?_
  rw [List.idxOf_cons_self, List.idxOf_cons_ne _ (Ne.symm hb)]
  exact Nat.succ_pos _

namespace FailingRoute

theorem head (h : w.FailingRoute choices route f e) :
    ∃ a p, route = a :: p ∧ a ∈ choices ∧ w.exclude.excludes a = false := by
  cases h with
  | last hf hex _ => exact ⟨_, _, rfl, hf, hex⟩
  | step hfile hex _ _ => exact ⟨_, _, rfl, hfile, hex⟩

theorem mono {choices' : List Path} (h : w.FailingRoute choices route f e)
    (hsub : ∀ x ∈ choices, x ∈ choices' ∨ x ∉ route) : w.FailingRoute choices' route f e := by
  cases h with
  | last hf hex hfails => exact .last ((hsub _ hf).resolve_right (by simp)) hex hfails
  | step hfile hex hnew hroute =>
      exact .step ((hsub _ hfile).resolve_right (by simp)) hex hnew hroute

theorem not_excluded (h : w.FailingRoute choices route f e) :
    ∀ x ∈ route, w.exclude.excludes x = false := by
  induction h with
  | last _ hex _ => simpa using hex
  | step _ hex _ _ ih => exact List.forall_mem_cons.mpr ⟨hex, ih⟩

theorem isClean (hw : w.host.ResolvesCleanly) (h : w.FailingRoute choices route f e)
    (hchoices : ∀ x ∈ choices, x.IsClean) : ∀ x ∈ route, x.IsClean := by
  induction h with
  | last hf _ _ => simpa using hchoices _ hf
  | step hfile _ _ _ ih =>
      exact List.forall_mem_cons.mpr ⟨hchoices _ hfile, ih fun x => isClean_follow hw⟩

theorem reached (h : w.FailingRoute choices route f e)
    (hchoices : ∀ x ∈ choices, w.exclude.excludes x = false → w.Reached x) :
    w.Reached f ∧ w.Fails f e := by
  induction h with
  | last hf hex hfails => exact ⟨hchoices _ hf hex, hfails⟩
  | step hfile hex _ _ ih => exact ih fun x hx => (hchoices _ hfile hex).follow hx

end FailingRoute

/-- No file of the route is done. -/
def Avoids (s : WalkState) (route : List Path) : Prop := ∀ x ∈ route, s.isDone x = false

theorem Avoids.of_search (hroute : Avoids s' route) (h : w.Search s files events (.ok s')) :
    Avoids s route := fun x hx => h.isDone_eq_false (hroute x hx)

theorem FailingRoute.not_mem_of_passes (h : w.FailingRoute choices route f e)
    (hroute : Avoids s route) (hpass : w.Passes s file) : file ∉ route := by
  intro hfile
  simp [Passes, hroute file hfile, h.not_excluded file hfile] at hpass

/-- A simple route does not come back to a file that was just taken. -/
theorem Avoids.takes (hroute : Avoids s route) (h : w.Takes s file s') (hnew : file ∉ route)
    (hfile : file.IsClean) (hclean : ∀ x ∈ route, x.IsClean) : Avoids s' route := by
  intro x hx
  rw [h.isDone, hroute x hx, Bool.or_false, ← Bool.not_eq_true]
  intro hsame
  obtain rfl := hfile.eq_of_same (hclean x hx) hsame
  exact hnew hx

/-- A route that ends in a failure does not touch what a successful search has added. -/
theorem FailingRoute.avoids (hw : w.host.ResolvesCleanly) (hs : w.Search s files events (.ok s'))
    (hfiles : ∀ x ∈ files, x.IsClean) (h : w.FailingRoute choices route f e)
    (hchoices : ∀ x ∈ choices, x.IsClean) (hroute : Avoids s route) : Avoids s' route := by
  have hsettled : ∀ x : Path, x.IsClean → s.isDone x = false → s'.isDone x = true →
      w.Settled s' x := fun x => hs.settled hw hfiles
  induction h with
  | @last choices f e hf hex hfails =>
      intro x hx
      obtain rfl := List.mem_singleton.mp hx
      rw [← Bool.not_eq_true]
      exact fun hdone => (hsettled x (hchoices x hf) (hroute x hx) hdone).notFails e hfails
  | @step choices route file f e hfile hex hnew hrest ih =>
      have hrest' : Avoids s' route :=
        ih (fun x => isClean_follow hw) fun x hx => hroute x (List.mem_cons_of_mem _ hx)
      intro x hx
      rcases List.mem_cons.mp hx with rfl | hx
      · rw [← Bool.not_eq_true]
        intro hdone
        -- The next file of the route would be done or excluded, and it is neither.
        obtain ⟨a, p, rfl, ha, haex⟩ := hrest.head
        have hpass := (hsettled x (hchoices x hfile) (hroute x hx) hdone).follow a ha
        simp [Passes, hrest' a List.mem_cons_self, haex] at hpass
      · exact hrest' x hx

/-! ## The first route -/

/-- Of the routes that avoid what is done, the first that ends in a failure. -/
structure FirstRoute (w : Walker) (s : WalkState) (choices route : List Path) (f : Path)
    (e : GraphError) : Prop where
  failing : w.FailingRoute choices route f e
  avoids : Avoids s route
  first : ∀ route' f' e', w.FailingRoute choices route' f' e' → Avoids s route' →
    route' = route ∨ w.Precedes choices route route'

/-- A first choice that is passed over in the end does not matter. -/
theorem FirstRoute.cons (h : w.FirstRoute s' rest route f e) (hpass : w.Passes s' file)
    (hmono : ∀ route, Avoids s' route → Avoids s route)
    (havoids : ∀ route f e, w.FailingRoute (file :: rest) route f e → Avoids s route →
      Avoids s' route) : w.FirstRoute s (file :: rest) route f e := by
  have hcons : w.FailingRoute (file :: rest) route f e :=
    h.failing.mono fun x hx => Or.inl (List.mem_cons_of_mem _ hx)
  refine ⟨hcons, hmono route h.avoids, fun route' f' e' hroute' hs => ?_⟩
  have hs' := havoids route' f' e' hroute' hs
  have hnew := hcons.not_mem_of_passes h.avoids hpass
  have hnew' := hroute'.not_mem_of_passes hs' hpass
  have hrest : w.FailingRoute rest route' f' e' := by
    refine hroute'.mono fun x hx => ?_
    rcases List.mem_cons.mp hx with rfl | hx
    · exact Or.inr hnew'
    · exact Or.inl hx
  refine (h.first route' f' e' hrest hs').imp_right fun hprec => ?_
  obtain ⟨a, p, rfl, -⟩ := h.failing.head
  obtain ⟨b, q, rfl, -⟩ := hrest.head
  exact hprec.cons (List.ne_of_not_mem_cons hnew).symm (List.ne_of_not_mem_cons hnew').symm

/-- A file that fails is its own first route. -/
theorem firstRoute_of_fails (hnew : ¬ w.Passes s file) (hfails : w.Fails file e) :
    w.FirstRoute s (file :: rest) [file] file e := by
  refine ⟨.last List.mem_cons_self (not_excludes_of_not_passes hnew) hfails, ?_, ?_⟩
  · intro x hx
    rw [List.mem_singleton.mp hx]
    exact not_isDone_of_not_passes hnew
  · intro route' f' e' hroute' _
    obtain ⟨b, q, rfl, -⟩ := hroute'.head
    by_cases hb : b = file
    · subst hb
      cases q with
      | nil => exact Or.inl rfl
      | cons c q => exact Or.inr (Or.inr ⟨rfl, trivial⟩)
    · exact Or.inr (precedes_of_ne hb)

/-- The first route from a file that was taken goes on with the first of its imports. -/
theorem FirstRoute.step (hw : w.host.ResolvesCleanly) (hnew : ¬ w.Passes s file)
    (htakes : w.Takes s file s') (hfile : file.IsClean)
    (h : w.FirstRoute s' (w.follow file) route f e) :
    w.FirstRoute s (file :: rest) (file :: route) f e := by
  have hsimple : file ∉ route := h.failing.not_mem_of_passes h.avoids htakes.passes
  refine ⟨.step List.mem_cons_self (not_excludes_of_not_passes hnew) hsimple h.failing, ?_, ?_⟩
  · refine List.forall_mem_cons.mpr ⟨not_isDone_of_not_passes hnew, fun x hx => ?_⟩
    have hx' := h.avoids x hx
    rw [htakes.isDone, Bool.or_eq_false_iff] at hx'
    exact hx'.2
  · intro route' f' e' hroute' hs
    cases hroute' with
    | last hf hex hfails =>
        refine Or.inr (precedes_of_ne ?_)
        rintro rfl
        exact htakes.not_fails hfails
    | @step _ q b _ _ hb hex hsimple' hq =>
        by_cases heq : b = file
        · subst heq
          have hclean := hq.isClean hw fun x => isClean_follow hw
          have hq' : Avoids s q := fun x hx => hs x (List.mem_cons_of_mem _ hx)
          rcases h.first q f' e' hq (hq'.takes htakes hsimple' hfile hclean) with rfl | hprec
          · exact Or.inl rfl
          · exact Or.inr (Or.inr ⟨rfl, hprec⟩)
        · exact Or.inr (precedes_of_ne heq)

/-- **The error of a search is that of the first route.** -/
theorem Search.firstRoute (hw : w.host.ResolvesCleanly) (h : w.Search s files events (.error e))
    (hfiles : ∀ x ∈ files, x.IsClean) : ∃ route f, w.FirstRoute s files route f e := by
  induction h using Search.error_induction with
  | @skip s file rest _ hpass _ ih =>
      obtain ⟨route, f, hroute⟩ := ih fun x hx => hfiles x (List.mem_cons_of_mem _ hx)
      exact ⟨route, f, hroute.cons hpass (fun _ h => h) (fun _ _ _ _ h => h)⟩
  | stop hnew hfails => exact ⟨_, _, firstRoute_of_fails hnew hfails⟩
  | fail hnew htakes _ ih =>
      obtain ⟨route, f, hroute⟩ := ih fun x => isClean_follow hw
      exact ⟨_, f, hroute.step hw hnew htakes (hfiles _ List.mem_cons_self)⟩
  | @go s s₁ s₂ file rest _ _ hnew htakes hsub _ ih =>
      obtain ⟨route, f, hroute⟩ := ih fun x hx => hfiles x (List.mem_cons_of_mem _ hx)
      have hpart := Search.go hnew htakes hsub (.nil s₂)
      have hclean : ∀ x ∈ [file], x.IsClean := by simpa using hfiles file List.mem_cons_self
      refine ⟨route, f, hroute.cons (hsub.passes_mono htakes.passes) ?_ ?_⟩
      · exact fun route hs₂ => hs₂.of_search hpart
      · exact fun route f e hroute hs => hroute.avoids hw hpart hclean hfiles hs

/-! ## The error of a walk -/

/-- The file `f` is the first to fail, in depth-first order from the entries, and fails with
the error `e`. -/
def FirstFailure (w : Walker) (f : Path) (e : GraphError) : Prop :=
  ∃ route, w.FailingRoute w.starts route f e ∧
    ∀ route' f' e', w.FailingRoute w.starts route' f' e' →
      route' = route ∨ w.Precedes w.starts route route'

theorem FirstFailure.reached (h : w.FirstFailure f e) : w.Reached f ∧ w.Fails f e := by
  obtain ⟨route, hroute, -⟩ := h
  exact hroute.reached fun x => .entry

theorem FirstRoute.firstFailure (h : w.FirstRoute {} w.starts route f e) : w.FirstFailure f e :=
  ⟨route, h.failing, fun route' f' e' hroute' => h.first route' f' e' hroute' fun _ _ => rfl⟩

theorem Fails.unique {e' : GraphError} (h : w.Fails f e) (h' : w.Fails f e') : e = e' := by
  rw [← inspect_eq_broken_iff] at h h'
  rw [h] at h'
  injection h'

/-- A route has one end. -/
theorem FailingRoute.unique {f' : Path} {e' : GraphError} (h : w.FailingRoute choices route f e)
    (h' : w.FailingRoute choices route f' e') : f = f' ∧ e = e' := by
  induction h generalizing f' e' with
  | last hf hex hfails =>
      cases h' with
      | last _ _ hfails' => exact ⟨rfl, hfails.unique hfails'⟩
      | step _ _ _ hroute' => cases hroute'
  | step _ _ _ hroute ih =>
      cases h' with
      | last _ _ _ => cases hroute
      | step _ _ _ hroute' => exact ih hroute'

theorem FirstFailure.unique {f' : Path} {e' : GraphError} (h : w.FirstFailure f e)
    (h' : w.FirstFailure f' e') : f = f' ∧ e = e' := by
  obtain ⟨route, hroute, hfirst⟩ := h
  obtain ⟨route', hroute', hfirst'⟩ := h'
  have heq : route' = route := by
    rcases hfirst route' f' e' hroute' with heq | hprec
    · exact heq
    · exact (hfirst' route f e hroute).elim Eq.symm fun hprec' => absurd hprec' hprec.asymm
  subst heq
  exact hroute.unique hroute'

/-- The run fails exactly when the walk comes to a file that fails, and its error is that of the
first such file. -/
structure FailsFirst (w : Walker) (run : Run) : Prop where
  fails_iff : (∃ e, run.result = .error e) ↔ ∃ f e, w.Reached f ∧ w.Fails f e
  error_iff : ∀ e, run.result = .error e ↔ ∃ f, w.FirstFailure f e

/-- **A walk that ends fails with the error of the first file that fails.** -/
theorem failsFirst_of_walk (hw : w.host.ResolvesCleanly) {budget : Nat} {run : Run}
    (h : w.walk budget = some run) : w.FailsFirst run := by
  have hsearch := search_of_walk h
  cases hresult : run.result with
  | error e =>
      rw [hresult] at hsearch
      obtain ⟨route, f, hroute⟩ := hsearch.firstRoute hw fun x => isClean_starts
      have hfirst := hroute.firstFailure
      refine ⟨⟨fun _ => ⟨f, e, hfirst.reached⟩, fun _ => ⟨e, hresult⟩⟩, fun e' => ?_⟩
      rw [hresult]
      constructor
      · rintro ⟨⟩
        exact ⟨f, hfirst⟩
      · rintro ⟨f', hfirst'⟩
        rw [(hfirst.unique hfirst').2]
  | ok s =>
      rw [hresult] at hsearch
      have hnone : ∀ f e, w.Reached f → ¬ w.Fails f e :=
        fun f e hf => hsearch.not_fails_of_reached hw hf
      refine ⟨⟨?_, ?_⟩, fun e => ⟨?_, ?_⟩⟩
      · rintro ⟨e, herror⟩
        rw [hresult] at herror
        cases herror
      · rintro ⟨f, e, hf, hfails⟩
        exact absurd hfails (hnone f e hf)
      · intro herror
        rw [hresult] at herror
        cases herror
      · rintro ⟨f, hfirst⟩
        exact absurd hfirst.reached.2 (hnone f e hfirst.reached.1)

/-- A file that does not parse and need not does not fail. -/
theorem not_fails_of_lenient {source reason : String} (hread : w.host.read f = .ok source)
    (hparse : w.host.parse f source = .error reason) (hlenient : w.options.isStrict f = false) :
    ¬ w.Fails f e := by
  rw [← inspect_eq_broken_iff, inspect_eq_unparsed_iff.mpr ⟨source, hread, hparse, hlenient⟩]
  simp

end Walker

end ModuleGraph
