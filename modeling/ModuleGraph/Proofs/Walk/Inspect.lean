import ModuleGraph.Proofs.Facts
import ModuleGraph.Proofs.Path.Clean
import ModuleGraph.Proofs.Path.Order
import ModuleGraph.Walk.Inspect

set_option autoImplicit false

/-! # What a file can turn out to be

The three outcomes of `Walker.inspect`, each with its exact condition on the answers of the
host: a file ends the walk (`Walker.Fails`), or it does not parse and need not, or it has
facts all of whose specifiers lead somewhere. The local imports of a file are those of its
targets that are not library code (`Walker.Imports`); `Walker.locals` lists them, each under
the spelling in which it came first.
-/

namespace ModuleGraph

namespace Walker

variable {w : Walker} {file : Path}

/-! ## Specifiers -/

section Ask

variable {specifier : String} {names : List String} {more : List (String × List String)}

theorem ask_cons_of_ok {target : Path}
    (h : w.host.resolve specifier file.directory = .ok target) :
    w.ask file ((specifier, names) :: more)
      = (.resolve specifier file.directory :: w.asked file more,
          (w.resolveAll file more).map fun targets => (target, names) :: targets) := by
  simp [ask, asked, resolveAll, h]

theorem ask_cons_of_error {reason : String}
    (h : w.host.resolve specifier file.directory = .error reason) :
    w.ask file ((specifier, names) :: more)
      = ([.resolve specifier file.directory], .error (.resolution specifier file reason)) := by
  simp [ask, h]

theorem resolveAll_cons_eq_ok_iff {targets : List (Path × List String)} :
    w.resolveAll file ((specifier, names) :: more) = .ok targets ↔
      ∃ target rest, w.host.resolve specifier file.directory = .ok target
        ∧ w.resolveAll file more = .ok rest ∧ targets = (target, names) :: rest := by
  cases h : w.host.resolve specifier file.directory with
  | error reason => simp [resolveAll, ask_cons_of_error h]
  | ok target =>
      rw [resolveAll, ask_cons_of_ok h]
      cases w.resolveAll file more <;> simp [Except.map, eq_comm]

end Ask

/-- The targets are those of the specifiers, with the names that are taken from each. -/
theorem mem_of_resolveAll {imports : List (String × List String)}
    {targets : List (Path × List String)} (h : w.resolveAll file imports = .ok targets)
    (target : Path) (names : List String) :
    (target, names) ∈ targets ↔
      ∃ specifier, (specifier, names) ∈ imports
        ∧ w.host.resolve specifier file.directory = .ok target := by
  induction imports generalizing targets with
  | nil =>
      cases h
      simp
  | cons entry more ih =>
      obtain ⟨specifier, taken⟩ := entry
      obtain ⟨first, rest, hfirst, hrest, rfl⟩ := resolveAll_cons_eq_ok_iff.mp h
      rw [List.mem_cons, ih hrest]
      constructor
      · rintro (heq | ⟨s, hs, hres⟩)
        · cases heq
          exact ⟨specifier, List.mem_cons_self, hfirst⟩
        · exact ⟨s, List.mem_cons_of_mem _ hs, hres⟩
      · rintro ⟨s, hs, hres⟩
        rcases List.mem_cons.mp hs with heq | hs
        · cases heq
          rw [hfirst] at hres
          cases hres
          exact Or.inl rfl
        · exact Or.inr ⟨s, hs, hres⟩

/-- When all specifiers lead somewhere, each is asked for once, in order. -/
theorem asked_of_resolveAll {imports : List (String × List String)}
    {targets : List (Path × List String)} (h : w.resolveAll file imports = .ok targets) :
    w.asked file imports = imports.map fun i => .resolve i.1 file.directory := by
  induction imports generalizing targets with
  | nil => rfl
  | cons entry more ih =>
      obtain ⟨specifier, taken⟩ := entry
      obtain ⟨first, rest, hfirst, hrest, -⟩ := resolveAll_cons_eq_ok_iff.mp h
      rw [asked, ask_cons_of_ok hfirst, List.map_cons, ← ih hrest]

theorem resolve_of_resolveAll {imports : List (String × List String)}
    {targets : List (Path × List String)} (h : w.resolveAll file imports = .ok targets)
    {specifier : String} {names : List String} (hs : (specifier, names) ∈ imports) :
    ∃ target, w.host.resolve specifier file.directory = .ok target := by
  induction imports generalizing targets with
  | nil => cases hs
  | cons entry more ih =>
      obtain ⟨first, rest, hfirst, hrest, -⟩ := resolveAll_cons_eq_ok_iff.mp h
      rcases List.mem_cons.mp hs with rfl | hs
      · exact ⟨first, hfirst⟩
      · exact ih hrest hs

/-- The error is that of the first specifier that leads nowhere. -/
theorem resolveAll_eq_error_iff {imports : List (String × List String)} {e : GraphError} :
    w.resolveAll file imports = .error e ↔
      ∃ before specifier names after reason,
        imports = before ++ (specifier, names) :: after
          ∧ (∀ i ∈ before, ∃ target, w.host.resolve i.1 file.directory = .ok target)
          ∧ w.host.resolve specifier file.directory = .error reason
          ∧ e = .resolution specifier file reason := by
  induction imports with
  | nil => simp [resolveAll, ask]
  | cons entry more ih =>
      obtain ⟨specifier, taken⟩ := entry
      cases hr : w.host.resolve specifier file.directory with
      | error reason =>
          rw [resolveAll, ask_cons_of_error hr]
          constructor
          · rintro ⟨⟩
            exact ⟨[], specifier, taken, more, reason, rfl, by simp, hr, rfl⟩
          · rintro ⟨before, s, names, after, reason', heq, hbefore, hs, rfl⟩
            cases before with
            | nil =>
                cases heq
                rw [hr] at hs
                cases hs
                rfl
            | cons first rest =>
                cases heq
                obtain ⟨target, ht⟩ := hbefore _ List.mem_cons_self
                rw [hr] at ht
                cases ht
      | ok target =>
          rw [resolveAll, ask_cons_of_ok hr]
          -- The first specifier that leads nowhere is then among the rest.
          have hmap : (Except.map (fun rest => (target, taken) :: rest) (w.resolveAll file more)
              = .error e) ↔ w.resolveAll file more = .error e := by
            cases w.resolveAll file more <;> simp [Except.map]
          simp only [hmap, ih]
          constructor
          · rintro ⟨before, s, names, after, reason, rfl, hbefore, hs, rfl⟩
            refine ⟨(specifier, taken) :: before, s, names, after, reason, rfl, ?_, hs, rfl⟩
            intro i hi
            rcases List.mem_cons.mp hi with rfl | hi
            · exact ⟨target, hr⟩
            · exact hbefore i hi
          · rintro ⟨before, s, names, after, reason, heq, hbefore, hs, rfl⟩
            cases before with
            | nil =>
                cases heq
                rw [hr] at hs
                cases hs
            | cons first rest =>
                cases heq
                exact ⟨rest, s, names, after, reason, rfl,
                  fun i hi => hbefore i (List.mem_cons_of_mem _ hi), hs, rfl⟩

/-! ## Looking at a file -/

theorem look_of_unreadable {e : ReadError} (h : w.host.read file = .error e) :
    w.look file = ([.read file], .broken (.ofRead file e)) := by
  rw [look, h]

theorem look_of_not_parsed {source reason : String} (hread : w.host.read file = .ok source)
    (hparse : w.host.parse file source = .error reason) :
    w.look file = ([.read file],
      if w.options.isStrict file then .broken (.parse file reason) else .unparsed reason) := by
  simp only [look, hread, hparse]

theorem look_of_error {source : String} {facts : Facts} {e : GraphError}
    (hread : w.host.read file = .ok source) (hparse : w.host.parse file source = .ok facts)
    (h : w.resolveAll file facts.imports = .error e) :
    w.look file = (.read file :: w.asked file facts.imports, .broken e) := by
  have hask : w.ask file facts.imports = (w.asked file facts.imports, .error e) := by
    rw [← h]
    rfl
  simp only [look, hread, hparse, hask]

theorem look_of_ok {source : String} {facts : Facts} {imports : List (Path × List String)}
    (hread : w.host.read file = .ok source) (hparse : w.host.parse file source = .ok facts)
    (h : w.resolveAll file facts.imports = .ok imports) :
    w.look file = (.read file :: w.asked file facts.imports, .parsed facts.exports imports) := by
  have hask : w.ask file facts.imports = (w.asked file facts.imports, .ok imports) := by
    rw [← h]
    rfl
  simp only [look, hread, hparse, hask]

theorem look_of_inspect {outcome : Inspection} (h : w.inspect file = outcome) :
    w.look file = (w.eventsOf file, outcome) := by
  rw [← h]
  rfl

/-! ## Outcomes -/

/-- The facts of a file that can be read and that parses. -/
def HasFacts (w : Walker) (file : Path) (facts : Facts) : Prop :=
  ∃ source, w.host.read file = .ok source ∧ w.host.parse file source = .ok facts

/-- The ways in which a file ends a walk, each with the error that it gives. -/
inductive Fails (w : Walker) (file : Path) : GraphError → Prop
  /-- There is no such file. -/
  | missing (hread : w.host.read file = .error .notFound) : Fails w file (.missingFile file)
  /-- The file cannot be read for another reason. -/
  | unreadable {e : ReadError} (hread : w.host.read file = .error e) (he : e ≠ .notFound) :
      Fails w file (.unreadable file e.message)
  /-- The file does not parse, and should. -/
  | unparsed {source reason : String} (hread : w.host.read file = .ok source)
      (hparse : w.host.parse file source = .error reason)
      (hstrict : w.options.isStrict file = true) : Fails w file (.parse file reason)
  /-- A specifier leads nowhere, the first one to do so. -/
  | unresolved {facts : Facts} {before after : List (String × List String)}
      {specifier reason : String} {names : List String} (hfacts : w.HasFacts file facts)
      (himports : facts.imports = before ++ (specifier, names) :: after)
      (hbefore : ∀ i ∈ before, ∃ target, w.host.resolve i.1 file.directory = .ok target)
      (hresolve : w.host.resolve specifier file.directory = .error reason) :
      Fails w file (.resolution specifier file reason)

theorem ofRead_of_ne {e : ReadError} (h : e ≠ .notFound) :
    GraphError.ofRead file e = .unreadable file e.message := by
  cases e with
  | notFound => exact absurd rfl h
  | _ => rfl

theorem inspect_eq_broken_iff {e : GraphError} : w.inspect file = .broken e ↔ w.Fails file e := by
  constructor
  · intro h
    cases hread : w.host.read file with
    | error cause =>
        simp only [inspect, look_of_unreadable hread, Inspection.broken.injEq] at h
        subst h
        by_cases hc : cause = .notFound
        · subst hc
          exact .missing hread
        · rw [ofRead_of_ne hc]
          exact .unreadable hread hc
    | ok source =>
        cases hparse : w.host.parse file source with
        | error reason =>
            simp only [inspect, look_of_not_parsed hread hparse] at h
            split at h
            · cases h
              exact .unparsed hread hparse (by assumption)
            · cases h
        | ok facts =>
            cases hres : w.resolveAll file facts.imports with
            | ok imports => simp [inspect, look_of_ok hread hparse hres] at h
            | error cause =>
                simp only [inspect, look_of_error hread hparse hres, Inspection.broken.injEq] at h
                subst h
                obtain ⟨before, s, names, after, reason, himp, hb, hs, rfl⟩ :=
                  resolveAll_eq_error_iff.mp hres
                exact .unresolved ⟨source, hread, hparse⟩ himp hb hs
  · intro h
    cases h with
    | missing hread => simp [inspect, look_of_unreadable hread, GraphError.ofRead]
    | unreadable hread he => simp [inspect, look_of_unreadable hread, ofRead_of_ne he]
    | unparsed hread hparse hstrict => simp [inspect, look_of_not_parsed hread hparse, hstrict]
    | unresolved hfacts himp hb hs =>
        obtain ⟨source, hread, hparse⟩ := hfacts
        have hres := resolveAll_eq_error_iff.mpr ⟨_, _, _, _, _, himp, hb, hs, rfl⟩
        simp [inspect, look_of_error hread hparse hres]

theorem inspect_eq_unparsed_iff {reason : String} :
    w.inspect file = .unparsed reason ↔
      ∃ source, w.host.read file = .ok source ∧ w.host.parse file source = .error reason
        ∧ w.options.isStrict file = false := by
  cases hread : w.host.read file with
  | error cause => simp [inspect, look_of_unreadable hread]
  | ok source =>
      cases hparse : w.host.parse file source with
      | error cause =>
          cases hstrict : w.options.isStrict file <;>
            simp [inspect, look_of_not_parsed hread hparse, hparse, hstrict]
      | ok facts =>
          cases hres : w.resolveAll file facts.imports with
          | error cause => simp [inspect, look_of_error hread hparse hres, hparse]
          | ok imports => simp [inspect, look_of_ok hread hparse hres, hparse]

theorem inspect_eq_parsed_iff {exports : List String} {imports : List (Path × List String)} :
    w.inspect file = .parsed exports imports ↔
      ∃ facts, w.HasFacts file facts ∧ facts.exports = exports
        ∧ w.resolveAll file facts.imports = .ok imports := by
  unfold HasFacts
  cases hread : w.host.read file with
  | error cause => simp [inspect, look_of_unreadable hread]
  | ok source =>
      cases hparse : w.host.parse file source with
      | error cause =>
          cases hstrict : w.options.isStrict file <;>
            simp [inspect, look_of_not_parsed hread hparse, hparse, hstrict]
      | ok facts =>
          cases hres : w.resolveAll file facts.imports with
          | error cause => simp [inspect, look_of_error hread hparse hres, hparse, hres]
          | ok imports => simp [inspect, look_of_ok hread hparse hres, hparse, hres]

theorem hasFacts_of_parsed {exports : List String} {imports : List (Path × List String)}
    (h : w.inspect file = .parsed exports imports) : ∃ facts, w.HasFacts file facts := by
  obtain ⟨facts, hfacts, -⟩ := inspect_eq_parsed_iff.mp h
  exact ⟨facts, hfacts⟩

theorem not_hasFacts_of_unparsed {reason : String} {facts : Facts}
    (h : w.inspect file = .unparsed reason) : ¬ w.HasFacts file facts := by
  obtain ⟨source, hread, hparse, -⟩ := inspect_eq_unparsed_iff.mp h
  rintro ⟨source', hread', hparse'⟩
  rw [hread] at hread'
  cases hread'
  rw [hparse] at hparse'
  cases hparse'

/-- A file has only one set of facts. -/
theorem HasFacts.unique {facts facts' : Facts} (h : w.HasFacts file facts)
    (h' : w.HasFacts file facts') : facts = facts' := by
  obtain ⟨source, hread, hparse⟩ := h
  obtain ⟨source', hread', hparse'⟩ := h'
  rw [hread] at hread'
  cases hread'
  rw [hparse] at hparse'
  cases hparse'
  rfl

/-- The questions about a file that parses. -/
theorem eventsOf_of_hasFacts {facts : Facts} (h : w.HasFacts file facts) :
    w.eventsOf file = .read file :: w.asked file facts.imports := by
  obtain ⟨source, hread, hparse⟩ := h
  cases hres : w.resolveAll file facts.imports with
  | error e => rw [eventsOf, look_of_error hread hparse hres]
  | ok imports => rw [eventsOf, look_of_ok hread hparse hres]

/-- A file without facts is read, and nothing else is asked. -/
theorem eventsOf_of_not_hasFacts (h : ¬ ∃ facts, w.HasFacts file facts) :
    w.eventsOf file = [.read file] := by
  cases hread : w.host.read file with
  | error e => rw [eventsOf, look_of_unreadable hread]
  | ok source =>
      cases hparse : w.host.parse file source with
      | error reason => rw [eventsOf, look_of_not_parsed hread hparse]
      | ok facts => exact absurd ⟨facts, source, hread, hparse⟩ h

theorem read_mem_eventsOf (w : Walker) (file : Path) : .read file ∈ w.eventsOf file := by
  by_cases h : ∃ facts, w.HasFacts file facts
  · obtain ⟨facts, hfacts⟩ := h
    rw [eventsOf_of_hasFacts hfacts]
    exact List.mem_cons_self
  · rw [eventsOf_of_not_hasFacts h]
    exact List.mem_cons_self

/-- A file that is loaded is read once, and then each of its specifiers is asked for once. -/
theorem eventsOf_of_parsed {exports : List String} {imports : List (Path × List String)}
    {facts : Facts} (h : w.inspect file = .parsed exports imports) (hf : w.HasFacts file facts) :
    w.eventsOf file = .read file :: facts.specifiers.map (.resolve · file.directory) := by
  obtain ⟨facts', hf', -, hres⟩ := inspect_eq_parsed_iff.mp h
  obtain rfl := hf.unique hf'
  rw [eventsOf_of_hasFacts hf, asked_of_resolveAll hres]
  simp [Facts.specifiers]

end Walker

/-! ## First occurrences -/

def keepNew (kept : List Path) (p : Path) : List Path :=
  if kept.any (·.same p) then kept else kept ++ [p]

theorem firstOccurrences_eq_foldl (ps : List Path) : firstOccurrences ps = ps.foldl keepNew [] :=
  rfl

theorem mem_of_mem_foldl_keepNew {ps kept : List Path} {p : Path}
    (h : p ∈ ps.foldl keepNew kept) : p ∈ kept ∨ p ∈ ps := by
  induction ps generalizing kept with
  | nil => exact Or.inl h
  | cons q rest ih =>
      rcases ih h with hk | hr
      · unfold keepNew at hk
        split at hk
        · exact Or.inl hk
        · rcases List.mem_append.mp hk with hk | hq
          · exact Or.inl hk
          · exact Or.inr (by simp_all)
      · exact Or.inr (List.mem_cons_of_mem _ hr)

theorem mem_foldl_keepNew {ps kept : List Path} {p : Path} (h : p ∈ kept) :
    p ∈ ps.foldl keepNew kept := by
  induction ps generalizing kept with
  | nil => exact h
  | cons q rest ih =>
      refine ih ?_
      unfold keepNew
      split
      · exact h
      · exact List.mem_append_left _ h

theorem exists_same_mem_foldl_keepNew {ps kept : List Path} {p : Path} (h : p ∈ ps) :
    ∃ q ∈ ps.foldl keepNew kept, q.same p = true := by
  induction ps generalizing kept with
  | nil => cases h
  | cons r rest ih =>
      rcases List.mem_cons.mp h with rfl | hr
      · have : ∃ q ∈ keepNew kept p, q.same p = true := by
          unfold keepNew
          split
          · rename_i hany
            simpa using hany
          · exact ⟨p, by simp, Path.same_refl p⟩
        obtain ⟨q, hq, hsame⟩ := this
        rw [List.foldl_cons]
        exact ⟨q, mem_foldl_keepNew hq, hsame⟩
      · exact ih hr

/-! ## Local imports -/

namespace Walker

variable {w : Walker} {file : Path}

/-- `w.Imports file target`: a specifier of the file leads to the target, which is not library
code as seen from the file. -/
def Imports (w : Walker) (file target : Path) : Prop :=
  ∃ facts specifier names, w.HasFacts file facts ∧ (specifier, names) ∈ facts.imports
    ∧ w.host.resolve specifier file.directory = .ok target
    ∧ file.isLibrary target w.options.libraryDirs = false

/-- What is not library code is absolute. -/
theorem isAbsolute_of_not_isLibrary {target : Path} {dirs : List String}
    (h : file.isLibrary target dirs = false) : target.isAbsolute = true := by
  unfold Path.isLibrary at h
  split at h
  · assumption
  · cases h

theorem imports_of_mem_locals {exports : List String} {imports : List (Path × List String)}
    {target : Path} (h : w.inspect file = .parsed exports imports)
    (ht : target ∈ w.locals file imports) : w.Imports file target := by
  obtain ⟨facts, hfacts, -, hres⟩ := inspect_eq_parsed_iff.mp h
  rw [locals, firstOccurrences_eq_foldl] at ht
  have hmem := (mem_of_mem_foldl_keepNew ht).resolve_left List.not_mem_nil
  obtain ⟨hmem, hlib⟩ := List.mem_filter.mp hmem
  obtain ⟨⟨_, names⟩, hentry, rfl⟩ := List.mem_map.mp hmem
  obtain ⟨specifier, hs, hr⟩ := (mem_of_resolveAll hres _ names).mp hentry
  exact ⟨facts, specifier, names, hfacts, hs, hr, by simpa using hlib⟩

/-- Every local import is listed under some spelling. -/
theorem exists_mem_locals_of_imports {exports : List String}
    {imports : List (Path × List String)} {target : Path}
    (h : w.inspect file = .parsed exports imports) (ht : w.Imports file target) :
    ∃ p ∈ w.locals file imports, p.same target = true := by
  obtain ⟨facts, hfacts, -, hres⟩ := inspect_eq_parsed_iff.mp h
  obtain ⟨facts', specifier, names, hfacts', hs, hr, hlib⟩ := ht
  obtain rfl := hfacts.unique hfacts'
  have hentry := (mem_of_resolveAll hres target names).mpr ⟨specifier, hs, hr⟩
  rw [locals, firstOccurrences_eq_foldl]
  refine exists_same_mem_foldl_keepNew (List.mem_filter.mpr ⟨?_, by simpa using hlib⟩)
  exact List.mem_map.mpr ⟨_, hentry, rfl⟩

end Walker

/-! ## Clean hosts -/

/-- Whatever absolute path a specifier leads to is in normal form. -/
def Host.ResolvesCleanly (host : Host) : Prop :=
  ∀ specifier directory target, host.resolve specifier directory = .ok target →
    target.isAbsolute = true → target.IsClean

theorem Walker.Imports.isClean {w : Walker} {file target : Path} (hw : w.host.ResolvesCleanly)
    (h : w.Imports file target) : target.IsClean := by
  obtain ⟨facts, specifier, names, -, -, hr, hlib⟩ := h
  exact hw _ _ _ hr (Walker.isAbsolute_of_not_isLibrary hlib)

/-! ## A small project -/

/-- A project in which `a` and `b` import each other, `c` does not parse, and `e` imports a file
that is not there. The text of a file is its own path. -/
def Host.sample : Host where
  read file :=
    if file.text ∈ ["/src/a.js", "/src/b.js", "/src/c.js", "/src/e.js"] then .ok file.text
    else .error .notFound
  parse _ source :=
    if source = "/src/a.js" then
      .ok { exports := ["default"], imports := [("./b", ["x"]), ("./c", []), ("fs", ["*"])] }
    else if source = "/src/b.js" then
      .ok { exports := ["x", "x"], imports := [("./a", ["default"]), ("./c", ["y"])] }
    else if source = "/src/e.js" then .ok { imports := [("./a", []), ("./d", ["z"])] }
    else .error "unexpected token"
  resolve specifier _ :=
    if specifier = "./a" then .ok ⟨"/src/a.js"⟩
    else if specifier = "./b" then .ok ⟨"/src/b.js"⟩
    else if specifier = "./c" then .ok ⟨"/src/c.js"⟩
    else if specifier = "./d" then .ok ⟨"/src/d.js"⟩
    else if specifier = "fs" then .ok ⟨"fs"⟩
    else .error "no such module"

theorem Host.resolvesCleanly_sample : Host.sample.ResolvesCleanly := by
  intro specifier directory target h _
  simp only [Host.sample] at h
  repeat' split at h
  all_goals cases h <;> decide

def Walker.sample (files : List Path) (recurse : Bool) : Walker where
  host := Host.sample
  options := { files, recurse, strictExtensions := [] }
  exclude := {}
  cwd := ⟨"/src"⟩

end ModuleGraph
