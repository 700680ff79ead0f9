import ModuleGraph.Proofs.Glob.Nesting
import ModuleGraph.Proofs.Path.Order

set_option autoImplicit false

/-! # A filter excludes what one of its patterns excludes

The patterns of a list are collected one by one, up to the first one that is no glob. Then their
globs are compiled together, and when the set is refused, the error names all of the patterns
(`Exclude.compileWith_eq_ok_iff`, `Exclude.compileWith_eq_error_iff`).

A set of globs is refused exactly when one of them is (`Glob.setFault?_eq_none_iff`). So a list
compiles exactly when each of its patterns does (`Exclude.exists_compile_iff`), and the filter of a
list excludes a path exactly when the filter of one of its patterns does
(`Exclude.excludes_compile_iff`). The laws of the whole are in `Exclude.filter_is_disjunction`.
-/

namespace ModuleGraph

namespace Exclude

variable {filter filter' : Exclude} {pattern : String} {patterns patterns' : List String}
  {base p q : Path}

/-! ## Collecting patterns -/

/-- A name, or a glob that can be read. -/
def IsWellFormed (pattern : String) : Prop :=
  '*' ∈ pattern.toList → ∃ glob, Glob.parse pattern = .ok glob

def namesOf (patterns : List String) : List Path :=
  (patterns.filter fun pattern => !isGlob pattern).map Path.mk

/-- The globs among some patterns, as far as they can be read. -/
def globsOf (patterns : List String) : List Glob :=
  (patterns.filter isGlob).filterMap fun pattern => (Glob.parse pattern).toOption

theorem isGlob_iff : isGlob pattern = true ↔ '*' ∈ pattern.toList := List.contains_iff_mem

theorem not_isWellFormed_iff :
    ¬IsWellFormed pattern ↔
      '*' ∈ pattern.toList ∧ ∃ cause, Glob.parse pattern = .error cause := by
  unfold IsWellFormed
  cases Glob.parse pattern <;> simp

theorem namesOf_cons (pattern : String) (patterns : List String) :
    namesOf (pattern :: patterns) = namesOf [pattern] ++ namesOf patterns := by
  by_cases hglob : isGlob pattern = true <;> simp [namesOf, hglob]

theorem globsOf_cons (pattern : String) (patterns : List String) :
    globsOf (pattern :: patterns) = globsOf [pattern] ++ globsOf patterns := by
  simp only [globsOf, ← List.filterMap_append, ← List.filter_append, List.singleton_append]

theorem add_of_isWellFormed (h : IsWellFormed pattern) :
    add filter pattern
      = .ok ⟨filter.exact ++ namesOf [pattern], filter.globs ++ globsOf [pattern]⟩ := by
  by_cases hglob : isGlob pattern = true
  · obtain ⟨glob, hparse⟩ := h (isGlob_iff.mp hglob)
    rw [add, if_pos hglob, hparse]
    simp [namesOf, globsOf, hglob, hparse, Except.toOption]
  · rw [add, if_neg hglob]
    simp [namesOf, globsOf, hglob]

theorem add_of_parse_error {cause : GlobError} (hstar : '*' ∈ pattern.toList)
    (hparse : Glob.parse pattern = .error cause) :
    add filter pattern = .error (.invalidPattern pattern cause) := by
  rw [add, if_pos (isGlob_iff.mpr hstar), hparse]

theorem foldlM_add_of_isWellFormed (h : ∀ pattern ∈ patterns, IsWellFormed pattern) :
    patterns.foldlM add filter
      = .ok ⟨filter.exact ++ namesOf patterns, filter.globs ++ globsOf patterns⟩ := by
  induction patterns generalizing filter with
  | nil => simp [namesOf, globsOf, pure, Except.pure]
  | cons pattern rest ih =>
      rw [List.forall_mem_cons] at h
      rw [List.foldlM_cons, add_of_isWellFormed h.1]
      refine (ih h.2).trans ?_
      rw [namesOf_cons pattern rest, globsOf_cons pattern rest]
      simp only [List.append_assoc]

theorem collect_of_isWellFormed (h : ∀ pattern ∈ patterns, IsWellFormed pattern) :
    collect patterns = .ok ⟨namesOf patterns, globsOf patterns⟩ :=
  foldlM_add_of_isWellFormed h

/-- What comes before the first malformed pattern does not matter. -/
theorem collect_of_malformed {before after : List String} {cause : GlobError}
    (hbefore : ∀ earlier ∈ before, IsWellFormed earlier) (hstar : '*' ∈ pattern.toList)
    (hparse : Glob.parse pattern = .error cause) :
    collect (before ++ pattern :: after) = .error (.invalidPattern pattern cause) := by
  rw [collect, List.foldlM_append, foldlM_add_of_isWellFormed hbefore]
  show (pattern :: after).foldlM add _ = _
  rw [List.foldlM_cons, add_of_parse_error hstar hparse]
  rfl

/-- Either all patterns are well-formed, or one of them is the first that is not. -/
theorem isWellFormed_or_exists_first (patterns : List String) :
    (∀ pattern ∈ patterns, IsWellFormed pattern) ∨
      ∃ before pattern after cause, patterns = before ++ pattern :: after ∧
        (∀ earlier ∈ before, IsWellFormed earlier) ∧ '*' ∈ pattern.toList ∧
        Glob.parse pattern = .error cause := by
  induction patterns with
  | nil => exact .inl (by simp)
  | cons first rest ih =>
      by_cases hfirst : IsWellFormed first
      · rcases ih with hrest | ⟨before, pattern, after, cause, rfl, hbefore, hmalformed⟩
        · exact .inl (List.forall_mem_cons.mpr ⟨hfirst, hrest⟩)
        · exact .inr ⟨first :: before, pattern, after, cause, rfl,
            List.forall_mem_cons.mpr ⟨hfirst, hbefore⟩, hmalformed⟩
      · obtain ⟨hstar, cause, hparse⟩ := not_isWellFormed_iff.mp hfirst
        exact .inr ⟨[], first, rest, cause, rfl, by simp, hstar, hparse⟩

/-! ## Compiling the globs of a list -/

section CompileWith

variable {fault? : List Glob → Option GlobError}

theorem compileWith_of_collect_error {e : GraphError} (h : collect patterns = .error e) :
    compileWith fault? patterns = .error e := by
  rw [compileWith, h]

theorem compileWith_of_accepted (h : ∀ pattern ∈ patterns, IsWellFormed pattern)
    (hset : globsOf patterns = [] ∨ fault? (globsOf patterns) = none) :
    compileWith fault? patterns = .ok ⟨namesOf patterns, globsOf patterns⟩ := by
  rw [compileWith, collect_of_isWellFormed h]
  dsimp only
  split
  · rfl
  · rename_i hempty
    rw [hset.resolve_left (by simpa using hempty)]

theorem compileWith_of_refused (h : ∀ pattern ∈ patterns, IsWellFormed pattern)
    (hglobs : globsOf patterns ≠ []) {cause : GlobError}
    (hfault : fault? (globsOf patterns) = some cause) :
    compileWith fault? patterns = .error (.invalidPattern (", ".intercalate patterns) cause) := by
  rw [compileWith, collect_of_isWellFormed h]
  dsimp only
  rw [if_neg (by simpa using hglobs), hfault]

/-- A set of globs is accepted or refused. -/
theorem accepted_or_refused (fault? : List Glob → Option GlobError) (globs : List Glob) :
    (globs = [] ∨ fault? globs = none) ∨ (globs ≠ [] ∧ ∃ cause, fault? globs = some cause) := by
  by_cases hglobs : globs = []
  · exact .inl (.inl hglobs)
  · cases hfault : fault? globs with
    | none => exact .inl (.inr rfl)
    | some cause => exact .inr ⟨hglobs, cause, rfl⟩

theorem compileWith_eq_ok_iff :
    compileWith fault? patterns = .ok filter ↔
      (∀ pattern ∈ patterns, IsWellFormed pattern) ∧
        (globsOf patterns = [] ∨ fault? (globsOf patterns) = none) ∧
        filter = ⟨namesOf patterns, globsOf patterns⟩ := by
  constructor
  · intro h
    -- A list is read and accepted, or read and refused, or not read; only the first gives a filter.
    rcases isWellFormed_or_exists_first patterns with hall | hfirst
    · rcases accepted_or_refused fault? (globsOf patterns) with hset | ⟨hglobs, cause, hfault⟩
      · rw [compileWith_of_accepted hall hset] at h
        exact ⟨hall, hset, (Except.ok.inj h).symm⟩
      · rw [compileWith_of_refused hall hglobs hfault] at h
        cases h
    · obtain ⟨before, pattern, after, cause, rfl, hbefore, hstar, hparse⟩ := hfirst
      rw [compileWith_of_collect_error (collect_of_malformed hbefore hstar hparse)] at h
      cases h
  · rintro ⟨hall, hset, rfl⟩
    exact compileWith_of_accepted hall hset

/-- **The two ways to fail.** A list fails at its first malformed pattern, or as a whole. -/
theorem compileWith_eq_error_iff {e : GraphError} :
    compileWith fault? patterns = .error e ↔
      (∃ before pattern after cause, patterns = before ++ pattern :: after ∧
        (∀ earlier ∈ before, IsWellFormed earlier) ∧ '*' ∈ pattern.toList ∧
        Glob.parse pattern = .error cause ∧ e = .invalidPattern pattern cause) ∨
      ((∀ pattern ∈ patterns, IsWellFormed pattern) ∧ globsOf patterns ≠ [] ∧
        ∃ cause, fault? (globsOf patterns) = some cause ∧
          e = .invalidPattern (", ".intercalate patterns) cause) := by
  constructor
  · intro h
    rcases isWellFormed_or_exists_first patterns with hall | hfirst
    · rcases accepted_or_refused fault? (globsOf patterns) with hset | ⟨hglobs, cause, hfault⟩
      · rw [compileWith_of_accepted hall hset] at h
        cases h
      · rw [compileWith_of_refused hall hglobs hfault] at h
        exact .inr ⟨hall, hglobs, cause, hfault, (Except.error.inj h).symm⟩
    · obtain ⟨before, pattern, after, cause, rfl, hbefore, hstar, hparse⟩ := hfirst
      rw [compileWith_of_collect_error (collect_of_malformed hbefore hstar hparse)] at h
      exact .inl ⟨before, pattern, after, cause, rfl, hbefore, hstar, hparse,
        (Except.error.inj h).symm⟩
  · rintro (⟨before, pattern, after, cause, rfl, hbefore, hstar, hparse, rfl⟩ |
      ⟨hall, hglobs, cause, hfault, rfl⟩)
    · exact compileWith_of_collect_error (collect_of_malformed hbefore hstar hparse)
    · exact compileWith_of_refused hall hglobs hfault

end CompileWith

/-! ## Compiling one pattern and many -/

theorem mem_namesOf_iff (patterns : List String) :
    q ∈ namesOf patterns ↔ ∃ pattern ∈ patterns, q ∈ namesOf [pattern] := by
  induction patterns with
  | nil => simp [namesOf]
  | cons pattern rest ih =>
      rw [namesOf_cons, List.mem_append, ih]
      simp only [List.mem_cons, exists_eq_or_imp]

theorem mem_globsOf_iff (patterns : List String) {glob : Glob} :
    glob ∈ globsOf patterns ↔ ∃ pattern ∈ patterns, glob ∈ globsOf [pattern] := by
  induction patterns with
  | nil => simp [globsOf]
  | cons pattern rest ih =>
      rw [globsOf_cons, List.mem_append, ih]
      simp only [List.mem_cons, exists_eq_or_imp]

/-- A pattern that can be compiled: a name, or a glob that can be read and is not too deep. -/
def Compiles (pattern : String) : Prop :=
  IsWellFormed pattern ∧ ∀ glob ∈ globsOf [pattern], glob.isTooDeep = false

theorem compile_eq_ok_iff :
    compile patterns = .ok filter ↔
      (∀ pattern ∈ patterns, Compiles pattern) ∧
        filter = ⟨namesOf patterns, globsOf patterns⟩ := by
  have hempty : globsOf patterns = [] ∨ Glob.setFault? (globsOf patterns) = none ↔
      ∀ pattern ∈ patterns, ∀ glob ∈ globsOf [pattern], glob.isTooDeep = false := by
    have hnone : globsOf patterns = [] → Glob.setFault? (globsOf patterns) = none := by
      intro h
      rw [h]
      rfl
    rw [or_iff_right_of_imp hnone, Glob.setFault?_eq_none_iff]
    simp only [mem_globsOf_iff patterns]
    exact ⟨fun h pattern hpattern glob hglob => h glob ⟨pattern, hpattern, hglob⟩,
      fun h glob ⟨pattern, hpattern, hglob⟩ => h pattern hpattern glob hglob⟩
  rw [compile, compileWith_eq_ok_iff, hempty, ← and_assoc]
  simp only [Compiles, forall_and]

theorem compile_singleton_eq_ok_iff :
    compile [pattern] = .ok filter ↔
      Compiles pattern ∧ filter = ⟨namesOf [pattern], globsOf [pattern]⟩ := by
  rw [compile_eq_ok_iff, List.forall_mem_singleton]

theorem compile_of_parse {glob : Glob} (hglob : isGlob pattern = true)
    (hparse : Glob.parse pattern = .ok glob) (hflat : glob.IsFlat) :
    compile [pattern] = .ok ⟨[], [glob]⟩ := by
  have hglobs : globsOf [pattern] = [glob] := by
    simp [globsOf, hglob, hparse, Except.toOption]
  refine compile_singleton_eq_ok_iff.mpr ⟨⟨fun _ => ⟨glob, hparse⟩, ?_⟩, ?_⟩
  · rw [hglobs, List.forall_mem_singleton]
    exact hflat.isTooDeep
  · simp [namesOf, hglob, hglobs]

theorem exists_parse_of_compile (hglob : isGlob pattern = true)
    (h : compile [pattern] = .ok filter) :
    ∃ glob, Glob.parse pattern = .ok glob ∧ filter = ⟨[], [glob]⟩ := by
  obtain ⟨⟨hformed, -⟩, rfl⟩ := compile_singleton_eq_ok_iff.mp h
  obtain ⟨glob, hparse⟩ := hformed (isGlob_iff.mp hglob)
  exact ⟨glob, hparse, by simp [namesOf, globsOf, hglob, hparse, Except.toOption]⟩

theorem isGlob_eq_false (h : '*' ∉ pattern.toList) : isGlob pattern = false :=
  Bool.eq_false_iff.mpr (mt isGlob_iff.mp h)

theorem compile_exact (h : '*' ∉ pattern.toList) :
    compile [pattern] = .ok ⟨[⟨pattern⟩], []⟩ := by
  refine compile_singleton_eq_ok_iff.mpr ⟨⟨fun hstar => absurd hstar h, ?_⟩, ?_⟩
  · simp [globsOf, isGlob_eq_false h]
  · simp [namesOf, globsOf, isGlob_eq_false h]

theorem excludes_exact : excludes ⟨[q], []⟩ p = true ↔ p.same q = true := by
  rw [excludes, Path.same_comm]
  simp

/-- **A list of patterns compiles exactly when each of its patterns does.** -/
theorem exists_compile_iff :
    (∃ filter, compile patterns = .ok filter) ↔
      ∀ pattern ∈ patterns, ∃ filter, compile [pattern] = .ok filter := by
  simp only [compile_eq_ok_iff, List.forall_mem_singleton, exists_and_left, exists_eq, and_true]

theorem excludes_iff {names : List Path} {globs : List Glob} :
    excludes ⟨names, globs⟩ p = true ↔
      (∃ q ∈ names, q.same p = true) ∨ ∃ glob ∈ globs, glob.matchesPath p = true := by
  rw [excludes, Bool.or_eq_true, List.any_eq_true, List.any_eq_true, or_comm]

/-- **The filter of a list excludes what the filter of one of its patterns excludes.** -/
theorem excludes_compile_iff (h : compile patterns = .ok filter) :
    filter.excludes p = true ↔
      ∃ pattern ∈ patterns, ∃ alone, compile [pattern] = .ok alone ∧ alone.excludes p = true := by
  obtain ⟨hall, rfl⟩ := compile_eq_ok_iff.mp h
  -- Each pattern compiles, so that its filter is known: its own names and globs.
  have halone : (∃ pattern ∈ patterns, ∃ alone, compile [pattern] = .ok alone ∧
      alone.excludes p = true) ↔
      ∃ pattern ∈ patterns, excludes ⟨namesOf [pattern], globsOf [pattern]⟩ p = true := by
    refine exists_congr fun pattern => and_congr_right fun hpattern => ?_
    simp only [compile_singleton_eq_ok_iff, hall pattern hpattern, true_and, exists_eq_left]
  rw [halone]
  simp only [excludes_iff, mem_namesOf_iff patterns, mem_globsOf_iff patterns]
  constructor
  · rintro (⟨q, ⟨pattern, hpattern, hq⟩, hsame⟩ | ⟨glob, ⟨pattern, hpattern, hglob⟩, hmatch⟩)
    · exact ⟨pattern, hpattern, .inl ⟨q, hq, hsame⟩⟩
    · exact ⟨pattern, hpattern, .inr ⟨glob, hglob, hmatch⟩⟩
  · rintro ⟨pattern, hpattern, ⟨q, hq, hsame⟩ | ⟨glob, hglob, hmatch⟩⟩
    · exact .inl ⟨q, ⟨pattern, hpattern, hq⟩, hsame⟩
    · exact .inr ⟨glob, ⟨pattern, hpattern, hglob⟩, hmatch⟩

/-! ## Patterns read from a directory -/

theorem exists_compileAt_iff :
    (∃ filter, compileAt base patterns = .ok filter) ↔
      ∀ pattern ∈ patterns, ∃ filter, compileAt base [pattern] = .ok filter := by
  rw [compileAt, exists_compile_iff, List.forall_mem_map]
  rfl

/-- More patterns exclude more. -/
theorem excludes_compileAt_mono (hsub : patterns ⊆ patterns')
    (h : compileAt base patterns = .ok filter) (h' : compileAt base patterns' = .ok filter')
    (hp : filter.excludes p = true) : filter'.excludes p = true := by
  obtain ⟨pattern, hpattern, alone, halone, hexcludes⟩ := (excludes_compile_iff h).mp hp
  have hmem : pattern ∈ patterns'.map (anchor base) := List.map_subset _ hsub hpattern
  exact (excludes_compile_iff h').mpr ⟨pattern, hmem, alone, halone, hexcludes⟩

/-! ## Lists that fail -/

theorem exists_error_iff {e : Except GraphError Exclude} :
    (∃ cause, e = .error cause) ↔ ¬∃ filter, e = .ok filter := by
  cases e <;> simp

/-- A list of patterns fails exactly when one of its globs fails alone. -/
theorem exists_compile_error_iff :
    (∃ e, compile patterns = .error e) ↔
      ∃ pattern ∈ patterns, '*' ∈ pattern.toList ∧ ∃ e, compile [pattern] = .error e := by
  rw [exists_error_iff, exists_compile_iff]
  constructor
  · intro h
    obtain ⟨pattern, hnot⟩ := Classical.not_forall.mp h
    obtain ⟨hmem, hfails⟩ := Classical.not_imp.mp hnot
    refine ⟨pattern, hmem, ?_, exists_error_iff.mpr hfails⟩
    exact Decidable.byContradiction fun hexact => hfails ⟨_, compile_exact hexact⟩
  · rintro ⟨pattern, hmem, -, hfails⟩ hall
    exact exists_error_iff.mp hfails (hall pattern hmem)

/-! ## The verdict on a path -/

/-- A pattern excludes a path when it is the only one. -/
def ExcludesAlone (pattern : String) (p : Path) : Prop :=
  ∃ alone, compile [pattern] = .ok alone ∧ alone.excludes p = true

theorem check_eq_ok_iff {verdict : Bool} :
    check patterns p = .ok verdict ↔
      ∃ filter, compile patterns = .ok filter ∧ filter.excludes p = verdict := by
  unfold check
  cases compile patterns <;> simp [Except.map]

theorem check_eq_error_iff {e : GraphError} :
    check patterns p = .error e ↔ compile patterns = .error e := by
  unfold check
  cases compile patterns <;> simp [Except.map]

/-- The verdict depends on which patterns there are, and not on their order or number. -/
theorem toOption_check_congr (h : ∀ pattern, pattern ∈ patterns' ↔ pattern ∈ patterns) :
    (check patterns' p).toOption = (check patterns p).toOption := by
  have hcompile : (∃ filter, compile patterns' = .ok filter) ↔
      ∃ filter, compile patterns = .ok filter := by
    rw [exists_compile_iff, exists_compile_iff]
    exact forall_congr' fun pattern => by rw [h]
  by_cases hok : ∃ filter, compile patterns = .ok filter
  · obtain ⟨filter, hfilter⟩ := hok
    obtain ⟨filter', hfilter'⟩ := hcompile.mpr ⟨filter, hfilter⟩
    have hverdict : filter'.excludes p = filter.excludes p := by
      rw [Bool.eq_iff_iff, excludes_compile_iff hfilter, excludes_compile_iff hfilter']
      simp only [h]
    rw [check, check, hfilter, hfilter']
    exact congrArg some hverdict
  · obtain ⟨e, he⟩ := exists_error_iff.mpr hok
    obtain ⟨e', he'⟩ := exists_error_iff.mpr (mt hcompile.mp hok)
    rw [check, check, he, he']
    rfl

/-- **A filter is the disjunction of its patterns.** It cannot be compiled exactly when one of the
patterns with a `*` cannot. Whatever is refused of a set of globs, the error names the first pattern
that cannot be read, or all of the patterns when each of them can. Otherwise the filter excludes
what one of the patterns excludes alone, where a pattern without `*` excludes the paths with its own
components. So patterns can be permuted and repeated, more patterns exclude more, and a path is
checked in the same way at once, or with patterns that are read from a directory. -/
theorem filter_is_disjunction (patterns : List String) :
    ((∃ e, compile patterns = .error e) ↔
      ∃ pattern ∈ patterns, '*' ∈ pattern.toList ∧ ∃ e, compile [pattern] = .error e) ∧
    compile patterns = compileWith Glob.setFault? patterns ∧
    (∀ fault? e, compileWith fault? patterns = .error e ↔
      (∃ before pattern after cause, patterns = before ++ pattern :: after ∧
        (∀ earlier ∈ before, IsWellFormed earlier) ∧ '*' ∈ pattern.toList ∧
        Glob.parse pattern = .error cause ∧ e = .invalidPattern pattern cause) ∨
      ((∀ pattern ∈ patterns, IsWellFormed pattern) ∧ globsOf patterns ≠ [] ∧
        ∃ cause, fault? (globsOf patterns) = some cause ∧
          e = .invalidPattern (", ".intercalate patterns) cause)) ∧
    (∀ filter, compile patterns = .ok filter → ∀ p, (filter.excludes p = true ↔
      ∃ pattern ∈ patterns, ExcludesAlone pattern p)) ∧
    (∀ pattern p, '*' ∉ pattern.toList →
      (ExcludesAlone pattern p ↔ p.components = (Path.mk pattern).components)) ∧
    (∀ patterns', (∀ pattern, pattern ∈ patterns' ↔ pattern ∈ patterns) → ∀ p,
      (check patterns' p).toOption = (check patterns p).toOption) ∧
    (∀ patterns' filter', patterns ⊆ patterns' → compile patterns' = .ok filter' →
      ∃ filter, compile patterns = .ok filter ∧
        ∀ p, filter.excludes p = true → filter'.excludes p = true) ∧
    (∀ p, (∀ e, check patterns p = .error e ↔ compile patterns = .error e) ∧
      ∀ verdict, check patterns p = .ok verdict →
        (verdict = true ↔ ∃ pattern ∈ patterns, ExcludesAlone pattern p)) ∧
    ∀ base, compileAt base patterns = compile (patterns.map (anchor base)) ∧
      ∀ filter, compileAt base patterns = .ok filter → ∀ p, (filter.excludes p = true ↔
        ∃ pattern ∈ patterns, ExcludesAlone (anchor base pattern) p) := by
  refine ⟨exists_compile_error_iff, rfl, fun fault? e => compileWith_eq_error_iff,
    fun filter h p => excludes_compile_iff h, ?_, fun patterns' h p => toOption_check_congr h,
    ?_, ?_, ?_⟩
  · intro pattern p hstar
    rw [ExcludesAlone, compile_exact hstar]
    simp only [Except.ok.injEq, exists_eq_left', excludes_exact, Path.same_iff]
  · intro patterns' filter' hsub hfilter'
    have hall := exists_compile_iff.mp ⟨filter', hfilter'⟩
    obtain ⟨filter, hfilter⟩ := exists_compile_iff.mpr fun pattern hmem => hall pattern (hsub hmem)
    refine ⟨filter, hfilter, fun p hp => ?_⟩
    obtain ⟨pattern, hmem, halone⟩ := (excludes_compile_iff hfilter).mp hp
    exact (excludes_compile_iff hfilter').mpr ⟨pattern, hsub hmem, halone⟩
  · refine fun p => ⟨fun e => check_eq_error_iff, fun verdict hverdict => ?_⟩
    obtain ⟨filter, hfilter, rfl⟩ := check_eq_ok_iff.mp hverdict
    exact excludes_compile_iff hfilter
  · refine fun base => ⟨rfl, fun filter hfilter p => ?_⟩
    rw [compileAt] at hfilter
    rw [excludes_compile_iff hfilter]
    constructor
    · rintro ⟨anchored, hmem, halone⟩
      obtain ⟨pattern, hpattern, rfl⟩ := List.mem_map.mp hmem
      exact ⟨pattern, hpattern, halone⟩
    · rintro ⟨pattern, hpattern, halone⟩
      exact ⟨_, List.mem_map_of_mem hpattern, halone⟩

theorem filter_is_disjunction_sample :
    (∃ e, compile ["/a[.js", "/b[*", "*]"] = .error e) ∧
    (∃ filter, compile ["/a[.js", "/*.ts"] = .ok filter ∧
      filter.excludes ⟨"/b.ts"⟩ = true ∧ filter.excludes ⟨"/./a[.js"⟩ = true) := by
  have hinvalid : compile ["/b[*"] = .error (.invalidPattern "/b[*" .unclosedClass) := rfl
  have hglob : compile ["/*.ts"]
      = .ok ⟨[], [[.literal '/', .star, .literal '.', .literal 't', .literal 's']]⟩ := rfl
  have hname : compile ["/a[.js"] = .ok ⟨[⟨"/a[.js"⟩], []⟩ := compile_exact (by decide)
  obtain ⟨filter, hboth⟩ : ∃ filter, compile ["/a[.js", "/*.ts"] = .ok filter := ⟨_, rfl⟩
  obtain ⟨-, -, -, hexcludes, hexact, -⟩ := filter_is_disjunction ["/a[.js", "/*.ts"]
  refine ⟨(filter_is_disjunction ["/a[.js", "/b[*", "*]"]).1.mpr
    ⟨"/b[*", by simp, by decide, _, hinvalid⟩, filter, hboth, ?_, ?_⟩
  · exact (hexcludes filter hboth ⟨"/b.ts"⟩).mpr ⟨"/*.ts", by simp, _, hglob, by decide +kernel⟩
  · exact (hexcludes filter hboth ⟨"/./a[.js"⟩).mpr
      ⟨"/a[.js", by simp, (hexact _ _ (by decide)).mpr (by decide)⟩

/-- A pattern of nested groups can be read, but it is refused, alone or behind globs that have an
extension. The error names all of the patterns. -/
theorem compile_concat_nested (front : List String) {n : Nat} (hn : Glob.depthLimit ≤ n)
    (hformed : ∀ pattern ∈ front, IsWellFormed pattern)
    (hglobs : ∀ glob ∈ globsOf front, glob.hasExtension = true ∧ glob.isTooDeep = false) :
    compile (front ++ [Glob.nestedPattern n])
      = .error (.invalidPattern (", ".intercalate (front ++ [Glob.nestedPattern n]))
          (.notCompiled none (Glob.tooDeepMessage 0))) := by
  have hglob : isGlob (Glob.nestedPattern n) = true :=
    isGlob_iff.mpr (by simp [Glob.nestedPattern])
  have hparse := Glob.parse_nestedPattern n
  have hset : globsOf (front ++ [Glob.nestedPattern n])
      = globsOf front ++ [[.star, Glob.nestedItem n]] := by
    simp [globsOf, hglob, hparse, Except.toOption]
  have hdeep : Glob.isTooDeep [.star, Glob.nestedItem n] = true := (Glob.isTooDeep_nested n).mpr hn
  refine compileWith_of_refused ?_ (by simp [hset]) ?_
  · rw [List.forall_mem_append, List.forall_mem_singleton]
    exact ⟨hformed, fun _ => ⟨_, hparse⟩⟩
  · rw [hset]
    exact Glob.setFault?_concat hdeep (Glob.hasExtension_nested hn) hglobs

/-- Of two patterns only the second fails alone, but the error of both names neither. -/
theorem refused_set_names_no_pattern :
    (∃ filter, compile ["/a/*.js"] = .ok filter) ∧
    (∃ e, compile [Glob.nestedPattern 300] = .error e) ∧
    compile ["/a/*.js", Glob.nestedPattern 300]
      = .error (.invalidPattern ("/a/*.js, " ++ Glob.nestedPattern 300)
          (.notCompiled none "error parsing pattern 0")) ∧
    ¬∃ pattern ∈ ["/a/*.js", Glob.nestedPattern 300], ∃ cause,
      compile ["/a/*.js", Glob.nestedPattern 300] = .error (.invalidPattern pattern cause) := by
  have hn : Glob.depthLimit ≤ 300 := by decide
  have hglob : isGlob "/a/*.js" = true := by decide
  obtain ⟨glob, hparse, hflat, hextension⟩ : ∃ glob, Glob.parse "/a/*.js" = .ok glob ∧
      glob.IsFlat ∧ glob.hasExtension = true := ⟨_, rfl, by simp [Glob.IsFlat], rfl⟩
  have hglobs : globsOf ["/a/*.js"] = [glob] := by
    simp [globsOf, hglob, hparse, Except.toOption]
  have hboth : compile ["/a/*.js", Glob.nestedPattern 300]
      = .error (.invalidPattern ("/a/*.js, " ++ Glob.nestedPattern 300)
          (.notCompiled none "error parsing pattern 0")) := by
    refine compile_concat_nested ["/a/*.js"] hn ?_ ?_
    · rw [List.forall_mem_singleton]
      exact fun _ => ⟨_, hparse⟩
    · rw [hglobs, List.forall_mem_singleton]
      exact ⟨hextension, hflat.isTooDeep⟩
  have halone := compile_concat_nested [] hn (by simp) (by simp [globsOf])
  refine ⟨⟨_, compile_of_parse hglob hparse hflat⟩, ⟨_, halone⟩, hboth, ?_⟩
  rintro ⟨pattern, hmem, cause, hcompile⟩
  rw [hboth, Except.error.injEq, GraphError.invalidPattern.injEq] at hcompile
  -- The text of all patterns is longer than each of them.
  have hlength := congrArg String.length hcompile.1
  have hfirst : "/a/*.js".length = 7 := rfl
  have hall : "/a/*.js, ".length = 9 := rfl
  rw [String.length_append, hall] at hlength
  rcases List.mem_cons.mp hmem with rfl | hmem
  · omega
  · rw [List.mem_singleton.mp hmem] at hlength
    omega

end Exclude

end ModuleGraph
