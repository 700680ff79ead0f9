import ModuleGraph.Proofs.Exclude
import ModuleGraph.Proofs.Path.Relative
import ModuleGraph.Proofs.Walk.Isolation

set_option autoImplicit false

/-! # Narrower options give a smaller graph

Options are narrowed by more exclude patterns, more library directories, fewer strict extensions,
or by switching recursion off. The narrower walk may take other branches and visit its files in
another order, so the two walks are not compared turn by turn but through the files that they come
to: each file that the narrower walk reaches is reached by the wider one (`Narrows.reached`), and
no file fails that did not fail before (`Narrows.fails`). Hence the narrower walk succeeds where
the wider one does (`Narrows.exists_search`), and its graph is a part of the wider graph
(`Narrows.partOf`).
-/

namespace ModuleGraph

/-- `options'.Narrows options`: with `options'` a walk goes no further than with `options`. How
sources are parsed and specifiers resolved is up to the host. -/
structure GraphOptions.Narrows (options' options : GraphOptions) : Prop where
  files : options'.files = options.files
  exclude : options.exclude ⊆ options'.exclude
  libraryDirs : options.libraryDirs ⊆ options'.libraryDirs
  recurse : options'.recurse = true → options.recurse = true
  strictExtensions : options'.strictExtensions ⊆ options.strictExtensions

/-- `g'.PartOf g`: the graph `g'` has some of the loaded files of `g`, with the same exports, and
takes no names that `g` does not take. -/
structure Graph.PartOf (g' g : Graph) : Prop where
  loadedFiles : g'.loadedFiles ⊆ g.loadedFiles
  exports : g'.exports = g.exports.filter fun entry => entry.1 ∈ g'.loadedFiles
  imports : ∀ p names', g'.imports.get? p = some names' →
    ∃ names, g.imports.get? p = some names ∧ names' ⊆ names
  stats : g'.stats ⊆ g.stats

theorem Path.hasExtension_mono {p : Path} {extensions extensions' : List String}
    (hsub : extensions ⊆ extensions') (h : p.hasExtension extensions = true) :
    p.hasExtension extensions' = true := by
  unfold Path.hasExtension at h ⊢
  cases hext : p.extension? with
  | none => simp [hext] at h
  | some ext =>
      rw [hext] at h
      have hmem : ext ∈ extensions := by simpa using h
      simpa using hsub hmem

namespace Walker

variable {w w' : Walker} {s s' : WalkState} {f p : Path} {reads reads' : List Path}
  {events events' : List Event} {e : GraphError}

/-! ## Narrower walkers -/

/-- `w'.Narrows w`: on the same host and from the same entries, `w'` goes no further than `w`. -/
structure Narrows (w' w : Walker) : Prop where
  host : w'.host = w.host
  starts : w'.starts = w.starts
  excludes : ∀ p, w.exclude.excludes p = true → w'.exclude.excludes p = true
  library : ∀ f p : Path, f.isLibrary p w.options.libraryDirs = true →
    f.isLibrary p w'.options.libraryDirs = true
  recurse : w'.options.recurse = true → w.options.recurse = true
  strict : ∀ p, w'.options.isStrict p = true → w.options.isStrict p = true

theorem create_eq_ok_iff {host : Host} {options : GraphOptions} {cwd : Path} :
    create host options cwd = .ok w ↔
      ∃ exclude, Exclude.compileAt cwd options.exclude = .ok exclude ∧
        w = ⟨host, options, exclude, cwd⟩ := by
  unfold create
  cases Exclude.compileAt cwd options.exclude with
  | error e => simp [Except.map]
  | ok exclude => simp [Except.map, eq_comm]

/-- Where more patterns can be compiled, narrower options give a narrower walker. -/
theorem exists_narrows {host : Host} {options options' : GraphOptions} {cwd : Path}
    {exclude : Exclude} (h : Exclude.compileAt cwd options.exclude = .ok exclude)
    (hopt : options'.Narrows options)
    (hextra : ∀ pattern ∈ options'.exclude, pattern ∉ options.exclude →
      ∃ filter, Exclude.compileAt cwd [pattern] = .ok filter) :
    ∃ exclude', Exclude.compileAt cwd options'.exclude = .ok exclude' ∧
      Narrows ⟨host, options', exclude', cwd⟩ ⟨host, options, exclude, cwd⟩ := by
  obtain ⟨exclude', hexclude'⟩ :
      ∃ filter, Exclude.compileAt cwd options'.exclude = .ok filter := by
    rw [Exclude.exists_compileAt_iff]
    intro pattern hpattern
    by_cases hold : pattern ∈ options.exclude
    · exact Exclude.exists_compileAt_iff.mp ⟨exclude, h⟩ pattern hold
    · exact hextra pattern hpattern hold
  refine ⟨exclude', hexclude', rfl, ?_, ?_, ?_, hopt.recurse, ?_⟩
  · show options'.files.map _ = options.files.map _
    rw [hopt.files]
  · exact fun p => Exclude.excludes_compileAt_mono hopt.exclude h hexclude'
  · exact fun f p => Path.isLibrary_mono hopt.libraryDirs
  · exact fun p => Path.hasExtension_mono hopt.strictExtensions

namespace Narrows

theorem not_excludes (h : w'.Narrows w) (hp : w'.exclude.excludes p = false) :
    w.exclude.excludes p = false := by
  rw [← Bool.not_eq_true] at hp ⊢
  exact mt (h.excludes p) hp

theorem hasFacts_iff (h : w'.Narrows w) (facts : Facts) :
    w'.HasFacts p facts ↔ w.HasFacts p facts := by
  rw [HasFacts, HasFacts, h.host]

/-- What is library code to the wider walker is library code to the narrower one. -/
theorem imports (h : w'.Narrows w) (himports : w'.Imports f p) : w.Imports f p := by
  obtain ⟨facts, specifier, names, hfacts, hmem, hresolve, hlib⟩ := himports
  rw [h.host] at hresolve
  refine ⟨facts, specifier, names, (h.hasFacts_iff facts).mp hfacts, hmem, hresolve, ?_⟩
  rw [← Bool.not_eq_true] at hlib ⊢
  exact mt (h.library f p) hlib

theorem takesFrom (h : w'.Narrows w) {names : List String} (htakes : w'.TakesFrom f p names) :
    w.TakesFrom f p names := by
  obtain ⟨facts, specifier, target, hfacts, hmem, hresolve, hsame⟩ := htakes
  rw [h.host] at hresolve
  exact ⟨facts, specifier, target, (h.hasFacts_iff facts).mp hfacts, hmem, hresolve, hsame⟩

theorem intact (h : w'.Narrows w) (hintact : w'.Intact f) : w.Intact f := by
  obtain ⟨facts, hfacts, hall⟩ := hintact
  rw [h.host] at hall
  exact ⟨facts, (h.hasFacts_iff facts).mp hfacts, hall⟩

/-- No file fails that did not fail before. -/
theorem fails (h : w'.Narrows w) (hfails : w'.Fails f e) : w.Fails f e := by
  cases hfails with
  | missing hread => exact .missing (h.host ▸ hread)
  | unreadable hread he => exact .unreadable (h.host ▸ hread) he
  | unparsed hread hparse hstrict =>
      exact .unparsed (h.host ▸ hread) (h.host ▸ hparse) (h.strict f hstrict)
  | unresolved hfacts himports hbefore hresolve =>
      refine .unresolved ((h.hasFacts_iff _).mp hfacts) himports ?_ (h.host ▸ hresolve)
      rw [h.host] at hbefore
      exact hbefore

/-- **The narrower walk comes to no other files.** -/
theorem reached (h : w'.Narrows w) (hp : w'.Reached p) : w.Reached p := by
  induction hp with
  | entry hfile hex =>
      rw [h.starts] at hfile
      exact .entry hfile (h.not_excludes hex)
  | imported hrec _ hintact himports hex ih =>
      exact .imported (h.recurse hrec) ih (h.intact hintact) (h.imports himports)
        (h.not_excludes hex)

/-! ## The narrower walk succeeds -/

/-- Files that are excluded or reached lead to such files only, and the wider walk has listed those
of them that can be read. -/
theorem confined (h : w'.Narrows w) (hw : w.host.ResolvesCleanly)
    (hs : w.Search {} w.starts events (.ok s)) :
    w'.Confined (fun p => w'.exclude.excludes p = false → w'.Reached p)
      (s.loaded ++ s.unparsed) := by
  constructor
  · intro p hp hex g hg hgex
    exact (hp hex).follow hg hgex
  · intro p source hp hex _
    have hdone : s.isDone p = true := hs.isDone_of_reached hw (h.reached (hp hex))
    obtain ⟨q, hq, hsame⟩ := WalkState.isDone_iff.mp hdone
    exact ⟨q, List.mem_append.mpr hq, hsame⟩

theorem exists_search (h : w'.Narrows w) (hw : w.host.ResolvesCleanly)
    (hs : w.Search {} w.starts events (.ok s)) :
    ∃ events' s', w'.Search {} w'.starts events' (.ok s') := by
  have hconfined := h.confined hw hs
  have hstarts : ∀ f ∈ w'.starts, w'.exclude.excludes f = false → w'.Reached f :=
    fun f hf hex => .entry hf hex
  obtain ⟨events', result, hsearch⟩ := hconfined.exists_search {} hstarts
  cases result with
  | ok s' => exact ⟨events', s', hsearch⟩
  | error e =>
      -- The file that fails is reached by the wider walk too, and would have ended it.
      obtain ⟨f, hf, hex, hfails⟩ := hsearch.exists_fails hconfined.follow hstarts
      exact absurd (h.fails hfails) (hs.not_fails_of_reached hw (h.reached (hf hex)))

/-! ## The narrower graph -/

theorem loaded_subset (h : w'.Narrows w) (hs : w.Explored reads s) (hs' : w'.Explored reads' s')
    (hreads : reads' ⊆ reads) : s'.loaded ⊆ s.loaded := by
  intro p hp
  obtain ⟨hread, facts, hfacts⟩ := hs'.mem_loaded_iff.mp hp
  exact hs.mem_loaded_iff.mpr ⟨hreads hread, facts, (h.hasFacts_iff facts).mp hfacts⟩

/-- The loaded files of the narrower walk are kept from those of the wider one. -/
theorem loaded_eq_filter (h : w'.Narrows w) (hs : w.Explored reads s)
    (hs' : w'.Explored reads' s') (hreads : reads' ⊆ reads) :
    s'.loaded = s.loaded.filter (· ∈ s'.loaded) := by
  have hsub := h.loaded_subset hs hs' hreads
  refine hs'.merged.ascending.eq_of_mem_iff (hs.merged.ascending.filter _) fun p => ?_
  rw [List.mem_filter, decide_eq_true_iff]
  exact ⟨fun hp => ⟨hsub hp, hp⟩, And.right⟩

theorem imports_subset (h : w'.Narrows w) (hs : w.Explored reads s) (hs' : w'.Explored reads' s')
    (hreads : reads' ⊆ reads) {names' : List String} (hp : s'.imports.get? p = some names') :
    ∃ names, s.imports.get? p = some names ∧ names' ⊆ names := by
  have hsub := h.loaded_subset hs hs' hreads
  have htaken : ∀ part, (∃ f ∈ s'.loaded, w'.TakesFrom f p part) →
      ∃ f ∈ s.loaded, w.TakesFrom f p part := by
    rintro part ⟨f, hf, htakes⟩
    exact ⟨f, hsub hf, h.takesFrom htakes⟩
  obtain ⟨part', hpart'⟩ := (hs'.merged.imports.exists_get? p).mp ⟨names', hp⟩
  obtain ⟨names, hnames⟩ := (hs.merged.imports.exists_get? p).mpr ⟨part', htaken part' hpart'⟩
  refine ⟨names, hnames, fun name hname => ?_⟩
  obtain ⟨part, hpart, hmem⟩ := (hs'.merged.imports.mem_iff p names' hp name).mp hname
  exact (hs.merged.imports.mem_iff p names hnames name).mpr ⟨part, htaken part hpart, hmem⟩

theorem stats_subset (h : w'.Narrows w) (hs : w.Explored reads s) (hs' : w'.Explored reads' s')
    (hreads : reads' ⊆ reads) : s'.stats ⊆ s.stats := by
  have hfailures : ∀ failure ∈ w'.failures reads', failure ∈ w.failures reads := by
    intro failure hmem
    obtain ⟨hread, hfailure⟩ := mem_failures.mp hmem
    rw [parseFailure?, h.host] at hfailure
    exact mem_failures.mpr ⟨hreads hread, hfailure⟩
  rw [hs.consistent.stats, hs'.consistent.stats]
  exact List.map_subset _ hfailures

theorem partOf (h : w'.Narrows w) (hs : w.Explored reads s) (hs' : w'.Explored reads' s')
    (hreads : reads' ⊆ reads) : s'.toGraph.PartOf s.toGraph where
  loadedFiles := h.loaded_subset hs hs' hreads
  exports := hs.exports_eq_filter hs' _ (h.loaded_eq_filter hs hs' hreads)
    fun _ _ facts hfacts => (h.hasFacts_iff facts).mp hfacts
  imports _ _ hp := h.imports_subset hs hs' hreads hp
  stats := h.stats_subset hs hs' hreads

/-! ## Fewer strict files alone -/

/-- Where nothing else is narrowed, a file that was taken is taken in the same way. -/
theorem agrees (h : w'.Narrows w) (hdirs : w'.options.libraryDirs = w.options.libraryDirs)
    (hrec : w'.options.recurse = w.options.recurse) (hnot : ∀ e, ¬ w.Fails p e) :
    w.Agrees w' p := by
  have hinspect : w'.inspect p = w.inspect p := by
    cases hp : w.inspect p with
    | broken e => exact absurd (inspect_eq_broken_iff.mp hp) (hnot e)
    | unparsed reason =>
        obtain ⟨source, hread, hparse, hlenient⟩ := inspect_eq_unparsed_iff.mp hp
        have hlenient' : w'.options.isStrict p = false := by
          rw [← Bool.not_eq_true] at hlenient ⊢
          exact mt (h.strict p) hlenient
        rw [← h.host] at hread hparse
        exact inspect_eq_unparsed_iff.mpr ⟨source, hread, hparse, hlenient'⟩
    | parsed exports imports =>
        obtain ⟨facts, hfacts, hexports, hresolve⟩ := inspect_eq_parsed_iff.mp hp
        have hsame : w'.host.resolve = w.host.resolve := by rw [h.host]
        rw [resolveAll, ← ask_congr hsame] at hresolve
        exact inspect_eq_parsed_iff.mpr
          ⟨facts, (h.hasFacts_iff facts).mpr hfacts, hexports, hresolve⟩
  refine ⟨hinspect, ?_, ?_⟩
  · exact eventsOf_congr (by rw [h.host]) (by rw [h.host]) (by rw [h.host])
  · simp only [follow, localsOf, hinspect, locals, hdirs, hrec]

theorem search_of_strict (h : w'.Narrows w) (hex : w'.exclude = w.exclude)
    (hdirs : w'.options.libraryDirs = w.options.libraryDirs)
    (hrec : w'.options.recurse = w.options.recurse) (hw : w.host.ResolvesCleanly)
    (hs : w.Search {} w.starts events (.ok s)) : w'.Search {} w'.starts events (.ok s) := by
  rw [h.starts]
  refine hs.agree hex fun p hp => h.agrees hdirs hrec fun e hfails => ?_
  exact hs.not_fails_of_reached hw ((mem_reads_iff_reached hw hs).mp hp) hfails

end Narrows

/-! ## Walks -/

/-- **Narrower options give a part of the graph.** Where a walk succeeds, it succeeds with narrower
options too, provided that all exclude patterns can be compiled, and its graph is then a part of
the graph of the wider walk. Fewer strict extensions alone leave the graph as it is. -/
theorem narrowing_shrinks_graph {host : Host} {options options' : GraphOptions} {cwd : Path}
    {run : Run} (hw : host.ResolvesCleanly) (hcreate : create host options cwd = .ok w)
    (hrun : w.Finishes run s) (hnarrows : options'.Narrows options)
    (hextra : ∀ pattern ∈ options'.exclude, pattern ∉ options.exclude →
      ∃ filter, Exclude.compileAt cwd [pattern] = .ok filter) :
    ∃ w' run' s', create host options' cwd = .ok w' ∧ w'.Finishes run' s' ∧
      s'.toGraph.PartOf s.toGraph ∧
      (options' = { options with strictExtensions := options'.strictExtensions } →
        s'.toGraph = s.toGraph) := by
  obtain ⟨exclude, hexclude, rfl⟩ := create_eq_ok_iff.mp hcreate
  obtain ⟨exclude', hexclude', h⟩ := exists_narrows hexclude hnarrows hextra
  have hsearch := (finishes_iff_search.mp hrun).1
  obtain ⟨events', s', hsearch'⟩ := h.exists_search hw hsearch
  refine ⟨⟨host, options', exclude', cwd⟩, ⟨events', .ok s'⟩, s',
    create_eq_ok_iff.mpr ⟨exclude', hexclude', rfl⟩, finishes_iff_search.mpr ⟨hsearch', rfl⟩,
    ?_, fun hstrict => ?_⟩
  · refine h.partOf (hsearch.explored hw fun _ => isClean_starts)
      (hsearch'.explored hw fun _ => isClean_starts) fun p hp => ?_
    exact (mem_reads_iff_reached hw hsearch).mpr
      (h.reached ((mem_reads_iff_reached hw hsearch').mp hp))
  · -- The same patterns give the same filter, and then both walks are the same.
    have hpatterns : options'.exclude = options.exclude := by rw [hstrict]
    rw [hpatterns, hexclude] at hexclude'
    cases hexclude'
    have hdirs : options'.libraryDirs = options.libraryDirs := by rw [hstrict]
    have hrec : options'.recurse = options.recurse := by rw [hstrict]
    obtain ⟨-, hresult⟩ := hsearch'.unique (h.search_of_strict rfl hdirs hrec hw hsearch)
    cases hresult
    rfl

def sampleOptions : GraphOptions := { files := [⟨"a.js"⟩], strictExtensions := ["ts"] }

/-- The same options with `b` excluded, one more directory of libraries, and no strict files. -/
def sampleNarrowOptions : GraphOptions :=
  { sampleOptions with
    exclude := ["b.js"]
    libraryDirs := ["node_modules", "vendor"]
    strictExtensions := [] }

/-- In the small project `a` imports `b`, which is no longer loaded once it is excluded. -/
theorem narrowing_shrinks_graph_sample :
    ∃ w w' run run' s s', create Host.sample sampleOptions ⟨"/src"⟩ = .ok w ∧
      create Host.sample sampleNarrowOptions ⟨"/src"⟩ = .ok w' ∧
      w.Finishes run s ∧ w'.Finishes run' s' ∧
      s.toGraph.loadedFiles = [⟨"/src/a.js"⟩, ⟨"/src/b.js"⟩] ∧
      s'.toGraph.loadedFiles = [⟨"/src/a.js"⟩] ∧ s'.toGraph.PartOf s.toGraph := by
  have hnarrows : sampleNarrowOptions.Narrows sampleOptions :=
    ⟨rfl, by simp [sampleOptions], by simp [sampleNarrowOptions, sampleOptions, libraryDirs],
      fun _ => rfl, by simp [sampleNarrowOptions]⟩
  have hextra : ∀ pattern ∈ sampleNarrowOptions.exclude, pattern ∉ sampleOptions.exclude →
      ∃ filter, Exclude.compileAt ⟨"/src"⟩ [pattern] = .ok filter := by
    intro pattern hpattern _
    obtain rfl := List.mem_singleton.mp hpattern
    exact ⟨_, rfl⟩
  obtain ⟨run, s, hrun, hloaded⟩ : ∃ run s,
      Finishes ⟨Host.sample, sampleOptions, {}, ⟨"/src"⟩⟩ run s ∧
        s.toGraph.loadedFiles = [⟨"/src/a.js"⟩, ⟨"/src/b.js"⟩] := ⟨_, _, ⟨⟨3, rfl⟩, rfl⟩, rfl⟩
  obtain ⟨run₁, s₁, hrun₁, hloaded₁⟩ : ∃ run s,
      Finishes ⟨Host.sample, sampleNarrowOptions, ⟨[⟨"/src/b.js"⟩], []⟩, ⟨"/src"⟩⟩ run s ∧
        s.toGraph.loadedFiles = [⟨"/src/a.js"⟩] := ⟨_, _, ⟨⟨2, rfl⟩, rfl⟩, rfl⟩
  have hcreate₁ : create Host.sample sampleNarrowOptions ⟨"/src"⟩
      = .ok ⟨Host.sample, sampleNarrowOptions, ⟨[⟨"/src/b.js"⟩], []⟩, ⟨"/src"⟩⟩ := rfl
  obtain ⟨w', run', s', hcreate', hrun', hpart, -⟩ :=
    narrowing_shrinks_graph Host.resolvesCleanly_sample rfl hrun hnarrows hextra
  rw [hcreate₁] at hcreate'
  cases hcreate'
  have hresult := ((finishes_iff_search.mp hrun').1.unique (finishes_iff_search.mp hrun₁).1).2
  cases hresult
  exact ⟨_, _, run, run', s, s₁, rfl, hcreate₁, hrun, hrun', hloaded, hloaded₁, hpart⟩

end Walker

end ModuleGraph
