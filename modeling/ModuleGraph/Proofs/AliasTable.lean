import ModuleGraph.Proofs.Aliases
import ModuleGraph.Proofs.Table

set_option autoImplicit false

/-! # The table of aliases

Every entry of a settings file that has a target defines an alias (`Disk.definitions`), and the
definitions are written into one table, one after the other. A key is written over: the table
has it with the list of its last definition alone, and what the earlier ones gave is lost
(`Disk.collectAliases_keeps_last`). Two entries have one key already when they differ by a
wildcard, and the order of the definitions is that in which the files are found.
-/

namespace ModuleGraph

open Json

/-! ## Definitions -/

/-- The entries under `paths` in settings: each alias with those of its targets that are
texts. -/
def pathsEntries (settings : Value) : List (String × List String) :=
  let paths := (settings.get? "compilerOptions").bind fun options => options.get? "paths"
  ((paths.bind Value.members?).getD []).map fun entry =>
    (entry.1, ((entry.2.items?).getD []).filterMap Value.text?)

def targetBase (directory : Path) (settings : Value) : Path :=
  let baseUrl := (settings.get? "compilerOptions").bind fun options => options.get? "baseUrl"
  directory.join ⟨(baseUrl.bind Value.text?).getD "."⟩

/-- A target as it stands in the table. -/
def cleanTarget (base : Path) (target : String) : String :=
  (base.join ⟨dropWildcards target⟩).clean.text

/-- What an entry defines; nothing if it has no target. -/
def definitionOf (base : Path) (entry : String × List String) : Option (String × List String) :=
  if entry.2 = [] then none else some (dropWildcards entry.1, entry.2.map (cleanTarget base))

theorem settingsAliases_eq (directory : Path) (settings : Value) :
    settingsAliases directory settings
      = (pathsEntries settings).filterMap (definitionOf (targetBase directory settings)) := by
  rw [settingsAliases, pathsEntries, targetBase]
  cases settings.get? "compilerOptions" with
  | none => rfl
  | some options =>
      rw [Option.bind_some, Option.bind_some, List.filterMap_map]
      refine congrArg (List.filterMap · _) (funext fun entry => ?_)
      have htargets : ∀ base, aliasTargets base entry.2
          = (((entry.2.items?).getD []).filterMap Value.text?).map (cleanTarget base) :=
        fun base => (List.map_filterMap ..).symm
      simp only [htargets, Function.comp_apply, definitionOf]
      -- An entry without any target that is a text defines nothing on both sides.
      cases ((entry.2.items?).getD []).filterMap Value.text? with
      | nil => rfl
      | cons target rest => rfl

namespace Disk

/-- The settings files below a directory, in the order in which they are found. -/
def settingsFiles (disk : Disk) (root : Path) : List Path :=
  (disk.listing root).filter fun p => p.fileName? == some settingsName

def definitionsIn (disk : Disk) (root : Path) (files : List Path) :
    List (String × List String) :=
  files.flatMap (disk.aliasesOf root)

/-- The table that some settings files make when they are found in the given order. -/
def tableOf (disk : Disk) (root : Path) (files : List Path) : List (String × List String) :=
  setKeys (disk.definitionsIn root files) []

theorem collectAliases_eq (disk : Disk) (root : Path) :
    disk.collectAliases root = disk.tableOf root (disk.settingsFiles root) := rfl

/-- A file can be read and is the JSON text of some settings, without any pair of slashes. -/
def HasSettings (disk : Disk) (file : Path) (settings : Value) : Prop :=
  ∃ text, disk.read file = .ok text ∧ ¬HasSlashes text.toList ∧ Value.parse text = .ok settings

theorem HasSettings.aliasesOf {disk : Disk} {file : Path} {settings : Value}
    (h : disk.HasSettings file settings) (root : Path) :
    disk.aliasesOf root file = (pathsEntries settings).filterMap
      (definitionOf (targetBase (file.parent?.getD root) settings)) := by
  obtain ⟨text, hread, hslashes, hvalue⟩ := h
  rw [(aliasesOf_commented root hvalue (Commented.refl text.toList) hread).1 hslashes,
    settingsAliases_eq]

theorem lookup_collectAliases (disk : Disk) (root : Path) (key : String) :
    (disk.collectAliases root).lookup key
      = lastOf key (disk.definitionsIn root (disk.settingsFiles root)) := by
  rw [collectAliases_eq, tableOf, lookup_setKeys, List.lookup_nil, Option.or_none]

/-- What a table has for the key of an entry: the list of the last definition behind the entry,
or else the targets of the entry itself. -/
theorem lookup_of_entry {disk : Disk} {root file : Path} {before after : List Path}
    (hfiles : disk.settingsFiles root = before ++ file :: after) {settings : Value}
    (hsettings : disk.HasSettings file settings) {base : Path}
    (hbase : base = targetBase (file.parent?.getD root) settings) {name : String}
    {targets : List String} {earlier later : List (String × List String)}
    (hentries : pathsEntries settings = earlier ++ (name, targets) :: later)
    (htargets : targets ≠ []) :
    (disk.collectAliases root).lookup (dropWildcards name)
      = some ((lastOf (dropWildcards name)
          (later.filterMap (definitionOf base) ++ disk.definitionsIn root after)).getD
          (targets.map (cleanTarget base))) := by
  have hdefinition : definitionOf base (name, targets)
      = some (dropWildcards name, targets.map (cleanTarget base)) := if_neg htargets
  have hfile : disk.aliasesOf root file = earlier.filterMap (definitionOf base) ++
      (dropWildcards name, targets.map (cleanTarget base)) ::
        later.filterMap (definitionOf base) := by
    rw [hsettings.aliasesOf root, hentries, ← hbase, List.filterMap_append,
      List.filterMap_cons_some hdefinition]
  -- Around this definition: the files before, the entries before, the entries behind, the files
  -- behind. Only the last two can change what the table has.
  have hall : disk.definitionsIn root (disk.settingsFiles root)
      = (disk.definitionsIn root before ++ earlier.filterMap (definitionOf base)) ++
        (dropWildcards name, targets.map (cleanTarget base)) ::
          (later.filterMap (definitionOf base) ++ disk.definitionsIn root after) := by
    simp only [hfiles, definitionsIn, List.flatMap_append, List.flatMap_cons, hfile,
      List.append_assoc, List.cons_append]
  rw [lookup_collectAliases, hall, lastOf_append, lastOf_cons, if_pos rfl, Option.or_some,
    Option.some_or]

/-! ## The order of the files -/

/-- No two of some settings files end with different lists for one key. -/
def Agree (disk : Disk) (root : Path) (files : List Path) : Prop :=
  ∀ file ∈ files, ∀ file' ∈ files, ∀ key kept kept',
    lastOf key (disk.aliasesOf root file) = some kept →
    lastOf key (disk.aliasesOf root file') = some kept' → kept = kept'

theorem definitionsIn_cons (disk : Disk) (root file : Path) (files : List Path) :
    disk.definitionsIn root (file :: files)
      = disk.aliasesOf root file ++ disk.definitionsIn root files :=
  List.flatMap_cons

theorem exists_file_of_lastOf {disk : Disk} {root : Path} {files : List Path} {key : String}
    {kept : List String} (h : lastOf key (disk.definitionsIn root files) = some kept) :
    ∃ file ∈ files, lastOf key (disk.aliasesOf root file) = some kept := by
  induction files with
  | nil => cases h
  | cons file files ih =>
      rw [definitionsIn_cons, lastOf_append, Option.or_eq_some_iff] at h
      rcases h with h | ⟨-, h⟩
      · obtain ⟨other, hother, hlast⟩ := ih h
        exact ⟨other, List.mem_cons_of_mem _ hother, hlast⟩
      · exact ⟨file, List.mem_cons_self, h⟩

theorem isSome_lastOf_of_file {disk : Disk} {root file : Path} {files : List Path} {key : String}
    (hfile : file ∈ files) (h : (lastOf key (disk.aliasesOf root file)).isSome) :
    (lastOf key (disk.definitionsIn root files)).isSome := by
  induction files with
  | nil => cases hfile
  | cons other files ih =>
      rw [definitionsIn_cons, lastOf_append, Option.isSome_or, Bool.or_eq_true]
      rcases List.mem_cons.mp hfile with rfl | hfile
      · exact Or.inr h
      · exact Or.inl (ih hfile)

/-- Where the files agree, it does not matter which of them is the last one to define a key. -/
theorem Agree.lastOf_eq_some_iff {disk : Disk} {root : Path} {files : List Path}
    (hagree : disk.Agree root files) (key : String) (kept : List String) :
    lastOf key (disk.definitionsIn root files) = some kept ↔
      ∃ file ∈ files, lastOf key (disk.aliasesOf root file) = some kept := by
  refine ⟨exists_file_of_lastOf, ?_⟩
  rintro ⟨file, hfile, hlast⟩
  have hsome := isSome_lastOf_of_file hfile (Option.isSome_of_eq_some hlast)
  obtain ⟨kept', hkept'⟩ := Option.isSome_iff_exists.mp hsome
  obtain ⟨file', hfile', hlast'⟩ := exists_file_of_lastOf hkept'
  rw [hkept', hagree file hfile file' hfile' key kept kept' hlast hlast']

theorem Agree.of_perm {disk : Disk} {root : Path} {files files' : List Path}
    (hagree : disk.Agree root files) (hperm : files'.Perm files) : disk.Agree root files' :=
  fun file hfile file' hfile' =>
    hagree file (hperm.mem_iff.mp hfile) file' (hperm.mem_iff.mp hfile')

theorem lookup_tableOf_snoc {disk : Disk} {root file : Path} {key : String} {kept : List String}
    (h : lastOf key (disk.aliasesOf root file) = some kept) (front : List Path) :
    (disk.tableOf root (front ++ [file])).lookup key = some kept := by
  rw [tableOf, lookup_setKeys, definitionsIn, List.flatMap_append, List.flatMap_singleton,
    lastOf_append, h, Option.some_or, Option.some_or]

theorem exists_perm_snoc {file : Path} {files : List Path} (h : file ∈ files) :
    ∃ front, (front ++ [file]).Perm files := by
  obtain ⟨before, after, rfl⟩ := List.append_of_mem h
  refine ⟨before ++ after, ?_⟩
  rw [List.append_assoc]
  exact List.perm_append_comm.append_left before

/-- **When the order does not matter.** -/
theorem tableOf_perm_iff (disk : Disk) (root : Path) (files : List Path) :
    (∀ files', files'.Perm files → disk.tableOf root files' = disk.tableOf root files) ↔
      disk.Agree root files := by
  constructor
  · intro hsame file hfile file' hfile' key kept kept' hlast hlast'
    -- Each of the two files can be the last one.
    obtain ⟨front, hfront⟩ := exists_perm_snoc hfile
    obtain ⟨front', hfront'⟩ := exists_perm_snoc hfile'
    have hkept := lookup_tableOf_snoc hlast front
    have hkept' := lookup_tableOf_snoc hlast' front'
    rw [hsame _ hfront] at hkept
    rw [hsame _ hfront', hkept] at hkept'
    exact Option.some.inj hkept'
  · intro hagree files' hperm
    -- The table is known by its look-ups, and these ask only which lists the files have.
    refine (setKeys_eq_iff _ _).mpr fun key => Option.ext fun kept => ?_
    rw [(hagree.of_perm hperm).lastOf_eq_some_iff, hagree.lastOf_eq_some_iff]
    simp only [hperm.mem_iff]

theorem tableOf_congr {disk disk' : Disk} {root : Path} {files : List Path}
    (h : ∀ file ∈ files, disk'.read file = disk.read file) :
    disk'.tableOf root files = disk.tableOf root files := by
  have hfile : ∀ file ∈ files, disk'.aliasesOf root file = disk.aliasesOf root file := by
    intro file hfile
    rw [aliasesOf, aliasesOf, h file hfile]
  rw [tableOf, tableOf, definitionsIn, definitionsIn, List.flatMap_congr hfile]

/-- **What is kept of the aliases.** Every entry that has a target makes a key of the table. Under
it stands the list of the last definition behind the entry, in its own file and in the files that
are found later, or else the targets of the entry itself, all of them; so its targets are there if
and only if that last definition has them too. The table is the same for all orders in which the
files can be found, on whatever disk, if and only if no two files end with different lists for one
key. -/
theorem collectAliases_keeps_last (disk : Disk) (root : Path) :
    (∀ before file after, disk.settingsFiles root = before ++ file :: after →
      ∀ settings, disk.HasSettings file settings →
      ∀ base, base = targetBase (file.parent?.getD root) settings →
      ∀ earlier name targets later, pathsEntries settings = earlier ++ (name, targets) :: later →
      targets ≠ [] →
      ∃ kept, (disk.collectAliases root).lookup (dropWildcards name) = some kept ∧
        kept = (lastOf (dropWildcards name)
          (later.filterMap (definitionOf base) ++ disk.definitionsIn root after)).getD
            (targets.map (cleanTarget base)) ∧
        ((∀ target ∈ targets, cleanTarget base target ∈ kept) ↔
          ∀ last, lastOf (dropWildcards name)
            (later.filterMap (definitionOf base) ++ disk.definitionsIn root after) = some last →
            ∀ target ∈ targets, cleanTarget base target ∈ last)) ∧
    ((∀ files, files.Perm (disk.settingsFiles root) →
        disk.tableOf root files = disk.collectAliases root) ↔
      disk.Agree root (disk.settingsFiles root)) ∧
    (∀ disk' : Disk, (∀ file ∈ disk'.settingsFiles root, disk'.read file = disk.read file) →
      disk'.collectAliases root = disk.tableOf root (disk'.settingsFiles root)) := by
  refine ⟨?_, tableOf_perm_iff disk root _, fun disk' hread => tableOf_congr hread⟩
  intro before file after hfiles settings hsettings base hbase earlier name targets later
    hentries htargets
  refine ⟨_, lookup_of_entry hfiles hsettings hbase hentries htargets, rfl, ?_⟩
  cases lastOf (dropWildcards name)
      (later.filterMap (definitionOf base) ++ disk.definitionsIn root after) with
  | none =>
      have hown : ∀ target ∈ targets, cleanTarget base target ∈ targets.map (cleanTarget base) :=
        fun target htarget => List.mem_map_of_mem htarget
      simpa using hown
  | some last => simp

def sampleCollision : List Char :=
  "\x7b\"compilerOptions\":\x7b\"paths\":\x7b\"@ui\":[\"a\"],\"@ui/*\":[\"b/*\"]\x7d\x7d\x7d".toList

theorem exists_settings_sampleCollision :
    ∃ settings, (ofSettings sampleCollision).HasSettings ⟨"/vfs/tsconfig.json"⟩ settings ∧
      pathsEntries settings = [("@ui", ["a"]), ("@ui/*", ["b/*"])] ∧
      targetBase ⟨"/vfs"⟩ settings = ⟨"/vfs/."⟩ := by
  have hread : (ofSettings sampleCollision).read ⟨"/vfs/tsconfig.json"⟩
      = .ok (String.ofList sampleCollision) :=
    eq_ok_of_toOption (by decide +kernel)
  have hslashes : ¬HasSlashes (String.ofList sampleCollision).toList := by
    rw [String.toList_ofList]
    decide +kernel
  have hparts : (Value.parse (String.ofList sampleCollision)).toOption.map
      (fun settings => (pathsEntries settings, targetBase ⟨"/vfs"⟩ settings))
      = some ([("@ui", ["a"]), ("@ui/*", ["b/*"])], ⟨"/vfs/."⟩) := by
    decide +kernel
  obtain ⟨settings, hsettings, hpair⟩ := Option.map_eq_some_iff.mp hparts
  obtain ⟨hentries, hbase⟩ := Prod.mk.inj hpair
  exact ⟨settings, ⟨_, hread, hslashes, eq_ok_of_toOption hsettings⟩, hentries, hbase⟩

theorem settingsFiles_sampleCollision :
    (ofSettings sampleCollision).settingsFiles ⟨"/vfs"⟩ = [⟨"/vfs/tsconfig.json"⟩] := by
  decide +kernel

theorem collectAliases_keeps_last_sample :
    ((ofSettings sampleCollision).collectAliases ⟨"/vfs"⟩).lookup "@ui" = some ["/vfs/b"] := by
  obtain ⟨settings, hsettings, hentries, hbase⟩ := exists_settings_sampleCollision
  have hdirectory : (Path.mk "/vfs/tsconfig.json").parent?.getD ⟨"/vfs"⟩ = ⟨"/vfs"⟩ := by decide
  obtain ⟨kept, hlookup, hkept, -⟩ :=
    (collectAliases_keeps_last (ofSettings sampleCollision) ⟨"/vfs"⟩).1 [] _ []
      settingsFiles_sampleCollision settings hsettings ⟨"/vfs/."⟩ (by rw [hdirectory, hbase])
      [("@ui", ["a"])] "@ui/*" ["b/*"] [] hentries (by decide)
  have hkey : dropWildcards "@ui/*" = "@ui" := by decide
  rw [hkey] at hlookup
  rw [hlookup, hkept]
  decide

def sampleAlias : Node :=
  .directory [(settingsName,
    .file "\x7b\"compilerOptions\":\x7b\"paths\":\x7b\"@ui/*\":[\"src/*\"]\x7d\x7d\x7d".toUTF8)]

def ofProjects (first second : String) : Disk where
  root := .directory [("vfs", .directory [(first, sampleAlias), (second, sampleAlias)])]

/-- An alias is lost to another one that differs by a wildcard, and which of two files defines an
alias depends on the order in which they are found. -/
theorem alias_lost :
    (∃ settings, (ofSettings sampleCollision).HasSettings ⟨"/vfs/tsconfig.json"⟩ settings ∧
      ("@ui", ["a"]) ∈ pathsEntries settings ∧
      cleanTarget (targetBase ⟨"/vfs"⟩ settings) "a" = "/vfs/a" ∧
      (ofSettings sampleCollision).collectAliases ⟨"/vfs"⟩ = [("@ui", ["/vfs/b"])]) ∧
    (ofProjects "app" "lib").collectAliases ⟨"/vfs"⟩ = [("@ui", ["/vfs/lib/src"])] ∧
    (ofProjects "lib" "app").collectAliases ⟨"/vfs"⟩ = [("@ui", ["/vfs/app/src"])] := by
  refine ⟨?_, by decide +kernel, by decide +kernel⟩
  obtain ⟨settings, hsettings, hentries, hbase⟩ := exists_settings_sampleCollision
  have hdirectory : (Path.mk "/vfs/tsconfig.json").parent?.getD ⟨"/vfs"⟩ = ⟨"/vfs"⟩ := by decide
  refine ⟨settings, hsettings, ?_, ?_, ?_⟩
  · rw [hentries]
    exact List.mem_cons_self
  · rw [hbase]
    decide
  · rw [collectAliases_eq, tableOf, settingsFiles_sampleCollision, definitionsIn,
      List.flatMap_singleton, hsettings.aliasesOf, hdirectory, hentries, hbase]
    decide

end Disk

end ModuleGraph
