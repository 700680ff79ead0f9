import ModuleGraph.Proofs.AliasTable
import ModuleGraph.Proofs.Path.Parent

set_option autoImplicit false

/-! # Aliases are well formed

Whatever is in the settings files below an absolute directory, the table of aliases has no wildcard
at the end of a key, no key without a target, and only absolute paths in normal form as targets.
Each list of targets comes from one entry of one file, target by target. A file that cannot be used
adds nothing, and neither does an entry without targets: the table is the same without them
(`Disk.collectAliases_well_formed`).
-/

namespace ModuleGraph

open Json

/-! ## Wildcards at the end -/

/-- What is left of a text without all of the wildcards at its end. -/
structure Trims (text left : String) : Prop where
  wildcards : ∃ n, text.toList = left.toList ++ (List.replicate n ['/', '*']).flatten
  trimmed : ¬['/', '*'] <:+ left.toList

theorem dropReversedWildcards_cases (cs : List Char) :
    (∃ n, cs = (List.replicate n ['*', '/']).flatten ++ dropReversedWildcards cs) ∧
      ¬['*', '/'] <+: dropReversedWildcards cs := by
  fun_induction dropReversedWildcards cs with
  | case1 rest ih =>
      obtain ⟨⟨n, hn⟩, hrest⟩ := ih
      refine ⟨⟨n + 1, ?_⟩, hrest⟩
      rw [List.replicate_succ, List.flatten_cons, List.append_assoc, ← hn]
      rfl
  | case2 cs hcs =>
      refine ⟨⟨0, rfl⟩, ?_⟩
      rintro ⟨rest, rfl⟩
      exact hcs rest rfl

theorem trims_dropWildcards (text : String) : Trims text (dropWildcards text) := by
  obtain ⟨⟨n, hn⟩, hrest⟩ := dropReversedWildcards_cases text.toList.reverse
  rw [dropWildcards]
  constructor
  · refine ⟨n, ?_⟩
    have htext := congrArg List.reverse hn
    rw [List.reverse_reverse, List.reverse_append, List.reverse_flatten, List.map_replicate,
      List.reverse_replicate] at htext
    rw [String.toList_ofList]
    exact htext
  · rw [String.toList_ofList, ← List.reverse_prefix, List.reverse_reverse]
    exact hrest

/-! ## Absolute directories -/

mutual

theorem isAbsolute_of_mem_listNode {disk : Disk} : ∀ {layers : List Layer} {place : Place}
    {p q : Path} (node : Node), p.isAbsolute = true → q ∈ listNode disk layers place p node →
    q.isAbsolute = true
  | _, _, p, q, .directory entries, hp, hq => by
      rw [listNode, List.mem_cons] at hq
      rcases hq with rfl | hq
      · exact hp
      · exact isAbsolute_of_mem_listEntries entries hp hq
  | _, _, p, q, .file _, hp, hq | _, _, p, q, .link _, hp, hq => by
      rw [listNode, List.mem_singleton] at hq
      rwa [hq]

theorem isAbsolute_of_mem_listEntries {disk : Disk} : ∀ {layers : List Layer} {place : Place}
    {p q : Path} (entries : List (String × Node)), p.isAbsolute = true →
    q ∈ listEntries disk layers place p entries → q.isAbsolute = true
  | _, _, _, _, [], _, hq => by
      rw [listEntries] at hq
      cases hq
  | _, _, p, q, (name, node) :: rest, hp, hq => by
      rw [listEntries, List.mem_append] at hq
      rcases hq with hq | hq
      · split at hq
        · cases hq
        · exact isAbsolute_of_mem_listNode node (Path.isAbsolute_join hp _) hq
      · exact isAbsolute_of_mem_listEntries rest hp hq

end

namespace Disk

variable {disk disk' : Disk} {root file : Path} {settings settings' : Value}

theorem isAbsolute_of_mem_listing {p : Path} (hroot : root.isAbsolute = true)
    (h : p ∈ disk.listing root) : p.isAbsolute = true := by
  unfold listing at h
  split at h
  · cases h
  · split at h
    · cases h
    · exact isAbsolute_of_mem_listNode _ hroot h

/-- A settings file lies in an absolute directory. -/
theorem exists_directory_of_mem (hroot : root.isAbsolute = true)
    (h : file ∈ disk.settingsFiles root) :
    ∃ directory, file.parent? = some directory ∧ directory.isAbsolute = true ∧
      file.components = directory.components ++ [.name settingsName] := by
  obtain ⟨hmem, hname⟩ := List.mem_filter.mp h
  have habsolute := isAbsolute_of_mem_listing hroot hmem
  have hsteps := Path.components_of_isAbsolute habsolute
  have hlast : file.components.getLast? = some (.name settingsName) := by
    rw [beq_iff_eq, Path.fileName?] at hname
    split at hname
    · rename_i s hs
      rw [hs, Option.some.inj hname]
    · cases hname
  -- The root is not the name, so that there is a component before it.
  obtain ⟨front, hfront⟩ := List.getLast?_eq_some_iff.mp hlast
  cases front with
  | nil =>
      rw [hfront] at hsteps
      cases hsteps
  | cons c front =>
      rw [hfront, List.cons_append] at hsteps
      obtain ⟨rfl, -⟩ := List.cons.inj hsteps
      have hend : file.components = .root :: (front ++ [.name settingsName]) := hfront
      obtain ⟨directory, hparent, hdirectory⟩ :=
        Path.exists_parent_of_isAbsolute habsolute hend
      refine ⟨directory, hparent, ?_, ?_⟩
      · rw [Path.isAbsolute_iff, hdirectory]
        rfl
      · rw [hfront, hdirectory]

/-! ## What a file adds -/

/-- A file can be read and is the JSON text of some settings, once its comments are cut. -/
def ReadsSettings (disk : Disk) (file : Path) (settings : Value) : Prop :=
  ∃ text, disk.read file = .ok text ∧ Value.parse (dropComments text) = .ok settings

/-- A file cannot be read, is not JSON, or has no alias with a target where aliases are
defined. -/
def IsUnusable (disk : Disk) (file : Path) : Prop :=
  ∀ settings, disk.ReadsSettings file settings → ∀ entry ∈ pathsEntries settings, entry.2 = []

theorem ReadsSettings.aliasesOf_eq (h : disk.ReadsSettings file settings) (root : Path) :
    disk.aliasesOf root file = (pathsEntries settings).filterMap
      (definitionOf (targetBase (file.parent?.getD root) settings)) := by
  obtain ⟨text, hread, hparse⟩ := h
  simp only [aliasesOf, hread, hparse, settingsAliases_eq]

theorem aliasesOf_of_not_reads (h : ∀ settings, ¬disk.ReadsSettings file settings)
    (root : Path) : disk.aliasesOf root file = [] := by
  rw [aliasesOf]
  split
  · rfl
  · rename_i text hread
    split
    · rfl
    · rename_i settings hparse
      exact absurd ⟨text, hread, hparse⟩ (h settings)

theorem definitionOf_eq_none {base : Path} {entry : String × List String} (h : entry.2 = []) :
    definitionOf base entry = none := if_pos h

theorem IsUnusable.aliasesOf_eq (h : disk.IsUnusable file) (root : Path) :
    disk.aliasesOf root file = [] := by
  by_cases hreads : ∃ settings, disk.ReadsSettings file settings
  · obtain ⟨settings, hsettings⟩ := hreads
    rw [hsettings.aliasesOf_eq, List.filterMap_eq_nil_iff]
    exact fun entry hentry => definitionOf_eq_none (h settings hsettings entry hentry)
  · exact aliasesOf_of_not_reads (not_exists.mp hreads) root

/-- Every definition in the table comes from an entry of a file. -/
theorem exists_entry_of_mem {key : String} {values : List String}
    (h : (key, values) ∈ disk.collectAliases root) :
    ∃ file ∈ disk.settingsFiles root, ∃ settings, disk.ReadsSettings file settings ∧
      ∃ entry ∈ pathsEntries settings,
        definitionOf (targetBase (file.parent?.getD root) settings) entry = some (key, values) := by
  rw [collectAliases_eq, tableOf] at h
  have hdefined := (mem_setKeys h).resolve_right List.not_mem_nil
  obtain ⟨file, hfile, hmem⟩ := List.mem_flatMap.mp hdefined
  by_cases hreads : ∃ settings, disk.ReadsSettings file settings
  · obtain ⟨settings, hsettings⟩ := hreads
    rw [hsettings.aliasesOf_eq] at hmem
    obtain ⟨entry, hentry, hdefinition⟩ := List.mem_filterMap.mp hmem
    exact ⟨file, hfile, settings, hsettings, entry, hentry, hdefinition⟩
  · rw [aliasesOf_of_not_reads (not_exists.mp hreads)] at hmem
    cases hmem

theorem definitionOf_eq_some {base : Path} {entry : String × List String} {key : String}
    {values : List String} (h : definitionOf base entry = some (key, values)) :
    entry.2 ≠ [] ∧ dropWildcards entry.1 = key ∧ entry.2.map (cleanTarget base) = values := by
  unfold definitionOf at h
  split at h
  · cases h
  · rename_i hne
    obtain ⟨hkey, hvalues⟩ := Prod.mk.inj (Option.some.inj h)
    exact ⟨hne, hkey, hvalues⟩

theorem mk_cleanTarget (base : Path) (target : String) :
    Path.mk (cleanTarget base target) = (base.join ⟨dropWildcards target⟩).clean := by
  rw [cleanTarget]

/-! ## Files and entries without aliases -/

theorem definitionsIn_congr (root : Path) {files : List Path}
    (h : ∀ other ∈ files, disk'.read other = disk.read other) :
    disk'.definitionsIn root files = disk.definitionsIn root files :=
  List.flatMap_congr fun other hother => by rw [aliasesOf, aliasesOf, h other hother]

/-- Around one file, the table depends on what this file adds and on what the others say. -/
theorem collectAliases_of_aliasesOf {before middle middle' after : List Path}
    (hfiles : disk.settingsFiles root = before ++ middle ++ after)
    (hfiles' : disk'.settingsFiles root = before ++ middle' ++ after)
    (hothers : ∀ other ∈ before ++ after, disk'.read other = disk.read other)
    (hmiddle : disk'.definitionsIn root middle' = disk.definitionsIn root middle) :
    disk'.collectAliases root = disk.collectAliases root := by
  rw [List.forall_mem_append] at hothers
  have hbefore := definitionsIn_congr root hothers.1
  have hafter := definitionsIn_congr root hothers.2
  simp only [definitionsIn] at hbefore hafter hmiddle
  rw [collectAliases_eq, collectAliases_eq, tableOf, tableOf, hfiles, hfiles']
  simp only [definitionsIn, List.flatMap_append, hbefore, hafter, hmiddle]

/-- **Aliases are well formed.** Take any disk and an absolute directory. No key of the table ends
in a wildcard and every key has a target. All targets of a key come from one entry of one settings
file, in order: each is the normal form of the target without its wildcards, as read from the base
directory of the file, and is absolute. A file that cannot be used can be away, and so can an entry
without targets: as long as the other files say the same, the table is the same. -/
theorem collectAliases_well_formed (hroot : root.isAbsolute = true) (disk : Disk) :
    (∀ key values, (key, values) ∈ disk.collectAliases root →
      ¬['/', '*'] <:+ key.toList ∧ values ≠ [] ∧
      (∀ value ∈ values, (Path.mk value).isAbsolute = true ∧ (Path.mk value).IsClean) ∧
      ∃ file ∈ disk.settingsFiles root, ∃ directory settings,
        file.parent? = some directory ∧
        file.components = directory.components ++ [.name settingsName] ∧
        disk.ReadsSettings file settings ∧
        ∃ name targets, (name, targets) ∈ pathsEntries settings ∧ Trims name key ∧
          List.Forall₂ (fun target value => ∃ left, Trims target left ∧
            Path.mk value = ((targetBase directory settings).join ⟨left⟩).clean)
            targets values) ∧
    (∀ before file after, disk.settingsFiles root = before ++ [file] ++ after →
      ∀ disk' : Disk, (∀ other ∈ before ++ after, disk'.read other = disk.read other) →
        (disk.IsUnusable file → disk'.settingsFiles root = before ++ after →
          disk'.collectAliases root = disk.collectAliases root) ∧
        (∀ settings settings' earlier name later,
          disk.ReadsSettings file settings → disk'.ReadsSettings file settings' →
          pathsEntries settings = earlier ++ (name, []) :: later →
          pathsEntries settings' = earlier ++ later →
          (∀ directory, targetBase directory settings' = targetBase directory settings) →
          disk'.settingsFiles root = before ++ [file] ++ after →
          disk'.collectAliases root = disk.collectAliases root)) := by
  constructor
  · intro key values hmem
    obtain ⟨file, hfile, settings, hsettings, ⟨name, targets⟩, hentry, hdefinition⟩ :=
      exists_entry_of_mem hmem
    obtain ⟨directory, hparent, habsolute, hcomponents⟩ := exists_directory_of_mem hroot hfile
    rw [hparent, Option.getD_some] at hdefinition
    obtain ⟨hne, rfl, rfl⟩ := definitionOf_eq_some hdefinition
    have hbase : (targetBase directory settings).isAbsolute = true :=
      Path.isAbsolute_join habsolute _
    refine ⟨(trims_dropWildcards name).trimmed, by simpa using hne, ?_, file, hfile, directory,
      settings, hparent, hcomponents, hsettings, name, targets, hentry,
      trims_dropWildcards name, ?_⟩
    · intro value hvalue
      obtain ⟨target, -, rfl⟩ := List.mem_map.mp hvalue
      rw [mk_cleanTarget, Path.isAbsolute_clean]
      exact ⟨Path.isAbsolute_join hbase _, Path.clean_clean _⟩
    · rw [List.forall₂_map_right_iff, List.forall₂_same]
      exact fun target _ =>
        ⟨dropWildcards target, trims_dropWildcards target, mk_cleanTarget _ target⟩
  · intro before file after hfiles disk' hothers
    constructor
    · intro hunusable hfiles'
      have hempty : disk.definitionsIn root [file] = [] := by
        rw [definitionsIn_cons, hunusable.aliasesOf_eq]
        rfl
      rw [← List.append_nil before] at hfiles'
      exact collectAliases_of_aliasesOf hfiles hfiles' hothers hempty.symm
    · intro settings settings' earlier name later hsettings hsettings' hentries hentries' hbase
        hfiles'
      refine collectAliases_of_aliasesOf hfiles hfiles' hothers ?_
      rw [definitionsIn_cons, definitionsIn_cons, hsettings.aliasesOf_eq, hsettings'.aliasesOf_eq,
        hbase, hentries, hentries', List.filterMap_append, List.filterMap_append,
        List.filterMap_cons_none (definitionOf_eq_none rfl)]
      rfl

/-- Settings with wildcards, a number and steps back; `more` are further entries. -/
def sampleTargets (more : String) : String :=
  "\x7b\"compilerOptions\":\x7b\"baseUrl\":\"../b\",\"paths\":\x7b\"@/*/*\":[\"./a/*/*\",5]" ++
    more ++ "\x7d\x7d\x7d"

def ofDirectories (directories : List (String × String)) : Disk where
  root := .directory (directories.map fun directory =>
    (directory.1, .directory [(settingsName, .file directory.2.toUTF8)]))

def sampleUsable : Disk := ofDirectories [("p", sampleTargets "")]

def sampleBroken : Disk := ofDirectories [("p", sampleTargets ""), ("q", "\x7b")]

def sampleNoTarget : Disk := ofDirectories [("p", sampleTargets ",\"@n\":[7]")]

theorem isUnusable_sampleBroken : sampleBroken.IsUnusable ⟨"/q/tsconfig.json"⟩ := by
  rintro settings ⟨text, hread, hparse⟩
  have htext : (sampleBroken.read ⟨"/q/tsconfig.json"⟩).toOption = some "\x7b" := by
    decide +kernel
  have hbroken : (Value.parse (dropComments "\x7b")).toOption.isNone = true := by decide +kernel
  rw [hread] at htext
  obtain rfl := Option.some.inj htext
  rw [hparse] at hbroken
  cases hbroken

/-- What the settings of a sample say. -/
theorem exists_settings_sampleTargets (disk : Disk) (more : String)
    (entries : List (String × List String))
    (hread : (disk.read ⟨"/p/tsconfig.json"⟩).toOption = some (sampleTargets more))
    (hparts : (Value.parse (dropComments (sampleTargets more))).toOption.map
      (fun settings => (pathsEntries settings,
        ((settings.get? "compilerOptions").bind fun options => options.get? "baseUrl").bind
          Value.text?)) = some (entries, some "../b")) :
    ∃ settings, disk.ReadsSettings ⟨"/p/tsconfig.json"⟩ settings ∧
      pathsEntries settings = entries ∧
      ∀ directory, targetBase directory settings = directory.join ⟨"../b"⟩ := by
  obtain ⟨settings, hsettings, hpair⟩ := Option.map_eq_some_iff.mp hparts
  obtain ⟨hentries, hbase⟩ := Prod.mk.inj hpair
  refine ⟨settings, ⟨_, eq_ok_of_toOption hread, eq_ok_of_toOption hsettings⟩, hentries,
    fun directory => ?_⟩
  rw [targetBase, hbase]
  rfl

theorem collectAliases_well_formed_sample :
    (Path.mk "/").isAbsolute = true ∧
    ("@", ["/b/a"]) ∈ sampleUsable.collectAliases ⟨"/"⟩ ∧
    (Path.mk "/b/a").isAbsolute = true ∧ (Path.mk "/b/a").IsClean ∧
    sampleBroken.IsUnusable ⟨"/q/tsconfig.json"⟩ ∧
    sampleUsable.collectAliases ⟨"/"⟩ = sampleBroken.collectAliases ⟨"/"⟩ ∧
    sampleUsable.collectAliases ⟨"/"⟩ = sampleNoTarget.collectAliases ⟨"/"⟩ := by
  have hroot : (Path.mk "/").isAbsolute = true := by decide
  have husable : sampleUsable.settingsFiles ⟨"/"⟩ = [⟨"/p/tsconfig.json"⟩] := by decide +kernel
  have hbroken : sampleBroken.settingsFiles ⟨"/"⟩
      = [⟨"/p/tsconfig.json"⟩] ++ [⟨"/q/tsconfig.json"⟩] ++ [] := by decide +kernel
  have hnoTarget : sampleNoTarget.settingsFiles ⟨"/"⟩ = [] ++ [⟨"/p/tsconfig.json"⟩] ++ [] := by
    decide +kernel
  have hreadUsable : (sampleUsable.read ⟨"/p/tsconfig.json"⟩).toOption
      = some (sampleTargets "") := by decide +kernel
  have hreadBroken : (sampleBroken.read ⟨"/p/tsconfig.json"⟩).toOption
      = some (sampleTargets "") := by decide +kernel
  have hothers : ∀ other ∈ [⟨"/p/tsconfig.json"⟩] ++ [],
      sampleUsable.read other = sampleBroken.read other := by
    intro other hother
    obtain rfl := List.mem_singleton.mp hother
    rw [eq_ok_of_toOption hreadUsable, eq_ok_of_toOption hreadBroken]
  obtain ⟨settings, hsettings, hentries, hbase⟩ :=
    exists_settings_sampleTargets sampleNoTarget ",\"@n\":[7]"
      ([("@/*/*", ["./a/*/*"])] ++ ("@n", []) :: []) (by decide +kernel) (by decide +kernel)
  obtain ⟨settings', hsettings', hentries', hbase'⟩ :=
    exists_settings_sampleTargets sampleUsable "" ([("@/*/*", ["./a/*/*"])] ++ []) hreadUsable
      (by decide +kernel)
  have hmem : ("@", ["/b/a"]) ∈ sampleUsable.collectAliases ⟨"/"⟩ := by
    have hdirectory : (Path.mk "/p/tsconfig.json").parent?.getD ⟨"/"⟩ = ⟨"/p"⟩ := by decide
    rw [collectAliases_eq, tableOf, husable, definitionsIn, List.flatMap_singleton,
      hsettings'.aliasesOf_eq, hdirectory, hentries', hbase']
    decide
  have hvalues := ((collectAliases_well_formed hroot sampleUsable).1 _ _ hmem).2.2.1 "/b/a"
    List.mem_cons_self
  refine ⟨hroot, hmem, hvalues.1, hvalues.2, isUnusable_sampleBroken, ?_, ?_⟩
  · exact ((collectAliases_well_formed hroot sampleBroken).2 _ _ _ hbroken _ hothers).1
      isUnusable_sampleBroken husable
  · exact ((collectAliases_well_formed hroot sampleNoTarget).2 _ _ _ hnoTarget sampleUsable
      (by simp)).2 settings settings' _ _ _ hsettings hsettings' hentries hentries'
      (fun directory => by rw [hbase, hbase']) husable

end Disk

end ModuleGraph
