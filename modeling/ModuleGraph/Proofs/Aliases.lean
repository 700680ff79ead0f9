import ModuleGraph.Aliases
import ModuleGraph.Proofs.Json.Layout
import ModuleGraph.Proofs.Path.Components

set_option autoImplicit false

/-! # Settings with comments

A settings file is JSON text with comments at the ends of its lines. `Commented` says what it is
to add such comments, and `Commented.cuts` what is left when they are cut out again, line by line
and at the first pair of slashes. Where the text itself has no pair of slashes, the text is back,
up to line ends. Where it has one, in a string, the string is cut in two and nothing can be read
any more.
-/

namespace ModuleGraph

open Json Json.Document

/-! ## Lines -/

section Lines

variable {α : Type} [DecidableEq α]

theorem cutLines_of_not_mem {feed : α} {line : List α} (h : feed ∉ line) :
    cutLines feed line = ([], line) := by
  induction line with
  | nil => rfl
  | cons c line ih =>
      rw [List.mem_cons, not_or] at h
      simp only [cutLines, ih h.2, if_neg (Ne.symm h.1)]

theorem cutLines_feed {feed : α} {line : List α} (h : feed ∉ line) (more : List α) :
    cutLines feed (line ++ feed :: more)
      = (line :: (cutLines feed more).1, (cutLines feed more).2) := by
  induction line with
  | nil => simp only [List.nil_append, cutLines, if_true]
  | cons c line ih =>
      rw [List.mem_cons, not_or] at h
      rw [List.cons_append, cutLines, ih h.2]
      simp only [if_neg (Ne.symm h.1)]

theorem linesOf_of_not_mem {feed carriageReturn : α} {line : List α} (h : feed ∉ line) :
    linesOf feed carriageReturn line = if line = [] then [] else [line] := by
  simp [linesOf, cutLines_of_not_mem h]

theorem linesOf_feed {feed carriageReturn : α} {line : List α} (h : feed ∉ line)
    (more : List α) :
    linesOf feed carriageReturn (line ++ feed :: more)
      = dropReturn carriageReturn line :: linesOf feed carriageReturn more := by
  simp [linesOf, cutLines_feed h]

theorem dropReturn_cons {carriageReturn c : α} (hc : c ≠ carriageReturn) (front back : List α) :
    dropReturn carriageReturn (front ++ c :: back)
      = front ++ c :: dropReturn carriageReturn back := by
  cases back with
  | nil => simp [dropReturn, hc]
  | cons d back =>
      have hlast : (front ++ c :: d :: back).getLast? = (d :: back).getLast? := by
        rw [List.getLast?_append, List.getLast?_cons_cons, Option.or_of_isSome (by simp)]
      have hdrop : (front ++ c :: d :: back).dropLast = front ++ c :: (d :: back).dropLast := by
        rw [List.dropLast_append_cons, List.dropLast_cons_cons]
      unfold dropReturn
      rw [hlast, hdrop]
      split <;> rfl

theorem dropReturn_cases (carriageReturn : α) (line : List α) :
    dropReturn carriageReturn line = line ∨
      line = dropReturn carriageReturn line ++ [carriageReturn] := by
  unfold dropReturn
  split
  · rename_i hlast
    obtain ⟨front, rfl⟩ := List.getLast?_eq_some_iff.mp hlast
    exact Or.inr (by rw [List.dropLast_concat])
  · exact Or.inl rfl

end Lines

/-! ## Pairs of slashes -/

/-- A pair of slashes stands somewhere in the text. -/
def HasSlashes (cs : List Char) : Prop := ['/', '/'] <:+: cs

theorem hasSlashes_cons_iff {c : Char} {cs : List Char} :
    HasSlashes (c :: cs) ↔ (c = '/' ∧ cs.head? = some '/') ∨ HasSlashes cs := by
  have hsingle : ['/'] <+: cs ↔ cs.head? = some '/' := by
    cases cs <;> simp [eq_comm]
  rw [HasSlashes, List.infix_cons_iff, List.cons_prefix_cons, hsingle, eq_comm]
  exact Iff.rfl

theorem not_hasSlashes_nil : ¬HasSlashes [] := by
  simp [HasSlashes]

instance : (cs : List Char) → Decidable (HasSlashes cs)
  | [] => .isFalse not_hasSlashes_nil
  | _ :: cs =>
    have : Decidable (HasSlashes cs) := instDecidableHasSlashes cs
    decidable_of_iff _ hasSlashes_cons_iff.symm

theorem not_hasSlashes_of_append {front back : List Char} (h : ¬HasSlashes (front ++ back)) :
    ¬HasSlashes front :=
  fun hfront => h (List.IsInfix.trans hfront (List.prefix_append front back).isInfix)

/-- A text without any pair of slashes keeps all of its characters. -/
theorem cutComment_of_not_hasSlashes {cs : List Char} (h : ¬HasSlashes cs) :
    cutComment cs = cs := by
  induction cs with
  | nil => rfl
  | cons c cs ih =>
      rw [hasSlashes_cons_iff, not_or] at h
      rw [cutComment, ih h.2]
      rintro rest rfl rfl
      exact h.1 ⟨rfl, rfl⟩

/-- The text before a pair of slashes, if this is the first pair. -/
theorem cutComment_slashes {front : List Char} (h : ¬HasSlashes (front ++ ['/']))
    (note : List Char) : cutComment (front ++ '/' :: '/' :: note) = front := by
  induction front with
  | nil => rfl
  | cons c front ih =>
      rw [List.cons_append, hasSlashes_cons_iff, not_or] at h
      rw [List.cons_append, cutComment, ih h.2]
      rintro rest rfl hrest
      refine h.1 ⟨rfl, ?_⟩
      cases front with
      | nil => rfl
      | cons d front => exact congrArg List.head? hrest

theorem HasSlashes.exists_first {cs : List Char} (h : HasSlashes cs) :
    ∃ front note, cs = front ++ '/' :: '/' :: note ∧ ¬HasSlashes (front ++ ['/']) := by
  induction cs with
  | nil => exact absurd h not_hasSlashes_nil
  | cons c cs ih =>
      by_cases hpair : c = '/' ∧ cs.head? = some '/'
      · obtain ⟨rfl, hhead⟩ := hpair
        obtain ⟨note, rfl⟩ := List.head?_eq_some_iff.mp hhead
        exact ⟨[], note, rfl, by decide⟩
      · obtain ⟨front, note, rfl, hfirst⟩ := ih ((hasSlashes_cons_iff.mp h).resolve_left hpair)
        refine ⟨c :: front, note, rfl, ?_⟩
        rw [List.cons_append, hasSlashes_cons_iff, not_or]
        refine ⟨fun hslash => hpair ⟨hslash.1, ?_⟩, hfirst⟩
        rw [← hslash.2, List.head?_append, List.head?_append]
        rfl

/-! ## Comments -/

/-- A line and the same line with a comment at its end, or with none. A carriage return at the
end of the line may stay there. -/
inductive EndsInComment (line : List Char) : List Char → Prop where
  | none : EndsInComment line line
  | comment {note : List Char} : '\n' ∉ note → EndsInComment line (line ++ '/' :: '/' :: note)
  | beforeReturn {front note : List Char} : line = front ++ ['\r'] → '\n' ∉ note →
      EndsInComment line (front ++ '/' :: '/' :: (note ++ ['\r']))

/-- A text and the same text with comments at the ends of some of its lines. -/
inductive Commented : List Char → List Char → Prop where
  | last {line line' : List Char} : '\n' ∉ line → EndsInComment line line' →
      Commented line line'
  | line {line line' more more' : List Char} : '\n' ∉ line → EndsInComment line line' →
      Commented more more' → Commented (line ++ '\n' :: more) (line' ++ '\n' :: more')

/-- A text may have no comment at all. -/
theorem Commented.refl (cs : List Char) : Commented cs cs := by
  by_cases hfeed : '\n' ∈ cs
  · obtain ⟨line, more, rfl, hline⟩ := List.eq_append_cons_of_mem hfeed
    exact .line hline .none (Commented.refl more)
  · exact .last hfeed .none
termination_by cs.length

/-- A text and what is left of it when its comments are cut: the text up to line ends, or, where
the text has a pair of slashes of its own, a text with a string that does not end. -/
structure Cuts (cs left : List Char) : Prop where
  thinned : ¬HasSlashes cs → Thinned cs left
  broken : HasSlashes cs → ¬Balanced left

theorem Cuts.of_not_hasSlashes {line : List Char} (h : ¬HasSlashes line) : Cuts line line :=
  ⟨fun _ => .refl line, fun hslashes => absurd hslashes h⟩

theorem Cuts.return_of_not_hasSlashes {front : List Char} (h : ¬HasSlashes (front ++ ['\r'])) :
    Cuts (front ++ ['\r']) front := by
  have hthinned := (Thinned.refl front).append (.drop (.inl rfl) .nil)
  rw [List.append_nil] at hthinned
  exact ⟨fun _ => hthinned, fun hslashes => absurd hslashes h⟩

theorem EndsInComment.feed_not_mem {line line' : List Char} (h : EndsInComment line line')
    (hfeed : '\n' ∉ line) : '\n' ∉ line' := by
  cases h with
  | none => exact hfeed
  | comment hnote => simp [hfeed, hnote]
  | beforeReturn hline hnote =>
      subst hline
      simp only [List.mem_append, List.mem_singleton, not_or] at hfeed
      simp [hfeed.1, hnote]

/-- Outside of strings no slash stands before the end of a line, so that a pair of slashes that
is added there is a new one. -/
theorem not_hasSlashes_snoc {front back : List Char} (h : ¬HasSlashes front)
    (hbalanced : Balanced (front ++ back)) (hback : back = [] ∨ back = ['\r']) :
    ¬HasSlashes (front ++ ['/']) := by
  intro hpair
  rcases List.infix_concat_iff.mp hpair with hlast | hfront
  · obtain ⟨start, hstart⟩ := hlast
    have hfront : front = start ++ ['/'] := by
      have hsplit : (start ++ ['/']) ++ ['/'] = front ++ ['/'] := by
        rw [List.append_assoc]
        exact hstart
      exact (List.append_cancel_right hsplit).symm
    rw [hfront, List.append_assoc, List.singleton_append] at hbalanced
    have hinside := hbalanced.slash.2
    rcases hback with rfl | rfl
    · cases hinside
    · cases hinside
  · exact h hfront

/-- A line with a comment is cut in front of the first pair of slashes, which is that of the
comment unless the line has one itself. -/
theorem EndsInComment.exists_front {line line' : List Char} (h : EndsInComment line line')
    (hbalanced : Balanced line) :
    (line' = line ∧ ¬HasSlashes line) ∨
      ∃ front note, line' = front ++ '/' :: '/' :: note ∧ ¬HasSlashes (front ++ ['/']) ∧
        Cuts line front := by
  by_cases hslashes : HasSlashes line
  · right
    obtain ⟨front, note, rfl, hfirst⟩ := hslashes.exists_first
    have hcuts : Cuts (front ++ '/' :: '/' :: note) front :=
      ⟨fun hnone => absurd hslashes hnone, fun _ => hbalanced.slash.1⟩
    cases h with
    | none => exact ⟨front, note, rfl, hfirst, hcuts⟩
    | @comment added _ =>
        exact ⟨front, note ++ '/' :: '/' :: added, by simp, hfirst, hcuts⟩
    | @beforeReturn start added hline _ =>
        -- The carriage return is the last character of the note.
        rcases List.eq_nil_or_concat note with rfl | ⟨rest, c, rfl⟩
        · have hlast := congrArg List.getLast? hline
          simp at hlast
        · have hsplit : (front ++ '/' :: '/' :: rest) ++ [c] = start ++ ['\r'] := by
            rw [← hline]
            simp
          obtain ⟨rfl, -⟩ := List.append_inj' hsplit rfl
          exact ⟨front, rest ++ '/' :: '/' :: (added ++ ['\r']), by simp, hfirst, hcuts⟩
  · cases h with
    | none => exact Or.inl ⟨rfl, hslashes⟩
    | @comment added _ =>
        rw [← List.append_nil line] at hbalanced
        have hfirst := not_hasSlashes_snoc hslashes hbalanced (.inl rfl)
        exact Or.inr ⟨line, added, rfl, hfirst, .of_not_hasSlashes hslashes⟩
    | @beforeReturn front added hline _ =>
        subst hline
        have hnone := not_hasSlashes_of_append hslashes
        have hfirst := not_hasSlashes_snoc hnone hbalanced (.inr rfl)
        exact Or.inr ⟨front, added ++ ['\r'], rfl, hfirst, .return_of_not_hasSlashes hslashes⟩

/-- What becomes of a line, whether or not a carriage return at its end is dropped first. -/
theorem EndsInComment.cuts {line line' : List Char} (h : EndsInComment line line')
    (hbalanced : Balanced line) :
    Cuts line (cutComment line') ∧ Cuts line (cutComment (dropReturn '\r' line')) := by
  rcases h.exists_front hbalanced with ⟨rfl, hnone⟩ | ⟨front, note, rfl, hfirst, hcuts⟩
  · have hwhole := cutComment_of_not_hasSlashes hnone
    rw [hwhole]
    refine ⟨.of_not_hasSlashes hnone, ?_⟩
    rcases dropReturn_cases '\r' line' with heq | heq
    · rw [heq, hwhole]
      exact .of_not_hasSlashes hnone
    · rw [heq] at hnone
      rw [cutComment_of_not_hasSlashes (not_hasSlashes_of_append hnone)]
      have hreturn := Cuts.return_of_not_hasSlashes hnone
      rwa [← heq] at hreturn
  · rw [dropReturn_cons (by decide), ← List.nil_append ('/' :: note), dropReturn_cons (by decide)]
    simp only [List.nil_append]
    rw [cutComment_slashes hfirst, cutComment_slashes hfirst]
    exact ⟨hcuts, hcuts⟩

def withoutComments (cs : List Char) : List Char :=
  ['\n'].intercalate ((linesOf '\n' '\r' cs).map cutComment)

theorem toList_dropComments (text : String) :
    (dropComments text).toList = withoutComments text.toList := by
  simp [dropComments, textLines, withoutComments, Function.comp_def]

theorem withoutComments_last {line : List Char} (h : '\n' ∉ line) :
    withoutComments line = cutComment line := by
  rw [withoutComments, linesOf_of_not_mem h]
  by_cases hline : line = []
  · subst hline
    rfl
  · rw [if_neg hline]
    exact List.intercalate_singleton

/-- A line feed is kept, unless it is the last character. -/
theorem withoutComments_feed {line : List Char} (h : '\n' ∉ line) (more : List Char) :
    (withoutComments (line ++ '\n' :: more)
        = cutComment (dropReturn '\r' line) ++ '\n' :: withoutComments more) ∨
      (withoutComments more = [] ∧
        withoutComments (line ++ '\n' :: more) = cutComment (dropReturn '\r' line)) := by
  unfold withoutComments
  rw [linesOf_feed h, List.map_cons]
  cases hmore : linesOf '\n' '\r' more with
  | nil => exact Or.inr ⟨rfl, List.intercalate_singleton⟩
  | cons next rest =>
      left
      rw [List.map_cons, List.intercalate_cons_cons]
      simp

theorem hasSlashes_feed_iff {line more : List Char} :
    HasSlashes (line ++ '\n' :: more) ↔ HasSlashes line ∨ HasSlashes more :=
  infix_append_cons_iff (by decide) line more

/-- **What is left of a text with comments.** -/
theorem Commented.cuts {cs cs' : List Char} (h : Commented cs cs') (hbalanced : Balanced cs) :
    Cuts cs (withoutComments cs') := by
  induction h with
  | last hfeed hline =>
      rw [withoutComments_last (hline.feed_not_mem hfeed)]
      exact (hline.cuts hbalanced).1
  | @line line line' more more' hfeed hline _ ih =>
      rw [balanced_feed_iff] at hbalanced
      have hcut := (hline.cuts hbalanced.1).2
      have hmore := ih hbalanced.2
      constructor
      · intro hnone
        rw [hasSlashes_feed_iff, not_or] at hnone
        have hfront := hcut.thinned hnone.1
        have hback := hmore.thinned hnone.2
        rcases withoutComments_feed (hline.feed_not_mem hfeed) more' with heq | ⟨hempty, heq⟩
        · rw [heq]
          exact hfront.append (.keep hback)
        · rw [heq, ← List.append_nil (cutComment _)]
          rw [hempty] at hback
          exact hfront.append (.drop (.inr rfl) hback)
      · intro hslashes hleft
        rcases withoutComments_feed (hline.feed_not_mem hfeed) more' with heq | ⟨hempty, heq⟩
        · rw [heq, balanced_feed_iff] at hleft
          rcases hasSlashes_feed_iff.mp hslashes with hslashes | hslashes
          · exact hcut.broken hslashes hleft.1
          · exact hmore.broken hslashes hleft.2
        · rw [heq] at hleft
          rcases hasSlashes_feed_iff.mp hslashes with hslashes | hslashes
          · exact hcut.broken hslashes hleft
          · rw [hempty] at hmore
            exact hmore.broken hslashes rfl

/-! ## Settings files -/

/-- The value of a text is read again from the text with comments, or nothing is. -/
theorem Commented.parse {text text' : String} {settings : Value}
    (hvalue : Value.parse text = .ok settings) (h : Commented text.toList text'.toList) :
    (¬HasSlashes text.toList → Value.parse (dropComments text') = .ok settings) ∧
      (HasSlashes text.toList → ∃ fault, Value.parse (dropComments text') = .error fault) := by
  have hcuts := h.cuts (Value.balanced_of_parse hvalue)
  rw [← toList_dropComments] at hcuts
  constructor
  · intro hnone
    exact Value.parse_of_thinned hvalue (hcuts.thinned hnone)
  · intro hslashes
    cases hparse : Value.parse (dropComments text') with
    | error fault => exact ⟨fault, rfl⟩
    | ok other => exact absurd (Value.balanced_of_parse hparse) (hcuts.broken hslashes)

namespace Disk

/-- The aliases of a file with comments are those of its value, or none. -/
theorem aliasesOf_commented {disk : Disk} (root : Path) {file : Path} {text text' : String}
    {settings : Value} (hvalue : Value.parse text = .ok settings)
    (hcommented : Commented text.toList text'.toList) (hread : disk.read file = .ok text') :
    (¬HasSlashes text.toList →
      disk.aliasesOf root file = settingsAliases (file.parent?.getD root) settings) ∧
      (HasSlashes text.toList → disk.aliasesOf root file = []) := by
  obtain ⟨hsame, hbroken⟩ := hcommented.parse hvalue
  constructor
  · intro hnone
    simp only [aliasesOf, hread, hsame hnone]
  · intro hslashes
    obtain ⟨fault, hfault⟩ := hbroken hslashes
    simp only [aliasesOf, hread, hfault]

theorem collectAliases_of_files {disk : Disk} {root file : Path} {before after : List Path}
    (hfiles : (disk.listing root).filter (fun p => p.fileName? == some settingsName)
      = before ++ file :: after) :
    disk.collectAliases root = setKeys (before.flatMap (disk.aliasesOf root) ++
      disk.aliasesOf root file ++ after.flatMap (disk.aliasesOf root)) [] := by
  rw [collectAliases, hfiles, List.flatMap_append, List.flatMap_cons, List.append_assoc]

/-- **Comments in settings.** A settings file that is JSON text with comments at the ends of some
of its lines, or of none, adds the aliases of its value to those of the other files, as long as
the JSON text has no pair of slashes. A pair of slashes in one of its strings is cut out as a
comment: the text can no longer be read, and the file adds no alias. -/
theorem collectAliases_commented {disk : Disk} {root file : Path} {text text' : String}
    {settings : Value} {before after : List Path} (hvalue : Value.parse text = .ok settings)
    (hcommented : Commented text.toList text'.toList) (hread : disk.read file = .ok text')
    (hfiles : (disk.listing root).filter (fun p => p.fileName? == some settingsName)
      = before ++ file :: after) :
    (¬HasSlashes text.toList → Value.parse (dropComments text') = .ok settings ∧
      disk.collectAliases root = setKeys (before.flatMap (disk.aliasesOf root) ++
        settingsAliases (file.parent?.getD root) settings ++
        after.flatMap (disk.aliasesOf root)) []) ∧
    (HasSlashes text.toList → (∃ fault, Value.parse (dropComments text') = .error fault) ∧
      disk.collectAliases root = setKeys (before.flatMap (disk.aliasesOf root) ++
        after.flatMap (disk.aliasesOf root)) []) := by
  obtain ⟨hsame, hbroken⟩ := hcommented.parse hvalue
  obtain ⟨hadded, hnothing⟩ := aliasesOf_commented root hvalue hcommented hread
  rw [collectAliases_of_files hfiles]
  constructor
  · intro hnone
    exact ⟨hsame hnone, by rw [hadded hnone]⟩
  · intro hslashes
    exact ⟨hbroken hslashes, by rw [hnothing hslashes, List.append_nil]⟩

def ofSettings (text : List Char) : Disk where
  root := .directory
    [("vfs", .directory [(settingsName, .file (String.ofList text).toUTF8)])]

def sampleLine : List Char := "\x7b\"compilerOptions\":\x7b".toList

def sampleNextLine : List Char := "\"paths\":\x7b\"@/*\":[\"a/*\"]\x7d\x7d\x7d".toList

def sampleNote : List Char := " \"".toList

def sampleSettings : List Char :=
  sampleLine ++ ['\r'] ++ '\n' :: (sampleNextLine ++ '\n' :: [])

def sampleCommented : List Char :=
  sampleLine ++ '/' :: '/' :: (sampleNote ++ ['\r']) ++
    '\n' :: (sampleNextLine ++ '/' :: '/' :: [] ++ '\n' :: [])

theorem commented_sample : Commented sampleSettings sampleCommented :=
  .line (by decide) (.beforeReturn rfl (by decide))
    (.line (by decide) (.comment (by decide)) (.last (by decide) .none))

theorem eq_ok_of_toOption {ε α : Type} {x : Except ε α} {a : α} (h : x.toOption = some a) :
    x = .ok a := by
  cases x with
  | error e => cases h
  | ok b => exact congrArg Except.ok (Option.some.inj h)

theorem collectAliases_commented_sample :
    ¬HasSlashes sampleSettings ∧ Commented sampleSettings sampleCommented ∧
      (ofSettings sampleCommented).collectAliases ⟨"/vfs"⟩ = [("@", ["/vfs/a"])] := by
  have hnone : ¬HasSlashes sampleSettings := by decide
  have hread : (ofSettings sampleCommented).read ⟨"/vfs/tsconfig.json"⟩
      = .ok (String.ofList sampleCommented) :=
    eq_ok_of_toOption (by decide +kernel)
  have hfiles : ((ofSettings sampleCommented).listing ⟨"/vfs"⟩).filter
      (fun p => p.fileName? == some settingsName) = [] ++ ⟨"/vfs/tsconfig.json"⟩ :: [] := by
    decide +kernel
  have haliases : (Value.parse (String.ofList sampleSettings)).toOption.map
      (settingsAliases ⟨"/vfs"⟩) = some [("@", ["/vfs/a"])] := by
    decide +kernel
  obtain ⟨settings, hsettings, halias⟩ := Option.map_eq_some_iff.mp haliases
  have hvalue := eq_ok_of_toOption hsettings
  have hcommented : Commented (String.ofList sampleSettings).toList
      (String.ofList sampleCommented).toList := by
    rw [String.toList_ofList, String.toList_ofList]
    exact commented_sample
  have hcollect := (collectAliases_commented hvalue hcommented hread hfiles).1
  rw [String.toList_ofList] at hcollect
  refine ⟨hnone, commented_sample, ?_⟩
  rw [(hcollect hnone).2]
  have hdirectory : (Path.mk "/vfs/tsconfig.json").parent?.getD ⟨"/vfs"⟩ = ⟨"/vfs"⟩ := by decide
  rw [hdirectory, halias]
  decide

/-- Settings without any comment that have a pair of slashes in a string. -/
def sampleSlashes : List Char :=
  "\x7b\"compilerOptions\":\x7b\"paths\":\x7b\"@\":[\"src//a\"]\x7d\x7d\x7d".toList

/-- Plain JSON settings can lose their aliases. -/
theorem collectAliases_sampleSlashes :
    Commented sampleSlashes sampleSlashes ∧
      (Value.parse (String.ofList sampleSlashes)).toOption.map (settingsAliases ⟨"/vfs"⟩)
        = some [("@", ["/vfs/src/a"])] ∧
      (ofSettings sampleSlashes).collectAliases ⟨"/vfs"⟩ = [] := by
  refine ⟨.last (by decide) .none, ?_, ?_⟩
  · decide +kernel
  · decide +kernel

end Disk

end ModuleGraph
