import ModuleGraph.Proofs.Facts

set_option autoImplicit false

/-! # The names that a declaration binds

A pattern is a tree, and a name that it binds stands at the end of a way through this tree, from
part to part (`Binds`). Keys, holes and default values are no parts, so no way leads there. The
bindings of a declaration can be listed in the order of the source, which is that of their ways
(`Binding.Earlier`). An exported declaration adds the names of its bindings to the exports, in
this order, except for those that are in a rest element (`exports_of_bindings`).
-/

namespace ModuleGraph.Source

/-! ## Ways into a pattern -/

/-- A step from a pattern to a part of it: to a numbered field or item, or to the rest element,
which comes last. -/
inductive Step where
  | part (index : Nat)
  | rest
deriving DecidableEq, Repr

/-- The order of the parts of a pattern in the source. -/
def Step.Before : Step → Step → Prop
  | .part i, .part j => i < j
  | .part _, .rest => True
  | .rest, _ => False

/-- A name that is bound, with the way that leads to it. -/
abbrev Binding := List Step × String

namespace Binding

def Earlier (b b' : Binding) : Prop := List.Lex Step.Before b.1 b'.1

/-- The binding as seen from one step further out. -/
def under (step : Step) (b : Binding) : Binding := (step :: b.1, b.2)

/-- The binding is not in a rest element. -/
def isListed (b : Binding) : Bool := !b.1.contains .rest

end Binding

/-- The way leads from the pattern to a name that is bound there. -/
inductive Binds : Pattern → List Step → String → Prop where
  | name (text : String) : Binds (.name text) [] text
  | field {fields : List (Option String × Pattern)} {rest : Option Pattern} {i : Nat}
      {key : Option String} {p : Pattern} {way : List Step} {text : String} :
      fields[i]? = some (key, p) → Binds p way text →
        Binds (.object fields rest) (.part i :: way) text
  | item {items : List (Option Pattern)} {rest : Option Pattern} {i : Nat} {p : Pattern}
      {way : List Step} {text : String} :
      items[i]? = some (some p) → Binds p way text →
        Binds (.array items rest) (.part i :: way) text
  | objectRest {fields : List (Option String × Pattern)} {p : Pattern} {way : List Step}
      {text : String} : Binds p way text → Binds (.object fields (some p)) (.rest :: way) text
  | arrayRest {items : List (Option Pattern)} {p : Pattern} {way : List Step} {text : String} :
      Binds p way text → Binds (.array items (some p)) (.rest :: way) text
  | withDefault {p : Pattern} {value : Expr} {way : List Step} {text : String} :
      Binds p way text → Binds (.withDefault p value) way text

/-- The way leads from a declaration, by the number of one of its patterns, to a name that is
bound there. -/
def DeclarationBinds (patterns : List Pattern) (way : List Step) (text : String) : Prop :=
  ∃ i p inner, patterns[i]? = some p ∧ way = .part i :: inner ∧ Binds p inner text

/-! ## Bindings in order -/

/-- The bindings of several parts, which are numbered from `i` on. -/
def numbered (i : Nat) : List (List Binding) → List Binding
  | [] => []
  | bindings :: more => bindings.map (Binding.under (.part i)) ++ numbered (i + 1) more

namespace Pattern

mutual

/-- The bindings of a pattern, in the order of the source. -/
def bindings : Pattern → List Binding
  | .name text => [([], text)]
  | .object fields rest =>
    numbered 0 (fieldsBindings fields) ++ (restBindings rest).map (Binding.under .rest)
  | .array items rest =>
    numbered 0 (itemsBindings items) ++ (restBindings rest).map (Binding.under .rest)
  | .withDefault target _ => target.bindings

def fieldsBindings : List (Option String × Pattern) → List (List Binding)
  | [] => []
  | (_, p) :: more => p.bindings :: fieldsBindings more

def itemsBindings : List (Option Pattern) → List (List Binding)
  | [] => []
  | none :: more => [] :: itemsBindings more
  | some p :: more => p.bindings :: itemsBindings more

def restBindings : Option Pattern → List Binding
  | none => []
  | some p => p.bindings

end

/-- Induction over patterns, where the parts of a pattern come before the pattern. -/
@[elab_as_elim]
theorem byParts {P : Pattern → Prop} (name : ∀ text, P (.name text))
    (object : ∀ fields rest, (∀ field ∈ fields, P field.2) → (∀ p, rest = some p → P p) →
      P (.object fields rest))
    (array : ∀ items rest, (∀ p, some p ∈ items → P p) → (∀ p, rest = some p → P p) →
      P (.array items rest))
    (withDefault : ∀ target value, P target → P (.withDefault target value)) (p : Pattern) :
    P p := by
  refine @Pattern.rec P (fun fields => ∀ field ∈ fields, P field.2)
    (fun rest => ∀ p, rest = some p → P p) (fun items => ∀ p, some p ∈ items → P p)
    (fun field => P field.2) name object array withDefault ?_ ?_ ?_ ?_ ?_ ?_ ?_ p
  · exact fun field hmem => absurd hmem List.not_mem_nil
  · exact fun head tail hhead htail => List.forall_mem_cons.mpr ⟨hhead, htail⟩
  · exact fun q heq => nomatch heq
  · exact fun val hval q heq => Option.some.inj heq ▸ hval
  · exact fun q hmem => absurd hmem List.not_mem_nil
  · intro head tail hhead htail q hmem
    rcases List.mem_cons.mp hmem with heq | hmem
    · exact hhead q heq.symm
    · exact htail q hmem
  · exact fun key value hvalue => hvalue

theorem fieldsBindings_eq (fields : List (Option String × Pattern)) :
    fieldsBindings fields = fields.map fun field => field.2.bindings := by
  induction fields with
  | nil => rfl
  | cons field more ih => rw [fieldsBindings, List.map_cons, ih]

theorem itemsBindings_eq (items : List (Option Pattern)) :
    itemsBindings items = items.map restBindings := by
  induction items with
  | nil => rfl
  | cons item more ih =>
      cases item with
      | none => rw [itemsBindings, List.map_cons, ih]; rfl
      | some p => rw [itemsBindings, List.map_cons, ih]; rfl

end Pattern

/-! ### Numbered parts -/

theorem mem_map_under_iff (bindings : List Binding) (step : Step) (way : List Step)
    (text : String) : (way, text) ∈ bindings.map (Binding.under step) ↔
      ∃ inner, way = step :: inner ∧ (inner, text) ∈ bindings := by
  rw [List.mem_map]
  constructor
  · rintro ⟨⟨inner, t⟩, hmem, heq⟩
    obtain ⟨rfl, rfl⟩ := Prod.mk.inj heq
    exact ⟨inner, rfl, hmem⟩
  · rintro ⟨inner, rfl, hmem⟩
    exact ⟨(inner, text), hmem, rfl⟩

theorem mem_numbered_iff (parts : List (List Binding)) (i : Nat) (way : List Step)
    (text : String) : (way, text) ∈ numbered i parts ↔
      ∃ j bindings inner, parts[j]? = some bindings ∧ way = .part (i + j) :: inner ∧
        (inner, text) ∈ bindings := by
  induction parts generalizing i with
  | nil => simp [numbered]
  | cons first more ih =>
      have hshift : ∀ j, i + 1 + j = i + (j + 1) := fun j => by omega
      rw [numbered, List.mem_append, mem_map_under_iff, ih]
      constructor
      · rintro (⟨inner, hway, hmem⟩ | ⟨j, bindings, inner, hj, hway, hmem⟩)
        · exact ⟨0, first, inner, rfl, hway, hmem⟩
        · exact ⟨j + 1, bindings, inner, hj, hshift j ▸ hway, hmem⟩
      · rintro ⟨j, bindings, inner, hj, hway, hmem⟩
        cases j with
        | zero =>
            obtain rfl := Option.some.inj hj
            exact Or.inl ⟨inner, hway, hmem⟩
        | succ j => exact Or.inr ⟨j, bindings, inner, hj, (hshift j).symm ▸ hway, hmem⟩

theorem mem_numbered_map_iff {α : Type} (bindingsOf : α → List Binding) (parts : List α)
    (way : List Step) (text : String) : (way, text) ∈ numbered 0 (parts.map bindingsOf) ↔
      ∃ i part inner, parts[i]? = some part ∧ way = .part i :: inner ∧
        (inner, text) ∈ bindingsOf part := by
  rw [mem_numbered_iff]
  constructor
  · rintro ⟨i, bindings, inner, hi, rfl, hmem⟩
    rw [List.getElem?_map, Option.map_eq_some_iff] at hi
    obtain ⟨part, hpart, rfl⟩ := hi
    exact ⟨i, part, inner, hpart, by rw [Nat.zero_add], hmem⟩
  · rintro ⟨i, part, inner, hpart, rfl, hmem⟩
    refine ⟨i, bindingsOf part, inner, ?_, by rw [Nat.zero_add], hmem⟩
    rw [List.getElem?_map, hpart]
    rfl

theorem pairwise_map_under {bindings : List Binding} (h : bindings.Pairwise Binding.Earlier)
    (step : Step) : (bindings.map (Binding.under step)).Pairwise Binding.Earlier :=
  List.pairwise_map.mpr (h.imp fun hearlier => .cons hearlier)

theorem pairwise_numbered {parts : List (List Binding)}
    (h : ∀ bindings ∈ parts, bindings.Pairwise Binding.Earlier) (i : Nat) :
    (numbered i parts).Pairwise Binding.Earlier := by
  induction parts generalizing i with
  | nil => exact .nil
  | cons first more ih =>
      rw [List.forall_mem_cons] at h
      -- The ways differ in their first step already, by the numbers of the parts.
      refine List.pairwise_append.mpr ⟨pairwise_map_under h.1 _, ih h.2 (i + 1), ?_⟩
      rintro _ hfirst ⟨way, text⟩ hmore
      obtain ⟨b, -, rfl⟩ := List.mem_map.mp hfirst
      obtain ⟨j, bindings, inner, -, rfl, -⟩ := (mem_numbered_iff more (i + 1) way text).mp hmore
      have hbefore : Step.Before (.part i) (.part (i + 1 + j)) := Nat.lt_of_lt_of_le
        (Nat.lt_succ_self i) (Nat.le_add_right _ _)
      exact List.Lex.rel hbefore

/-- The parts of a pattern before its rest element. -/
theorem pairwise_numbered_append {parts : List (List Binding)} {rest : List Binding}
    (hparts : ∀ bindings ∈ parts, bindings.Pairwise Binding.Earlier)
    (hrest : rest.Pairwise Binding.Earlier) :
    (numbered 0 parts ++ rest.map (Binding.under .rest)).Pairwise Binding.Earlier := by
  refine List.pairwise_append.mpr
    ⟨pairwise_numbered hparts 0, pairwise_map_under hrest _, ?_⟩
  rintro ⟨way, text⟩ hpart _ hlast
  obtain ⟨j, bindings, inner, -, rfl, -⟩ := (mem_numbered_iff parts 0 way text).mp hpart
  obtain ⟨b, -, rfl⟩ := List.mem_map.mp hlast
  have hbefore : Step.Before (.part (0 + j)) .rest := trivial
  exact List.Lex.rel hbefore

/-- The names of the bindings that are not in a rest element. -/
def listedOf (bindings : List Binding) : List String :=
  (bindings.filter Binding.isListed).map Prod.snd

theorem listedOf_append (front back : List Binding) :
    listedOf (front ++ back) = listedOf front ++ listedOf back := by
  rw [listedOf, List.filter_append, List.map_append]
  rfl

theorem listedOf_map_part (bindings : List Binding) (i : Nat) :
    listedOf (bindings.map (Binding.under (.part i))) = listedOf bindings := by
  have hstep : Binding.isListed ∘ Binding.under (.part i) = Binding.isListed := by
    funext b
    simp [Binding.isListed, Binding.under]
  rw [listedOf, List.filter_map, hstep, List.map_map]
  rfl

theorem listedOf_map_rest (bindings : List Binding) :
    listedOf (bindings.map (Binding.under .rest)) = [] := by
  simp [listedOf, List.filter_map, Binding.isListed, Binding.under, Function.comp_def]

theorem listedOf_numbered (parts : List (List Binding)) (i : Nat) :
    listedOf (numbered i parts) = parts.flatMap listedOf := by
  induction parts generalizing i with
  | nil => rfl
  | cons first more ih =>
      rw [numbered, listedOf_append, listedOf_map_part, ih, List.flatMap_cons]

namespace Pattern

/-! ### The bindings of a pattern -/

theorem mem_restBindings_iff (rest : Option Pattern) (b : Binding) :
    b ∈ restBindings rest ↔ ∃ p, rest = some p ∧ b ∈ p.bindings := by
  cases rest with
  | none => simp [restBindings]
  | some p => simp [restBindings]

/-- **The bindings of a pattern are those at the ends of the ways into it.** -/
theorem mem_bindings_iff (p : Pattern) (way : List Step) (text : String) :
    (way, text) ∈ p.bindings ↔ Binds p way text := by
  induction p using byParts generalizing way with
  | name name =>
      rw [bindings, List.mem_singleton, Prod.mk.injEq]
      constructor
      · rintro ⟨rfl, rfl⟩
        exact .name text
      · rintro ⟨⟩
        exact ⟨rfl, rfl⟩
  | object fields rest hfields hrest =>
      rw [bindings, fieldsBindings_eq, List.mem_append, mem_numbered_map_iff, mem_map_under_iff]
      constructor
      · rintro (⟨i, field, inner, hi, rfl, hmem⟩ | ⟨inner, rfl, hmem⟩)
        · exact .field hi ((hfields field (List.mem_of_getElem? hi) inner).mp hmem)
        · obtain ⟨p, hp, hmem⟩ := (mem_restBindings_iff rest _).mp hmem
          subst hp
          exact .objectRest ((hrest p rfl inner).mp hmem)
      · intro h
        cases h with
        | field hi hinner =>
            have hmem := (hfields _ (List.mem_of_getElem? hi) _).mpr hinner
            exact Or.inl ⟨_, _, _, hi, rfl, hmem⟩
        | objectRest hinner => exact Or.inr ⟨_, rfl, (hrest _ rfl _).mpr hinner⟩
  | array items rest hitems hrest =>
      rw [bindings, itemsBindings_eq, List.mem_append, mem_numbered_map_iff, mem_map_under_iff]
      constructor
      · rintro (⟨i, item, inner, hi, rfl, hmem⟩ | ⟨inner, rfl, hmem⟩)
        · obtain ⟨p, hp, hmem⟩ := (mem_restBindings_iff item _).mp hmem
          subst hp
          exact .item hi ((hitems p (List.mem_of_getElem? hi) inner).mp hmem)
        · obtain ⟨p, hp, hmem⟩ := (mem_restBindings_iff rest _).mp hmem
          subst hp
          exact .arrayRest ((hrest p rfl inner).mp hmem)
      · intro h
        cases h with
        | item hi hinner =>
            have hmem := (hitems _ (List.mem_of_getElem? hi) _).mpr hinner
            exact Or.inl ⟨_, _, _, hi, rfl, hmem⟩
        | arrayRest hinner => exact Or.inr ⟨_, rfl, (hrest _ rfl _).mpr hinner⟩
  | withDefault target value htarget =>
      rw [bindings, htarget]
      constructor
      · exact .withDefault
      · rintro ⟨⟩
        assumption

theorem pairwise_restBindings {rest : Option Pattern}
    (h : ∀ p, rest = some p → p.bindings.Pairwise Binding.Earlier) :
    (restBindings rest).Pairwise Binding.Earlier := by
  cases rest with
  | none => exact .nil
  | some p => exact h p rfl

/-- **The bindings of a pattern are in the order of the source.** -/
theorem pairwise_bindings (p : Pattern) : p.bindings.Pairwise Binding.Earlier := by
  induction p using byParts with
  | name name => exact List.pairwise_singleton _ _
  | object fields rest hfields hrest =>
      rw [bindings, fieldsBindings_eq]
      refine pairwise_numbered_append ?_ (pairwise_restBindings hrest)
      intro bs hbs
      obtain ⟨field, hfield, rfl⟩ := List.mem_map.mp hbs
      exact hfields field hfield
  | array items rest hitems hrest =>
      rw [bindings, itemsBindings_eq]
      refine pairwise_numbered_append ?_ (pairwise_restBindings hrest)
      intro bs hbs
      obtain ⟨item, hitem, rfl⟩ := List.mem_map.mp hbs
      exact pairwise_restBindings fun p hp => hitems p (hp ▸ hitem)
  | withDefault target value htarget => exact htarget

/-- **A pattern lists the names of its bindings, except for those in a rest element.** -/
theorem listedNames_eq (p : Pattern) : p.listedNames = listedOf p.bindings := by
  induction p using byParts with
  | name name => rfl
  | object fields rest hfields _ =>
      -- All that is under the rest element drops out at once, whatever its pattern is.
      rw [bindings, listedOf_append, listedOf_numbered, listedOf_map_rest, List.append_nil,
        listedNames]
      induction fields with
      | nil => rfl
      | cons field more ih =>
          rw [List.forall_mem_cons] at hfields
          rw [fieldsBindings, List.flatMap_cons, fieldsListedNames, hfields.1, ih hfields.2]
  | array items rest hitems _ =>
      rw [bindings, listedOf_append, listedOf_numbered, listedOf_map_rest, List.append_nil,
        listedNames]
      induction items with
      | nil => rfl
      | cons item more ih =>
          have hmore := ih fun p hp => hitems p (List.mem_cons_of_mem _ hp)
          cases item with
          | none => rw [itemsBindings, List.flatMap_cons, itemsListedNames, hmore]; rfl
          | some p =>
              rw [itemsBindings, List.flatMap_cons, itemsListedNames,
                hitems p List.mem_cons_self, hmore]
  | withDefault target value htarget => rw [bindings, listedNames, htarget]

end Pattern

/-! ## Exported declarations -/

def declarationBindings (patterns : List Pattern) : List Binding :=
  numbered 0 (patterns.map Pattern.bindings)

theorem mem_declarationBindings_iff (patterns : List Pattern) (way : List Step) (text : String) :
    (way, text) ∈ declarationBindings patterns ↔ DeclarationBinds patterns way text := by
  rw [declarationBindings, mem_numbered_map_iff]
  simp only [Pattern.mem_bindings_iff]
  rfl

theorem exports_bindings (patterns : List Pattern) :
    (Statement.exportDeclaration ⟨.bindings patterns, false⟩).exports
      = listedOf (declarationBindings patterns) := by
  have hnames : patterns.flatMap Pattern.listedNames
      = (patterns.map Pattern.bindings).flatMap listedOf := by
    rw [List.flatMap_map]
    exact congrArg (patterns.flatMap ·) (funext Pattern.listedNames_eq)
  rw [declarationBindings, listedOf_numbered, ← hnames]
  rfl

theorem listedOf_eq_names_iff (bindings : List Binding) :
    listedOf bindings = bindings.map Prod.snd ↔ ∀ b ∈ bindings, .rest ∉ b.1 := by
  have hlisted : ∀ b : Binding, b.isListed = true ↔ .rest ∉ b.1 := fun b => by
    simp [Binding.isListed]
  constructor
  · intro heq
    -- If a name were missing, the list would be shorter, even if the name is bound twice.
    have hlength := congrArg List.length heq
    rw [listedOf, List.length_map, List.length_map, List.length_filter_eq_length_iff] at hlength
    exact fun b hb => (hlisted b).mp (hlength b hb)
  · intro hall
    rw [listedOf, List.filter_eq_self.mpr fun b hb => (hlisted b).mpr (hall b hb)]

/-- **Exported declarations.** The names that a declaration binds, each with the way that leads to
it, can be listed in the order of the source, and each binding is listed once. Behind `export`,
the declaration adds to the exports of its source the names in this list that are not in a rest
element, in this order, and nothing else; it adds nothing to the imports. So all names are
exported if and only if none of them is in a rest element. -/
theorem exports_of_bindings (patterns : List Pattern) :
    ∃ bindings : List Binding, bindings.Pairwise Binding.Earlier ∧
      (∀ way text, (way, text) ∈ bindings ↔ DeclarationBinds patterns way text) ∧
      (∀ before after : List Statement,
        (Facts.ofStatements
            (before ++ .exportDeclaration ⟨.bindings patterns, false⟩ :: after)).exports
          = (Facts.ofStatements before).exports ++ listedOf bindings ++
            (Facts.ofStatements after).exports ∧
        (Facts.ofStatements
            (before ++ .exportDeclaration ⟨.bindings patterns, false⟩ :: after)).imports
          = (Facts.ofStatements (before ++ after)).imports) ∧
      (listedOf bindings = bindings.map Prod.snd ↔
        ∀ way text, DeclarationBinds patterns way text → .rest ∉ way) := by
  refine ⟨declarationBindings patterns, ?_, mem_declarationBindings_iff patterns, ?_, ?_⟩
  · refine pairwise_numbered (fun bs hbs => ?_) 0
    obtain ⟨p, -, rfl⟩ := List.mem_map.mp hbs
    exact p.pairwise_bindings
  · intro before after
    constructor
    · simp only [Facts.exports_ofStatements, List.flatMap_append, List.flatMap_cons,
        exports_bindings, List.append_assoc]
    · have hnone : (Statement.exportDeclaration ⟨.bindings patterns, false⟩).import? = none := rfl
      rw [Facts.imports_ofStatements, Facts.imports_ofStatements, List.filterMap_append,
        List.filterMap_append, List.filterMap_cons_none hnone]
  · rw [listedOf_eq_names_iff]
    constructor
    · exact fun hall way text hbinds =>
        hall (way, text) ((mem_declarationBindings_iff patterns way text).mpr hbinds)
    · rintro hall ⟨way, text⟩ hmem
      exact hall way text ((mem_declarationBindings_iff patterns way text).mp hmem)

/-- The patterns of `const [a, ...b] = c`. -/
def samplePatterns : List Pattern := [.array [some (.name "a")] (some (.name "b"))]

/-- A name in a rest element is bound but not exported. -/
theorem rest_element_not_exported :
    DeclarationBinds samplePatterns [.part 0, .rest] "b" ∧
      (Facts.ofStatements [.exportDeclaration ⟨.bindings samplePatterns, false⟩]).exports
        = ["a"] :=
  ⟨⟨0, _, _, rfl, rfl, .arrayRest (.name "b")⟩, rfl⟩

end ModuleGraph.Source
