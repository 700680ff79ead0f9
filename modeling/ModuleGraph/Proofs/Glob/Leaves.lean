import ModuleGraph.Glob.Match

set_option autoImplicit false

/-! # What a glob leaves of a text

Matching keeps the list of all that the items so far can leave of a text, one of each length.
Since these are all ends of the text, nothing is lost (`mem_distinct_iff`), and a text is left
exactly when it can be reached item by item (`Glob.Leads`, `mem_leavesAll_iff`). So a glob matches
a text exactly when it leads from the text to nothing (`isMatch_iff`).
-/

namespace ModuleGraph

namespace Glob

/-! ## Ends of a text -/

theorem strip?_eq_some_iff {us text rest : Units} :
    strip? us text = some rest ↔ text = us ++ rest := by
  induction us generalizing text with
  | nil => simp [strip?]
  | cons u us ih =>
      cases text with
      | nil => simp [strip?]
      | cons v text =>
          rw [strip?]
          split
          · rename_i huv
            rw [ih, huv]
            simp
          · rename_i huv
            simp [Ne.symm huv]

theorem mem_suffixes_iff {text rest : Units} : rest ∈ suffixes text ↔ rest <:+ text := by
  induction text with
  | nil => simp [suffixes]
  | cons u text ih => rw [suffixes, List.mem_cons, ih, List.suffix_cons_iff]

theorem suffix_of_mem_afterSlashes {text rest : Units} (h : rest ∈ afterSlashes text) :
    rest <:+ text := by
  induction text with
  | nil => cases h
  | cons u text ih =>
      rw [afterSlashes] at h
      split at h
      · rcases List.mem_cons.mp h with rfl | h
        · exact List.suffix_cons u rest
        · exact (ih h).trans (List.suffix_cons u text)
      · exact (ih h).trans (List.suffix_cons u text)

theorem afterSlashes_append {front : Units} (h : slash ∉ front) (text : Units) :
    afterSlashes (front ++ text) = afterSlashes text := by
  induction front with
  | nil => rfl
  | cons u front ih =>
      rw [List.mem_cons, not_or] at h
      rw [List.cons_append, afterSlashes, if_neg (Ne.symm h.1), ih h.2]

/-- A star takes units other than a slash. -/
theorem mem_withinSegment_iff {text rest : Units} :
    rest ∈ withinSegment text ↔ ∃ front, text = front ++ rest ∧ slash ∉ front := by
  induction text generalizing rest with
  | nil =>
      simp only [withinSegment, List.mem_singleton]
      constructor
      · rintro rfl
        exact ⟨[], rfl, List.not_mem_nil⟩
      · rintro ⟨front, hfront, -⟩
        exact (List.append_eq_nil_iff.mp hfront.symm).2
  | cons u text ih =>
      rw [withinSegment]
      constructor
      · intro h
        split at h
        · rw [List.mem_singleton.mp h]
          exact ⟨[], rfl, List.not_mem_nil⟩
        · rename_i hu
          rcases List.mem_cons.mp h with rfl | h
          · exact ⟨[], rfl, List.not_mem_nil⟩
          · obtain ⟨front, rfl, hfront⟩ := ih.mp h
            exact ⟨u :: front, rfl, by simp [hfront, Ne.symm hu]⟩
      · rintro ⟨front, hfront, hslash⟩
        cases front with
        | nil =>
            rw [List.nil_append] at hfront
            rw [← hfront]
            split <;> simp
        | cons v front =>
            obtain ⟨rfl, rfl⟩ := List.cons.inj hfront
            rw [List.mem_cons, not_or] at hslash
            rw [if_neg (Ne.symm hslash.1)]
            exact List.mem_cons_of_mem _ (ih.mpr ⟨front, rfl, hslash.2⟩)

theorem mem_of_mem_distinct {rests : List Units} {rest : Units} (h : rest ∈ distinct rests) :
    rest ∈ rests := by
  induction rests with
  | nil => exact h
  | cons r rests ih =>
      rw [distinct, List.foldr_cons] at h
      split at h
      · exact List.mem_cons_of_mem _ (ih h)
      · rcases List.mem_cons.mp h with rfl | h
        · exact List.mem_cons_self
        · exact List.mem_cons_of_mem _ (ih h)

/-- Two ends of one text that are equally long are equal, so none is lost. -/
theorem mem_distinct_iff {rests : List Units} {whole : Units}
    (h : ∀ r ∈ rests, r <:+ whole) {rest : Units} : rest ∈ distinct rests ↔ rest ∈ rests := by
  refine ⟨mem_of_mem_distinct, fun hmem => ?_⟩
  induction rests with
  | nil => exact hmem
  | cons r rests ih =>
      rw [List.forall_mem_cons] at h
      rw [distinct, List.foldr_cons]
      split
      · rename_i hany
        rcases List.mem_cons.mp hmem with rfl | hmem
        · obtain ⟨s, hs, hlength⟩ := List.any_eq_true.mp hany
          have hsuffix := h.2 s (mem_of_mem_distinct hs)
          have hle : s.length ≤ rest.length := Nat.le_of_eq (beq_iff_eq.mp hlength)
          have heq := (List.suffix_of_suffix_length_le hsuffix h.1 hle).eq_of_length
            (beq_iff_eq.mp hlength)
          rwa [← heq]
        · exact ih h.2 hmem
      · rcases List.mem_cons.mp hmem with rfl | hmem
        · exact List.mem_cons_self
        · exact List.mem_cons_of_mem _ (ih h.2 hmem)

mutual

/-- **What an item leaves of a text is an end of it.** -/
theorem suffix_of_mem_leaves {rest : Units} : ∀ {token : GlobToken} {text : Units},
    rest ∈ leaves token text → rest <:+ text
  | .literal c, text, h => by
      rw [leaves, Option.mem_toList, strip?_eq_some_iff] at h
      rw [h]
      exact List.suffix_append _ _
  | .any, u :: text, h => by
      rw [leaves] at h
      split at h
      · cases h
      · rw [List.mem_singleton.mp h]
        exact List.suffix_cons u text
  | .any, [], h => by
      rw [leaves] at h
      cases h
  | .star, text, h => by
      rw [leaves, mem_withinSegment_iff] at h
      obtain ⟨front, rfl, -⟩ := h
      exact List.suffix_append _ _
  | .leading, text, h => by
      rw [leaves] at h
      rcases List.mem_cons.mp h with rfl | h
      · exact List.suffix_refl _
      · exact suffix_of_mem_afterSlashes h
  | .trailing, u :: text, h => by
      rw [leaves] at h
      split at h
      · exact (mem_suffixes_iff.mp h).trans (List.suffix_cons u text)
      · cases h
  | .trailing, [], h => by
      rw [leaves] at h
      cases h
  | .between, u :: text, h => by
      rw [leaves] at h
      split at h
      · rcases List.mem_cons.mp h with rfl | h
        · exact List.suffix_cons u _
        · exact (suffix_of_mem_afterSlashes h).trans (List.suffix_cons u text)
      · cases h
  | .between, [], h => by
      rw [leaves] at h
      cases h
  | .oneOf negated ranges, u :: text, h => by
      rw [leaves] at h
      split at h
      · rw [List.mem_singleton.mp h]
        exact List.suffix_cons u text
      · cases h
  | .oneOf _ _, [], h => by
      rw [leaves] at h
      cases h
  | .alternates branches, text, h => by
      rw [leaves] at h
      exact suffix_of_mem_leavesAny h

theorem suffix_of_mem_leavesAll {rest : Units} : ∀ {tokens : List GlobToken} {texts : List Units},
    rest ∈ leavesAll tokens texts → ∃ text ∈ texts, rest <:+ text
  | [], texts, h => by
      rw [leavesAll] at h
      exact ⟨rest, h, List.suffix_refl _⟩
  | token :: tokens, texts, h => by
      rw [leavesAll] at h
      obtain ⟨mid, hmid, hrest⟩ := suffix_of_mem_leavesAll h
      obtain ⟨text, htext, hleaves⟩ := List.mem_flatMap.mp (mem_of_mem_distinct hmid)
      exact ⟨text, htext, hrest.trans (suffix_of_mem_leaves hleaves)⟩

theorem suffix_of_mem_leavesAny {rest : Units} : ∀ {tried : Bool}
    {branches : List (List GlobToken)} {text : Units},
    rest ∈ leavesAny tried branches text → rest <:+ text
  | tried, [], text, h => by
      rw [leavesAny] at h
      split at h
      · cases h
      · obtain rfl := List.mem_singleton.mp h
        exact List.suffix_refl _
  | tried, branch :: branches, text, h => by
      rw [leavesAny] at h
      split at h
      · exact suffix_of_mem_leavesAny h
      · rcases List.mem_append.mp h with h | h
        · obtain ⟨whole, hwhole, hrest⟩ := suffix_of_mem_leavesAll h
          rwa [List.mem_singleton.mp hwhole] at hrest
        · exact suffix_of_mem_leavesAny h

end

/-! ## Leading from a text to what is left of it -/

/-- Whether items can leave the second text of the first one. -/
def Leads : List GlobToken → Units → Units → Prop
  | [], text, rest => text = rest
  | token :: tokens, text, rest => ∃ mid ∈ leaves token text, Leads tokens mid rest

theorem leads_append_iff {front back : List GlobToken} {text rest : Units} :
    Leads (front ++ back) text rest ↔ ∃ mid, Leads front text mid ∧ Leads back mid rest := by
  induction front generalizing text with
  | nil => simp [Leads]
  | cons token front ih =>
      rw [List.cons_append, Leads]
      constructor
      · rintro ⟨first, hfirst, hlead⟩
        obtain ⟨mid, hmid, hback⟩ := ih.mp hlead
        exact ⟨mid, ⟨first, hfirst, hmid⟩, hback⟩
      · rintro ⟨mid, ⟨first, hfirst, hmid⟩, hback⟩
        exact ⟨first, hfirst, ih.mpr ⟨mid, hmid, hback⟩⟩

theorem Leads.suffix {tokens : List GlobToken} {text rest : Units} (h : Leads tokens text rest) :
    rest <:+ text := by
  induction tokens generalizing text with
  | nil =>
      obtain rfl : text = rest := h
      exact List.suffix_refl _
  | cons token tokens ih =>
      obtain ⟨mid, hmid, hlead⟩ := h
      exact (ih hlead).trans (suffix_of_mem_leaves hmid)

/-- **Matching finds all that can be left of a text.** -/
theorem mem_leavesAll_iff {tokens : List GlobToken} {texts : List Units} {whole rest : Units}
    (h : ∀ text ∈ texts, text <:+ whole) :
    rest ∈ leavesAll tokens texts ↔ ∃ text ∈ texts, Leads tokens text rest := by
  induction tokens generalizing texts with
  | nil => simp [leavesAll, Leads]
  | cons token tokens ih =>
      have hleaves : ∀ mid ∈ texts.flatMap (leaves token), mid <:+ whole := by
        intro mid hmid
        obtain ⟨text, htext, hmem⟩ := List.mem_flatMap.mp hmid
        exact (suffix_of_mem_leaves hmem).trans (h text htext)
      rw [leavesAll, ih (fun mid hmid => hleaves mid (mem_of_mem_distinct hmid))]
      constructor
      · rintro ⟨mid, hmid, hlead⟩
        obtain ⟨text, htext, hmem⟩ := List.mem_flatMap.mp (mem_of_mem_distinct hmid)
        exact ⟨text, htext, mid, hmem, hlead⟩
      · rintro ⟨text, htext, mid, hmem, hlead⟩
        have hmid := List.mem_flatMap.mpr ⟨text, htext, hmem⟩
        exact ⟨mid, (mem_distinct_iff hleaves).mpr hmid, hlead⟩

/-- **A glob matches what it leads to nothing from.** -/
theorem isMatch_iff {glob : Glob} (h : glob ≠ [.leading]) (text : Units) :
    isMatch glob text = true ↔ Leads glob text [] := by
  have hmatch : isMatch glob text = (leavesAll glob [text]).any (·.isEmpty) := by
    unfold isMatch
    split
    · exact absurd rfl h
    · rfl
  rw [hmatch, List.any_eq_true]
  have hall : ∀ t ∈ [text], t <:+ text := by simp
  constructor
  · rintro ⟨rest, hrest, hempty⟩
    rw [List.isEmpty_iff.mp hempty, mem_leavesAll_iff hall] at hrest
    simpa using hrest
  · intro hlead
    exact ⟨[], (mem_leavesAll_iff hall).mpr ⟨text, by simp, hlead⟩, rfl⟩

end Glob

end ModuleGraph
