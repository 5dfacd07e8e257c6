import Mathlib.Data.List.Basic
import MiniC.Syntax.Vocabulary

/-!
# Ordered sets of words are determined by their members

`insert` adds a word to a set (`mem_insert`) and keeps it in order (`Ordered.insert`). Two sets in
the same order with the same members are the same list (`Ordered.eq_of_mem_iff`), in whatever
sequence the members were put in (`ofList_eq_iff`).
-/

namespace MiniC.WordSet

variable {before : Bytes → Bytes → Bool} {w x : Bytes} {l l' : List Bytes}

theorem mem_insert : x ∈ insert before w l ↔ x = w ∨ x ∈ l := by
  induction l with
  | nil => simp [insert]
  | cons v vs ih =>
    rw [insert]
    split_ifs with h₁ h₂
    · subst h₁
      simp
    · simp
    · rw [List.mem_cons, ih, List.mem_cons]
      tauto

/-- The order is strict and linear. -/
structure Linear (before : Bytes → Bytes → Bool) : Prop where
  irrefl : ∀ a, before a a = false
  trans : ∀ {a b c}, before a b = true → before b c = true → before a c = true
  total : ∀ {a b}, before a b = false → before b a = false → a = b

theorem longestFirst_iff :
    longestFirst w x = true ↔ x.length < w.length ∨ w.length = x.length ∧ w < x := by
  simp only [longestFirst, Bool.or_eq_true, decide_eq_true_eq, Bool.and_eq_true, beq_iff_eq]

theorem linear_longestFirst : Linear longestFirst where
  irrefl := by simp [longestFirst, List.lt_irrefl]
  trans := by
    intro a b c h₁ h₂
    rw [longestFirst_iff] at h₁ h₂ ⊢
    rcases h₁ with h₁ | ⟨hab, h₁⟩ <;> rcases h₂ with h₂ | ⟨hbc, h₂⟩
    · left; omega
    · left; omega
    · left; omega
    · exact .inr ⟨hab.trans hbc, List.lt_trans h₁ h₂⟩
  total := by
    intro a b h₁ h₂
    simp only [longestFirst, Bool.or_eq_false_iff, decide_eq_false_iff_not, Bool.and_eq_false_iff,
      beq_eq_false_iff_ne] at h₁ h₂
    have hab : a.length = b.length := by omega
    have hlt : ¬ a < b := h₁.2.resolve_left fun h => h hab
    have hgt : ¬ b < a := h₂.2.resolve_left fun h => h hab.symm
    exact List.le_antisymm (List.not_lt.mp hgt) (List.not_lt.mp hlt)

theorem linear_alphabetic : Linear alphabetic where
  irrefl := by simp [alphabetic, List.lt_irrefl]
  trans := by
    intro a b c h₁ h₂
    rw [alphabetic, decide_eq_true_eq] at h₁ h₂ ⊢
    exact List.lt_trans h₁ h₂
  total := by
    intro a b h₁ h₂
    rw [alphabetic, decide_eq_false_iff_not, List.not_lt] at h₁ h₂
    exact List.le_antisymm h₂ h₁

/-- The members are in order, and so none of them is there twice. -/
def Ordered (before : Bytes → Bytes → Bool) (l : List Bytes) : Prop :=
  l.Pairwise fun a b => before a b = true

instance : Decidable (Ordered before l) := inferInstanceAs (Decidable (List.Pairwise _ _))

/-- **Insertion keeps the order.** -/
theorem Ordered.insert (hb : Linear before) (h : Ordered before l) :
    Ordered before (insert before w l) := by
  induction l with
  | nil => exact List.pairwise_singleton _ w
  | cons v vs ih =>
    obtain ⟨hv, hvs⟩ := List.pairwise_cons.mp h
    rw [WordSet.insert]
    split_ifs with h₁ h₂
    · exact h
    · refine List.pairwise_cons.mpr ⟨fun x hx => ?_, h⟩
      rcases List.mem_cons.mp hx with rfl | hx
      · exact h₂
      · exact hb.trans h₂ (hv x hx)
    · have hvw : before v w = true := by
        by_contra hn
        exact h₁ (hb.total (by simpa using h₂) (by simpa using hn))
      refine List.pairwise_cons.mpr ⟨fun x hx => ?_, ih hvs⟩
      rcases mem_insert.mp hx with rfl | hx
      · exact hvw
      · exact hv x hx

theorem Linear.ne (hb : Linear before) (h : before w x = true) : w ≠ x := by
  rintro rfl
  rw [hb.irrefl] at h
  cases h

theorem Ordered.nodup (hb : Linear before) (h : Ordered before l) : l.Nodup := h.imp hb.ne

/-- **An ordered set is determined by its members.** -/
theorem Ordered.eq_of_mem_iff (hb : Linear before) (h : Ordered before l)
    (h' : Ordered before l') (hmem : ∀ x, x ∈ l ↔ x ∈ l') : l = l' := by
  have hperm : l.Perm l' := (List.perm_ext_iff_of_nodup (h.nodup hb) (h'.nodup hb)).mpr hmem
  refine hperm.eq_of_pairwise (fun a b _ _ hab hba => ?_) h h'
  exact absurd rfl (hb.ne (hb.trans hab hba))

theorem mem_ofList : x ∈ ofList before l ↔ x ∈ l := by
  induction l with
  | nil => rfl
  | cons v vs ih => rw [ofList, List.foldr_cons, mem_insert, ← ofList, ih, List.mem_cons]

theorem ordered_ofList (hb : Linear before) (l : List Bytes) :
    Ordered before (ofList before l) := by
  induction l with
  | nil => exact List.Pairwise.nil
  | cons v vs ih => exact ih.insert hb

/-- **Order and repetition of the words make no difference to their set.** -/
theorem ofList_eq_iff (hb : Linear before) :
    ofList before l = ofList before l' ↔ ∀ x, x ∈ l ↔ x ∈ l' := by
  constructor
  · intro h x
    exact mem_ofList.symm.trans ((iff_of_eq (congrArg (x ∈ ·) h)).trans mem_ofList)
  · intro h
    refine (ordered_ofList hb l).eq_of_mem_iff hb (ordered_ofList hb l') fun x => ?_
    rw [mem_ofList, mem_ofList]
    exact h x

end MiniC.WordSet
