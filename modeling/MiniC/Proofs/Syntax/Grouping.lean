import Mathlib.Data.Nat.Basic
import MiniC.Proofs.Syntax.Relocate

/-!
# Grouping by precedence

A sequence `x₀ op₁ x₁ … opₙ xₙ` of operands and binary operators is a first operand and a list of
links `(op, x)`. A `Grouping` is a binary tree over such a sequence; it is `WellGrouped` if at every
node the operators of its children bind as the precedences prescribe: assignments group to the
right, all other levels to the left.

* `Climb` is precedence climbing as a relation: from the left operand and the links, the grouping
  that is built and the links that are left over.
* `exists_climb`: climbing ends, whatever the links are; `Climb.links_eq`, `Climb.wellGrouped`: what
  it builds is well grouped and has the sequence in order.
* `WellGrouped.unique`: a sequence has one well-grouped tree at most.
-/

namespace MiniC

namespace BinaryOp

theorem assignLevel_le (op : BinaryOp) : assignLevel ≤ op.precedence := by cases op <;> decide

/-- The operator `o` may be at the root of the left operand of `op`. -/
def FitsLeft (op o : BinaryOp) : Prop :=
  op.precedence < o.precedence ∨
    (o.precedence = op.precedence ∧ op.precedence ≠ assignLevel)

/-- The operator `o` may be at the root of the right operand of `op`. -/
def FitsRight (op o : BinaryOp) : Prop :=
  op.precedence < o.precedence ∨ (o.precedence = assignLevel ∧ op.precedence = assignLevel)

instance (op o : BinaryOp) : Decidable (op.FitsLeft o) := by unfold FitsLeft; infer_instance

instance (op o : BinaryOp) : Decidable (op.FitsRight o) := by unfold FitsRight; infer_instance

theorem FitsLeft.le {op o : BinaryOp} (h : op.FitsLeft o) : op.precedence ≤ o.precedence := by
  unfold FitsLeft at h; omega

theorem FitsRight.le {op o : BinaryOp} (h : op.FitsRight o) : op.precedence ≤ o.precedence := by
  unfold FitsRight at h; omega

theorem FitsLeft.trans_le {op o o' : BinaryOp} (h : op.FitsLeft o)
    (ho : o.precedence ≤ o'.precedence) : op.FitsLeft o' := by
  unfold FitsLeft at *; omega

/-- An operator that climbing takes into the right operand of `op` may stand there. -/
theorem fitsRight_of_rightLevel_le {op o : BinaryOp} (h : op.rightLevel ≤ o.precedence) :
    op.FitsRight o := by
  have := assignLevel_le o
  unfold rightLevel at h
  unfold FitsRight
  split_ifs at h <;> omega

/-- An operator that climbing leaves behind the right operand of `op` may have `op` to its left. -/
theorem fitsLeft_of_lt_rightLevel {op o : BinaryOp} (h : o.precedence < op.rightLevel) :
    o.FitsLeft op := by
  have := assignLevel_le o
  unfold rightLevel at h
  unfold FitsLeft
  split_ifs at h <;> omega

/-- Two operators cannot each be inside the other's operand on the far side. -/
theorem not_fitsLeft_of_fitsRight {op o : BinaryOp} (h : op.FitsRight o ∨
    (op.precedence = assignLevel ∧ op.precedence ≤ o.precedence)) : ¬ o.FitsLeft op := by
  unfold FitsRight at h
  unfold FitsLeft
  omega

end BinaryOp

/-- A tree of binary operators over operands in `α`. -/
inductive Grouping (α : Type) where
  | leaf (a : α)
  | node (op : BinaryOp) (left right : Grouping α)

namespace Grouping

variable {α : Type}

/-- The first operand. -/
def first : Grouping α → α
  | .leaf a => a
  | .node _ left _ => left.first

/-- The operators in order, each with the operand behind it. -/
def links : Grouping α → List (BinaryOp × α)
  | .leaf _ => []
  | .node op left right => left.links ++ (op, right.first) :: right.links

/-- The operator at the root. -/
def root? : Grouping α → Option BinaryOp
  | .leaf _ => none
  | .node op _ _ => some op

/-- At every node the operators of both operands bind as the precedences prescribe. -/
def WellGrouped : Grouping α → Prop
  | .leaf _ => True
  | .node op left right =>
    (∀ o, left.root? = some o → op.FitsLeft o) ∧ (∀ o, right.root? = some o → op.FitsRight o) ∧
      left.WellGrouped ∧ right.WellGrouped

/-- The expression that a grouping stands for, without positions. -/
def expr (value : α → Expr) : Grouping α → Expr
  | .leaf a => value a
  | .node op left right => .binary op (left.expr value) (right.expr value) .nowhere

/-! ### Climbing -/

/-- `Climb level left links tree rest`: going on behind the operand `left` with operators of
precedence `level` at least builds `tree` and leaves the links `rest`. -/
inductive Climb : Nat → Grouping α → List (BinaryOp × α) → Grouping α → List (BinaryOp × α) → Prop
  | stop {level : Nat} {left : Grouping α} {links : List (BinaryOp × α)}
      (h : ∀ l ∈ links.head?, l.1.precedence < level) : Climb level left links left links
  | step {level : Nat} {left right tree : Grouping α} {op : BinaryOp} {x : α}
      {links rest rest' : List (BinaryOp × α)} (h : level ≤ op.precedence)
      (hr : Climb op.rightLevel (.leaf x) links right rest)
      (ht : Climb level (.node op left right) rest tree rest') :
      Climb level left ((op, x) :: links) tree rest'

namespace Climb

variable {level : Nat} {left tree : Grouping α} {l rest : List (BinaryOp × α)}

theorem length_le (h : Climb level left l tree rest) : rest.length ≤ l.length := by
  induction h with
  | stop => exact le_rfl
  | step _ _ _ ih₁ ih₂ => simp only [List.length_cons]; omega

/-- Climbing keeps the sequence: nothing is lost, added or moved. -/
theorem links_eq (h : Climb level left l tree rest) :
    tree.first = left.first ∧ tree.links ++ rest = left.links ++ l := by
  induction h with
  | stop => exact ⟨rfl, rfl⟩
  | step _ _ _ ih₁ ih₂ =>
    obtain ⟨hf₁, hl₁⟩ := ih₁
    obtain ⟨hf₂, hl₂⟩ := ih₂
    refine ⟨hf₂, ?_⟩
    rw [hl₂]
    simp only [Grouping.links, Grouping.first, List.nil_append] at hf₁ hl₁ ⊢
    rw [hf₁, List.append_assoc, List.cons_append, hl₁]

/-- Climbing stops only in front of an operator below its level. -/
theorem lt_of_head (h : Climb level left l tree rest) :
    ∀ k ∈ rest.head?, k.1.precedence < level := by
  induction h with
  | stop h => exact h
  | step _ _ _ _ ih => exact ih

/-- **Climbing builds well-grouped trees**, from a left operand that is well grouped, binds at the
level at least, and may stand to the left of the first operator. -/
theorem wellGrouped (h : Climb level left l tree rest) (hw : left.WellGrouped)
    (hroot : ∀ o, left.root? = some o → level ≤ o.precedence)
    (hfits : ∀ k ∈ l.head?, ∀ o, left.root? = some o → k.1.FitsLeft o) :
    tree.WellGrouped ∧ ∀ o, tree.root? = some o → level ≤ o.precedence := by
  induction h with
  | stop => exact ⟨hw, hroot⟩
  | @step level left right tree op x links rest rest' hle hr ht ih₁ ih₂ =>
    obtain ⟨hright, hrightRoot⟩ := ih₁ trivial (by simp [root?]) (by simp [root?])
    refine ih₂ ⟨hfits _ rfl, fun o ho => ?_, hw, hright⟩ ?_ ?_
    · exact BinaryOp.fitsRight_of_rightLevel_le (hrightRoot o ho)
    · rintro o ⟨⟩
      exact hle
    · rintro k hk o ⟨⟩
      exact BinaryOp.fitsLeft_of_lt_rightLevel (hr.lt_of_head k hk)

end Climb

/-- **Climbing ends**, whatever the links are. -/
theorem exists_climb : ∀ (n : Nat) (level : Nat) (left : Grouping α) (l : List (BinaryOp × α)),
    l.length ≤ n → ∃ tree rest, Climb level left l tree rest
  | _, level, left, [], _ => ⟨left, [], .stop (by simp)⟩
  | 0, _, _, _ :: _, hn => by simp at hn
  | n + 1, level, left, (op, x) :: l, hn => by
    by_cases hop : level ≤ op.precedence
    · have hl : l.length ≤ n := by simpa using hn
      obtain ⟨right, rest, hr⟩ := exists_climb n op.rightLevel (.leaf x) l hl
      obtain ⟨tree, rest', ht⟩ :=
        exists_climb n level (.node op left right) rest (le_trans hr.length_le hl)
      exact ⟨tree, rest', .step hop hr ht⟩
    · refine ⟨left, (op, x) :: l, .stop ?_⟩
      rintro k ⟨⟩
      exact not_le.mp hop

/-- **A sequence of operands and operators climbs to a well-grouped tree over all of it.** -/
theorem exists_wellGrouped (x : α) (l : List (BinaryOp × α)) :
    ∃ tree : Grouping α, Climb 0 (.leaf x) l tree [] ∧ tree.first = x ∧ tree.links = l ∧
      tree.WellGrouped := by
  obtain ⟨tree, rest, h⟩ := exists_climb l.length 0 (.leaf x) l le_rfl
  have hrest : rest = [] := by
    cases rest with
    | nil => rfl
    | cons k rest => exact absurd (h.lt_of_head k rfl) (Nat.not_lt_zero _)
  subst hrest
  obtain ⟨hf, hl⟩ := h.links_eq
  refine ⟨tree, h, hf, by simpa [Grouping.links] using hl, ?_⟩
  exact (h.wellGrouped trivial (by simp [root?]) (by simp [root?])).1

/-! ### Uniqueness -/

namespace WellGrouped

/-- The root binds no tighter than any operator of the tree. -/
theorem root_le {t : Grouping α} {o : BinaryOp} (ht : t.WellGrouped) (ho : t.root? = some o) :
    ∀ k ∈ t.links, o.precedence ≤ k.1.precedence := by
  induction t generalizing o with
  | leaf a => cases ho
  | node op left right ihl ihr =>
    cases ho
    obtain ⟨hl, hr, hwl, hwr⟩ := ht
    intro k hk
    rcases List.mem_append.mp hk with hk | hk
    · cases left with
      | leaf a => cases hk
      | node o' l' r' => exact le_trans (hl o' rfl).le (ihl hwl rfl k hk)
    · rcases List.mem_cons.mp hk with rfl | hk
      · exact le_rfl
      · cases right with
        | leaf a => cases hk
        | node o' l' r' => exact le_trans (hr o' rfl).le (ihr hwr rfl k hk)

theorem fitsLeft_of_mem {op : BinaryOp} {left right : Grouping α}
    (h : (node op left right).WellGrouped) {k : BinaryOp × α} (hk : k ∈ left.links) :
    op.FitsLeft k.1 := by
  cases left with
  | leaf a => cases hk
  | node o l r => exact (h.1 o rfl).trans_le (root_le h.2.2.1 rfl k hk)

theorem fitsRight_of_mem {op : BinaryOp} {left right : Grouping α}
    (h : (node op left right).WellGrouped) {k : BinaryOp × α} (hk : k ∈ right.links) :
    op.FitsRight k.1 ∨
      (op.precedence = BinaryOp.assignLevel ∧ op.precedence ≤ k.1.precedence) := by
  cases right with
  | leaf a => cases hk
  | node o l r =>
    have hle := root_le h.2.2.2 rfl k hk
    rcases h.2.1 o rfl with ho | ⟨ho, hop⟩
    · exact .inl (.inl (lt_of_lt_of_le ho hle))
    · exact .inr ⟨hop, by omega⟩

/-- The root of a well-grouped tree does not lie in the left operand of another one whose root lies
in its right operand: the precedences exclude that. -/
theorem not_crossing {op o : BinaryOp} {left right l r : Grouping α} {k : BinaryOp × α}
    {m : List (BinaryOp × α)} (ht : (node op left right).WellGrouped)
    (hu : (node o l r).WellGrouped) (hm : l.links = left.links ++ k :: m)
    (hc : (op, right.first) :: right.links = (k :: m) ++ (o, r.first) :: r.links) : False := by
  rw [List.cons_append, List.cons.injEq] at hc
  have h₁ := fitsLeft_of_mem hu (k := (op, right.first)) (by rw [hm, hc.1]; simp)
  have h₂ := fitsRight_of_mem ht (k := (o, r.first)) (by rw [hc.2]; simp)
  exact BinaryOp.not_fitsLeft_of_fitsRight h₂ h₁

/-- **A sequence has one well-grouped tree at most.** -/
theorem unique {t u : Grouping α} (ht : t.WellGrouped) (hu : u.WellGrouped)
    (hf : t.first = u.first) (hl : t.links = u.links) : t = u := by
  induction t generalizing u with
  | leaf a =>
    cases u with
    | leaf b => rw [show a = b from hf]
    | node o l r => simp [links] at hl
  | node op left right ihl ihr =>
    cases u with
    | leaf b => simp [links] at hl
    | node o l r =>
      simp only [links] at hl
      -- the left operands take the same links, or one of them takes the root of the other tree
      have hsplit : left.links = l.links ∧
          (op, right.first) :: right.links = (o, r.first) :: r.links := by
        rcases List.append_eq_append_iff.mp hl with ⟨m, hm, hc⟩ | ⟨m, hm, hc⟩
        · cases m with
          | nil => exact ⟨by simpa using hm.symm, hc⟩
          | cons k m => exact (not_crossing ht hu hm hc).elim
        · cases m with
          | nil => exact ⟨by simpa using hm, hc.symm⟩
          | cons k m => exact (not_crossing hu ht hm hc).elim
      obtain ⟨hleft, hright⟩ := hsplit
      simp only [List.cons.injEq, Prod.mk.injEq] at hright
      obtain ⟨⟨rfl, hrf⟩, hrl⟩ := hright
      rw [ihl ht.2.2.1 hu.2.2.1 hf hleft, ihr ht.2.2.2 hu.2.2.2 hrf hrl]

end WellGrouped

end Grouping

end MiniC
