import Mathlib.Tactic.SplitIfs
import MiniC.Proofs.Text.Gather

/-!
# Substitution and splitting

`replaceAll old new s` replaces every `old` in a text, from the left. What stands at the front says
how it goes on: an `old` is replaced (`replaceAll_found`), and bytes with which no `old` starts are
kept (`replaceAll_append`).

`Bytes.fields` splits a text at a separator: it cuts off one field at the first separator
(`fields_append_sep`) and keeps the fields behind a separator as they are (`exists_fields_append`).
-/

namespace MiniC

/-! ### Substitution -/

/-- The first piece of a text in which `old` is replaced, and the text not yet looked at. -/
def replaceNext? (old new s : Bytes) : Option (Bytes × Bytes) :=
  match s with
  | [] => none
  | b :: rest => if old.isPrefixOf s then some (new, s.drop old.length) else some ([b], rest)

/-- The text with every `old` in it replaced by `new`, from the left. -/
def replaceAll (old new s : Bytes) : Bytes := (gather (replaceNext? old new) s [] s).1.flatten

section Replace
variable {old new s s' piece : Bytes} {b : UInt8}

theorem length_replaceNext? (hold : old ≠ []) (s piece s' : Bytes)
    (h : replaceNext? old new s = some (piece, s')) : s'.length < s.length := by
  cases s with
  | nil => cases h
  | cons b rest =>
    rw [replaceNext?] at h
    split_ifs at h <;> cases h
    · have hpos := List.length_pos_iff.2 hold
      rw [List.length_drop, List.length_cons]
      omega
    · simp

theorem replaceAll_of_next? (hold : old ≠ []) (h : replaceNext? old new s = some (piece, s')) :
    replaceAll old new s = piece ++ replaceAll old new s' := by
  obtain ⟨pieces, stop, hrun⟩ := exists_gathered (length_replaceNext? hold) s'
  have hwhole : Gathered (replaceNext? old new) s (piece :: pieces) stop := .take h hrun
  rw [replaceAll, replaceAll, hwhole.gather_eq (length_replaceNext? hold) (Nat.le_refl _),
    hrun.gather_eq (length_replaceNext? hold) (Nat.le_refl _)]
  exact List.flatten_cons

theorem replaceAll_found (hold : old ≠ []) :
    replaceAll old new (old ++ s) = new ++ replaceAll old new s := by
  apply replaceAll_of_next? hold
  cases old with
  | nil => exact absurd rfl hold
  | cons b old =>
    have hprefix : (b :: old).isPrefixOf (b :: old ++ s) = true :=
      List.isPrefixOf_iff_prefix.2 (List.prefix_append _ _)
    rw [List.cons_append] at hprefix ⊢
    rw [replaceNext?, if_pos hprefix, ← List.cons_append, List.drop_left]

theorem replaceAll_keep (hold : old ≠ []) (h : ¬ old <+: b :: s) :
    replaceAll old new (b :: s) = b :: replaceAll old new s := by
  have hnext : replaceNext? old new (b :: s) = some ([b], s) := by
    rw [replaceNext?, if_neg (mt List.isPrefixOf_iff_prefix.1 h)]
  exact replaceAll_of_next? hold hnext

/-- Bytes that `old` does not start with stay. -/
theorem replaceAll_append {w : Bytes} (hold : old ≠ []) (h : ∀ b ∈ w, old.head? ≠ some b) :
    replaceAll old new (w ++ s) = w ++ replaceAll old new s := by
  induction w with
  | nil => rfl
  | cons b w ih =>
    obtain ⟨hb, hw⟩ := List.forall_mem_cons.1 h
    rw [List.cons_append, replaceAll_keep hold, ih hw, List.cons_append]
    intro hprefix
    cases old with
    | nil => exact hold rfl
    | cons c old => exact hb (congrArg some (List.cons_prefix_cons.1 hprefix).1)

end Replace

/-! ### Splitting -/

theorem fields_ne_nil (sep : UInt8) (s : Bytes) : Bytes.fields sep s ≠ [] := by
  cases s with
  | nil => simp [Bytes.fields]
  | cons b s =>
    rw [Bytes.fields, List.foldr_cons]
    split_ifs
    · simp
    · split <;> simp

theorem fields_cons_of_ne {sep b : UInt8} (hb : b ≠ sep) (s : Bytes) :
    ∃ field more, Bytes.fields sep s = field :: more ∧
      Bytes.fields sep (b :: s) = (b :: field) :: more := by
  obtain ⟨field, more, hs⟩ := List.exists_cons_of_ne_nil (fields_ne_nil sep s)
  refine ⟨field, more, hs, ?_⟩
  unfold Bytes.fields at hs ⊢
  rw [List.foldr_cons, if_neg hb, hs]

/-- The fields behind a separator are fields of the whole text. -/
theorem exists_fields_append (sep : UInt8) (front s : Bytes) :
    ∃ first more, Bytes.fields sep (front ++ sep :: s) = first :: more ++ Bytes.fields sep s := by
  induction front with
  | nil =>
    refine ⟨[], [], ?_⟩
    simp [Bytes.fields]
  | cons b front ih =>
    obtain ⟨first, more, hfields⟩ := ih
    by_cases hb : b = sep
    · have hempty : Bytes.fields sep (b :: (front ++ sep :: s)) =
          [] :: Bytes.fields sep (front ++ sep :: s) := by
        simp [Bytes.fields, hb]
      exact ⟨[], first :: more, by rw [List.cons_append, hempty, hfields]; rfl⟩
    · obtain ⟨field, others, hs, hcons⟩ := fields_cons_of_ne hb (front ++ sep :: s)
      rw [hs, List.cons_append, List.cons.injEq] at hfields
      refine ⟨b :: field, more, ?_⟩
      rw [List.cons_append, hcons, hfields.2, List.cons_append]

/-- Bytes without a separator belong to the first field. -/
theorem fields_append {sep : UInt8} {front s first : Bytes} {more : List Bytes} (h : sep ∉ front)
    (hs : Bytes.fields sep s = first :: more) :
    Bytes.fields sep (front ++ s) = (front ++ first) :: more := by
  induction front with
  | nil => exact hs
  | cons b front ih =>
    obtain ⟨hb, hfront⟩ := not_or.1 (mt List.mem_cons.2 h)
    obtain ⟨field, others, hfields, hcons⟩ := fields_cons_of_ne (Ne.symm hb) (front ++ s)
    rw [ih hfront, List.cons.injEq] at hfields
    rw [List.cons_append, hcons, ← hfields.1, ← hfields.2, List.cons_append]

theorem fields_of_notMem {sep : UInt8} {field : Bytes} (h : sep ∉ field) :
    Bytes.fields sep field = [field] := by
  have hend : Bytes.fields sep [] = [[]] := rfl
  simpa using fields_append h hend

/-- The first field stops at the first separator. -/
theorem fields_append_sep {sep : UInt8} {field : Bytes} (h : sep ∉ field) (s : Bytes) :
    Bytes.fields sep (field ++ sep :: s) = field :: Bytes.fields sep s := by
  have hsep : Bytes.fields sep (sep :: s) = [] :: Bytes.fields sep s := by simp [Bytes.fields]
  simpa using fields_append h hsep

end MiniC
