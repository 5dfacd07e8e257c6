import MiniC.Text.Bytes

/-!
# Gathering to the end

`gather` takes pieces on a budget. `Gathered next? s pieces stop` is what it does without one:
pieces are taken until `next?` finds none. If each piece makes something smaller (`size`), there is
an end (`exists_gathered`), and a budget of that size is enough to reach it (`Gathered.gather_eq`).
-/

namespace MiniC

variable {σ α : Type} {next? : σ → Option (α × σ)}

/-- The pieces are taken one after another, and no other can be taken then. -/
inductive Gathered (next? : σ → Option (α × σ)) : σ → List α → σ → Prop
  | stop {s : σ} : next? s = none → Gathered next? s [] s
  | take {s s' stop : σ} {a : α} {pieces : List α} : next? s = some (a, s') →
      Gathered next? s' pieces stop → Gathered next? s (a :: pieces) stop

namespace Gathered

variable {s stop : σ} {pieces : List α}

theorem next?_stop (h : Gathered next? s pieces stop) : next? stop = none := by
  induction h with
  | stop hs => exact hs
  | take _ _ ih => exact ih

/-- The piece that can be taken is taken. -/
theorem take_iff {s' : σ} {a : α} (h : next? s = some (a, s')) : Gathered next? s pieces stop ↔
    ∃ pieces', pieces = a :: pieces' ∧ Gathered next? s' pieces' stop := by
  constructor
  · intro hrun
    cases hrun with
    | stop hs => cases h.symm.trans hs
    | take hs hrun =>
      cases h.symm.trans hs
      exact ⟨_, rfl, hrun⟩
  · rintro ⟨pieces', rfl, hrun⟩
    exact .take h hrun

theorem gather_of_length_le (h : Gathered next? s pieces stop) :
    ∀ (budget : Bytes) (found : List α), pieces.length ≤ budget.length →
      gather next? budget found s = (found.reverse ++ pieces, stop) := by
  induction h with
  | stop hs =>
    intro budget found _
    cases budget <;> simp [gather, hs]
  | @take s s' stop a pieces hs _ ih =>
    intro budget found hbudget
    cases budget with
    | nil => simp at hbudget
    | cons b budget =>
      have ih := ih budget (a :: found) (by simpa using hbudget)
      rw [gather, hs]
      simpa using ih

end Gathered

section Size

variable {size : σ → Nat} (hsize : ∀ s a s', next? s = some (a, s') → size s' < size s)
include hsize

theorem Gathered.length_le {s stop : σ} {pieces : List α} (h : Gathered next? s pieces stop) :
    pieces.length ≤ size s := by
  induction h with
  | stop _ => exact Nat.zero_le _
  | take hs _ ih =>
    have := hsize _ _ _ hs
    rw [List.length_cons]
    omega

/-- There is an end. -/
theorem exists_gathered (s : σ) : ∃ pieces stop, Gathered next? s pieces stop := by
  induction hn : size s using Nat.strongRecOn generalizing s with
  | ind n ih =>
    cases hs : next? s with
    | none => exact ⟨[], s, .stop hs⟩
    | some q =>
      obtain ⟨a, s'⟩ := q
      have hlt := hsize s a s' hs
      obtain ⟨pieces, stop, h⟩ := ih (size s') (hn ▸ hlt) s' rfl
      exact ⟨a :: pieces, stop, .take hs h⟩

/-- **The budget does not decide.** -/
theorem Gathered.gather_eq {s stop : σ} {pieces : List α} (h : Gathered next? s pieces stop)
    {budget : Bytes} (hbudget : size s ≤ budget.length) :
    gather next? budget [] s = (pieces, stop) :=
  h.gather_of_length_le budget [] (Nat.le_trans (h.length_le hsize) hbudget)

end Size

end MiniC
