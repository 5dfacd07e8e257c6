import MiniC.Grammar.Program
import MiniC.Proofs.Grammar.Reading

/-!
# Runs of the operations of a parser

What each operation of `Parser` does to a state, as an equation about its run, how the run of a
sequence splits, and which runs are accepted.
-/

namespace MiniC

open Scan

theorem length_le_of_leads {w s : Bytes} (h : leads w s = true) : w.length ≤ s.length := by
  rw [leads, Bool.and_eq_true] at h
  exact (List.isPrefixOf_iff_prefix.mp h.1).length_le

namespace Parser

variable {α β : Type}

theorem acceptKeeping_run (keep : Bool) (w : Bytes) (s : ParserState) :
    (acceptKeeping keep w).run s =
      if leads w s.scanner.cursor.rest then
        .ok true { s with scanner := (s.scanner.advanceBy w.length).skip keep }
      else .ok false s := by
  cases h : leads w s.scanner.cursor.rest <;>
    simp [EStateM.run, acceptKeeping, Scanner.lookahead_eq, h]

theorem accept_run (w : Bytes) (s : ParserState) :
    (accept w).run s =
      if leads w s.scanner.cursor.rest then
        .ok true { s with scanner := (s.scanner.advanceBy w.length).skip false }
      else .ok false s :=
  acceptKeeping_run false w s

theorem accept_true {w : Bytes} {s s' : ParserState} (h : (accept w).run s = .ok true s') :
    leads w s.scanner.cursor.rest = true := by
  by_contra hn
  rw [accept_run, if_neg hn] at h
  cases h

theorem accept_false {w : Bytes} {s s' : ParserState} (h : (accept w).run s = .ok false s') :
    s' = s := by
  rw [accept_run] at h
  split_ifs at h <;> cases h
  rfl

theorem peek_run (w : Bytes) (s : ParserState) :
    (peek w).run s =
      if leads w s.scanner.cursor.rest then
        .ok true { s with scanner :=
          ((s.scanner.advanceBy w.length).skip true).restore s.scanner.cursor }
      else .ok false s := by
  cases h : leads w s.scanner.cursor.rest <;>
    simp [EStateM.run, peek, Scanner.peek_eq, h]

theorem expect_run (w : Bytes) (s : ParserState) :
    (expect w).run s =
      if leads w s.scanner.cursor.rest then
        .ok () { s with scanner := (s.scanner.advanceBy w.length).skip false }
      else .error (.mismatch (s.scanner.unexpected w)) s := by
  cases h : leads w s.scanner.cursor.rest <;>
    simp [EStateM.run, expect, scan, Scanner.consume_eq, h]

theorem scan_read_run {reader : Bytes → Reading α} {after : Scanner → Scanner} {s : ParserState}
    {n : Nat} {a : α} (h : reader s.scanner.cursor.rest = ⟨n, .ok a⟩) :
    (scan (Scanner.read reader after)).run s =
      .ok a { s with scanner := after (s.scanner.advanceBy n) } := by
  simp only [EStateM.run, scan, Scanner.read, h]

theorem scan_read_ok {reader : Bytes → Reading α} {after : Scanner → Scanner}
    {s s' : ParserState} {a : α} (h : (scan (Scanner.read reader after)).run s = .ok a s') :
    ∃ n, reader s.scanner.cursor.rest = ⟨n, .ok a⟩ ∧
      s' = { s with scanner := after (s.scanner.advanceBy n) } := by
  cases hr : reader s.scanner.cursor.rest with
  | mk n result =>
    simp only [EStateM.run, scan, Scanner.read, hr] at h
    cases result with
    | ok b => cases h; exact ⟨n, rfl, rfl⟩
    | error e => cases e <;> cases h

theorem run_bind_ok {p : Parser α} {f : α → Parser β} {s s' : ParserState} {b : β}
    (h : (p >>= f).run s = .ok b s') :
    ∃ a s₁, p.run s = .ok a s₁ ∧ (f a).run s₁ = .ok b s' := by
  rw [EStateM.run_bind] at h
  cases hp : p.run s with
  | ok a s₁ => rw [hp] at h; exact ⟨a, s₁, rfl, h⟩
  | error e s₁ => rw [hp] at h; cases h

theorem run_bind_of_ok {p : Parser α} {f : α → Parser β} {s s₁ : ParserState} {a : α}
    (h : p.run s = .ok a s₁) : (p >>= f).run s = (f a).run s₁ := by
  rw [EStateM.run_bind, h]

/-- What is found by peeking stands at the cursor. -/
theorem firstPeeked_some {γ : Type} {word : γ → Bytes} : ∀ {l : List γ} {s s' : ParserState}
    {a : γ}, (firstPeeked word l).run s = .ok (some a) s' →
      a ∈ l ∧ leads (word a) s.scanner.cursor.rest = true
  | [], _, _, _, h => by cases h
  | b :: l, s, s', a, h => by
    obtain ⟨found, s₁, hpeek, hrest⟩ := run_bind_ok h
    rw [peek_run] at hpeek
    split_ifs at hpeek with hb <;> cases hpeek
    · cases hrest
      exact ⟨List.mem_cons_self, hb⟩
    · obtain ⟨hmem, hlead⟩ := firstPeeked_some hrest
      exact ⟨List.mem_cons_of_mem b hmem, hlead⟩

end Parser

/-- An accepted run gives its value and met no open comment. -/
theorem Grammar.outcome_eq_ok {α : Type} {r : EStateM.Result Failure ParserState α} {a : α} :
    outcome r = .ok a ↔ ∃ st, r = .ok a st ∧ st.scanner.fault = none := by
  unfold outcome
  cases r with
  | ok b st => cases hf : st.scanner.fault <;> simp [hf]
  | error f st => cases hf : st.scanner.fault <;> simp [hf]

end MiniC
