import MiniC.Proofs.Grammar.Contract.Expression

/-!
# Precedence climbing in two loops

`climbWithin` reads the right operand of an operator by one recursion, at the level that the
operator gives it. The same is done by two loops. The outer loop (`climbOuter`) joins operators of a
precedence to its left operand, one after another. The inner loop (`climbInner`) looks at the
operator behind the right operand: while that one binds tighter, or both are assignments, the right
operand becomes the left operand of an outer loop at the precedence of that operator.

* `climbOuter_run`: both read the same, whatever the outcome.
* `loopedExpression_run`: so expressions are read by the two loops.

The reason is that climbing at one level may be cut short at a higher one and be taken up again
(`climbWithin_resume`). The loops look at the same operator more often, but looking again changes
nothing (`Sees`). A budget that is enough decides nothing (`climbWithin_budget`).
-/

namespace MiniC

open Scan

/-! ### Looking again -/

/-- Skipping with the fault that is found behind the cursor finds it again. -/
theorem Scan.Scanner.skip_again (keep : Bool) (s : Scanner) :
    (⟨s.cursor, (s.skip keep).fault⟩ : Scanner).skip keep = s.skip keep := by
  induction s using skip_induction keep with
  | stop s hb => rw [skip_of_none hb, skip_of_none (s := ⟨s.cursor, s.fault⟩) hb]
  | pass s b hb ih =>
    have hagain : (⟨s.cursor, ((s.pass b).skip keep).fault⟩ : Scanner).pass b =
        ⟨(s.pass b).cursor, ((s.pass b).skip keep).fault⟩ := by
      cases hf : ((s.pass b).skip keep).fault with
      | some e => cases b <;> rfl
      | none =>
        -- an open comment would have left its fault
        obtain ⟨-, hopen⟩ := fault_pass (fault_of_skip hf)
        cases b with
        | openComment => exact absurd rfl hopen
        | _ => rfl
    rw [skip_of_some hb, skip_of_some (s := ⟨s.cursor, ((s.pass b).skip keep).fault⟩) hb,
      hagain, ih]

namespace Parser

variable {α β : Type} {s s₁ : ParserState}

theorem peek_again {w : Bytes} (h : leads w s.scanner.cursor.rest = true) : ∃ s₁,
    (peek w).run s = .ok true s₁ ∧ s₁.vocabulary = s.vocabulary ∧
      s₁.scanner.cursor = s.scanner.cursor ∧ (peek w).run s₁ = .ok true s₁ := by
  let scanner := ((s.scanner.advanceBy w.length).skip true).restore s.scanner.cursor
  refine ⟨⟨scanner, s.vocabulary⟩, by rw [peek_run, if_pos h], rfl, rfl, ?_⟩
  have hskip : (scanner.advanceBy w.length).skip true = (s.scanner.advanceBy w.length).skip true :=
    Scanner.skip_again true (s.scanner.advanceBy w.length)
  have hlead : leads w scanner.cursor.rest = true := h
  rw [peek_run, if_pos hlead, hskip]
  rfl

theorem peek_of_not_leads {w : Bytes} (h : ¬ leads w s.scanner.cursor.rest = true) :
    (peek w).run s = .ok false s := by
  rw [peek_run, if_neg h]

/-- Peeking ends well, and peeking again gives the same and leaves everything as it is. -/
theorem exists_firstPeeked_run (word : α → Bytes) (l : List α) (s : ParserState) : ∃ o s₁,
    (firstPeeked word l).run s = .ok o s₁ ∧ s₁.vocabulary = s.vocabulary ∧
      s₁.scanner.cursor = s.scanner.cursor ∧ (firstPeeked word l).run s₁ = .ok o s₁ := by
  induction l with
  | nil => exact ⟨none, s, rfl, rfl, rfl, rfl⟩
  | cons a l ih =>
    by_cases hw : leads (word a) s.scanner.cursor.rest = true
    · obtain ⟨s₁, hpeek, hv, hc, hagain⟩ := peek_again hw
      refine ⟨some a, s₁, ?_, hv, hc, ?_⟩
      · rw [firstPeeked, run_bind_of_ok hpeek]
        rfl
      · rw [firstPeeked, run_bind_of_ok hagain]
        rfl
    · obtain ⟨o, s₁, hrest, hv, hc, hagain⟩ := ih
      have hw₁ : ¬ leads (word a) s₁.scanner.cursor.rest = true := hc ▸ hw
      refine ⟨o, s₁, ?_, hv, hc, ?_⟩
      · rw [firstPeeked, run_bind_of_ok (peek_of_not_leads hw)]
        exact hrest
      · rw [firstPeeked, run_bind_of_ok (peek_of_not_leads hw₁)]
        exact hagain

theorem run_bind_congr {p q : Parser α} {f g : α → Parser β} (h : p.run s = q.run s)
    (hfg : ∀ a s₁, p.run s = .ok a s₁ → (f a).run s₁ = (g a).run s₁) :
    (p >>= f).run s = (q >>= g).run s := by
  rw [EStateM.run_bind, EStateM.run_bind, ← h]
  cases hp : p.run s with
  | error e s₁ => rfl
  | ok a s₁ => exact hfg a s₁ hp

theorem run_bind_of_run_eq {p q : Parser α} {f : α → Parser β} (h : p.run s = q.run s₁) :
    (p >>= f).run s = (q >>= f).run s₁ := by
  rw [EStateM.run_bind, EStateM.run_bind, h]

end Parser

namespace Grammar

open MiniC.Parser

/-! ### The loops -/

/-- One round at a level, behind the left operand: the operator there, if it binds tightly enough,
and its first right operand. `inner` completes the right operand, and `outer` goes on. -/
def climbRound (operand : Parser (Option Expr)) (inner : BinaryOp → Expr → Parser Expr)
    (outer : Expr → Parser Expr) (level : Nat) (left : Expr) : Parser Expr := do
  match ← binaryOp? with
  | none => return left
  | some op =>
    if op.precedence < level then return left
    else
      let p ← here
      let _ ← accept op.spelling
      let first ← required operand
      let right ← inner op first
      outer (.binary op left right p)

mutual

/-- Joins operators of precedence `level` at least to the left operand. -/
def climbOuter (operand : Parser (Option Expr)) : (budget : Bytes) → (level : Nat) →
    (left : Expr) → Parser Expr
  | [], _, _ => throw .exhausted
  | _ :: budget, level, left =>
    climbRound operand (fun op right => climbInner operand budget op right)
      (fun e => climbOuter operand budget level e) level left

/-- Completes the right operand of `op`: operators that bind tighter come first, and assignments
come before an assignment. -/
def climbInner (operand : Parser (Option Expr)) : (budget : Bytes) → (op : BinaryOp) →
    (right : Expr) → Parser Expr
  | [], _, _ => throw .exhausted
  | _ :: budget, op, right => do
    match ← binaryOp? with
    | none => return right
    | some next =>
      if op.precedence < next.precedence ∨
          next.precedence = BinaryOp.assignLevel ∧ op.precedence = BinaryOp.assignLevel then
        let right ← climbOuter operand budget next.precedence right
        climbInner operand budget op right
      else return right

end

section Loops

variable {operand : Parser (Option Expr)} {inner inner' : BinaryOp → Expr → Parser Expr}
  {outer outer' : Expr → Parser Expr} {v : Vocabulary} {level high : Nat} {left : Expr}
  {op : BinaryOp} {o : Option BinaryOp} {s s₁ : ParserState}

theorem climbWithin_cons (x : UInt8) (n : Bytes) (level : Nat) (left : Expr) :
    climbWithin operand (x :: n) level left =
      climbRound operand (fun op right => climbWithin operand n op.rightLevel right)
        (fun e => climbWithin operand n level e) level left := by
  rw [climbWithin]
  rfl

theorem climbOuter_cons (x : UInt8) (n : Bytes) (level : Nat) (left : Expr) :
    climbOuter operand (x :: n) level left =
      climbRound operand (fun op right => climbInner operand n op right)
        (fun e => climbOuter operand n level e) level left := by
  rw [climbOuter]

/-! ### One round -/

/-- The number of bytes left. -/
def bytesLeft (s : ParserState) : Nat := s.scanner.cursor.rest.length

/-- What looking for an operator at `s` gives: looking again gives the same and changes nothing. -/
structure Sees (s : ParserState) (o : Option BinaryOp) (s₁ : ParserState) : Prop where
  run : binaryOp?.run s = .ok o s₁
  again : binaryOp?.run s₁ = .ok o s₁
  vocabulary : s₁.vocabulary = s.vocabulary
  bytesLeft : bytesLeft s₁ = bytesLeft s
  leads : ∀ op, o = some op → leads op.spelling s₁.scanner.cursor.rest = true

theorem exists_sees (s : ParserState) : ∃ o s₁, Sees s o s₁ := by
  obtain ⟨o, s₁, hrun, hv, hc, hagain⟩ :=
    exists_firstPeeked_run BinaryOp.spelling BinaryOp.longestFirst s
  refine ⟨o, s₁, hrun, hagain, hv, congrArg (fun c => c.rest.length) hc, ?_⟩
  rintro op rfl
  exact (firstPeeked_some hagain).2

/-- The operator that is seen, if any, binds too loosely for a level or tightly enough. -/
theorem loose_or_tight (o : Option BinaryOp) (level : Nat) :
    (∀ op, o = some op → op.precedence < level) ∨ ∃ op, o = some op ∧ level ≤ op.precedence := by
  cases o with
  | none => exact .inl fun op h => by cases h
  | some op =>
    rcases Nat.lt_or_ge op.precedence level with hlt | hle
    · exact .inl fun next h => Option.some.inj h ▸ hlt
    · exact .inr ⟨op, rfl, hle⟩

/-- An operator and its first right operand, with the position of the operator. -/
def operatorAndOperand (operand : Parser (Option Expr)) (op : BinaryOp) :
    Parser (Position × Expr) := do
  let p ← here
  let _ ← accept op.spelling
  let first ← required operand
  return (p, first)

/-- The round ends if no operator binds tightly enough. -/
theorem climbRound_stop (h : binaryOp?.run s = .ok o s₁)
    (hlow : ∀ op, o = some op → op.precedence < level) :
    (climbRound operand inner outer level left).run s = .ok left s₁ := by
  rw [climbRound, run_bind_of_ok h]
  cases o with
  | none => rfl
  | some op =>
    dsimp only
    rw [if_pos (hlow op rfl)]
    rfl

/-- The round goes on behind an operator that does. -/
theorem climbRound_step (h : binaryOp?.run s = .ok (some op) s₁) (hle : level ≤ op.precedence) :
    (climbRound operand inner outer level left).run s =
      (operatorAndOperand operand op >>= fun r => inner op r.2 >>= fun right =>
        outer (.binary op left right r.1)).run s₁ := by
  rw [climbRound, run_bind_of_ok h]
  dsimp only
  rw [if_neg (Nat.not_lt.2 hle)]
  simp only [operatorAndOperand, bind_assoc, pure_bind]

/-! ### Bytes taken -/

/-- Where the parser ends well it has taken `k` bytes at least and kept the vocabulary. -/
def Shrinks {α : Type} (v : Vocabulary) (k : Nat) (p : Parser α) : Prop :=
  ∀ ⦃s : ParserState⦄ ⦃a : α⦄ ⦃s' : ParserState⦄, s.vocabulary = v → p.run s = .ok a s' →
    s'.vocabulary = v ∧ bytesLeft s' + k ≤ bytesLeft s

section Taken

variable (ho : Shrinks v 1 (required operand))

include ho

/-- Behind an operator that was seen, two bytes are taken at least. -/
theorem operatorAndOperand_taken {r : Position × Expr} {s' : ParserState} (hv : s.vocabulary = v)
    (hlead : leads op.spelling s.scanner.cursor.rest = true)
    (h : (operatorAndOperand operand op).run s = .ok r s') :
    s'.vocabulary = v ∧ bytesLeft s' + 2 ≤ bytesLeft s := by
  obtain ⟨p, s₁, hhere, h⟩ := run_bind_ok h
  cases hhere
  obtain ⟨b, s₂, haccept, h⟩ := run_bind_ok h
  obtain ⟨first, s₃, hrequired, h⟩ := run_bind_ok h
  cases h
  rw [accept_run, if_pos hlead] at haccept
  cases haccept
  have hpos : 0 < op.spelling.length := by cases op <;> decide
  let s₁ : ParserState := ⟨(s.scanner.advanceBy op.spelling.length).skip false, s.vocabulary⟩
  have hmoves : bytesLeft s₁ + op.spelling.length ≤ bytesLeft s :=
    (Scanner.moves_advanceBy_skip (length_le_of_leads hlead) false).length_rest
  obtain ⟨hv', htaken⟩ := ho (s := s₁) hv hrequired
  exact ⟨hv', by omega⟩

/-- A round that goes on takes two bytes at least. -/
theorem climbRound_taken (hinner : ∀ op right, Shrinks v 0 (inner op right))
    (houter : ∀ e, Shrinks v 0 (outer e)) {e : Expr} {s' : ParserState} (hv : s.vocabulary = v)
    (hsees : Sees s (some op) s₁) (hle : level ≤ op.precedence)
    (h : (climbRound operand inner outer level left).run s = .ok e s') :
    s'.vocabulary = v ∧ bytesLeft s' + 2 ≤ bytesLeft s := by
  rw [climbRound_step hsees.run hle] at h
  obtain ⟨r, s₂, hfirst, h⟩ := run_bind_ok h
  obtain ⟨right, s₃, hright, h⟩ := run_bind_ok h
  obtain ⟨hv₂, h₂⟩ :=
    operatorAndOperand_taken ho (hsees.vocabulary.trans hv) (hsees.leads op rfl) hfirst
  obtain ⟨hv₃, h₃⟩ := hinner op r.2 hv₂ hright
  obtain ⟨hv', h'⟩ := houter _ hv₃ h
  have hsame := hsees.bytesLeft
  exact ⟨hv', by omega⟩

theorem climbWithin_shrinks : ∀ (n : Bytes) (level : Nat) (left : Expr),
    Shrinks v 0 (climbWithin operand n level left)
  | [], level, left => by
    intro s e s' hv h
    cases h
  | x :: n, level, left => by
    intro s e s' hv h
    rw [climbWithin_cons] at h
    obtain ⟨o, s₁, hsees⟩ := exists_sees s
    rcases loose_or_tight o level with hlow | ⟨op, rfl, hle⟩
    · rw [climbRound_stop hsees.run hlow] at h
      cases h
      exact ⟨hsees.vocabulary.trans hv, hsees.bytesLeft.le⟩
    · obtain ⟨hv', h'⟩ := climbRound_taken ho (fun op => climbWithin_shrinks n op.rightLevel)
        (climbWithin_shrinks n level) hv hsees hle h
      exact ⟨hv', by omega⟩

/-- Rounds agree if they go on alike, with fewer bytes left. -/
theorem climbRound_congr (hshrinks : ∀ op right, Shrinks v 0 (inner op right))
    (hv : s.vocabulary = v)
    (hinner : ∀ op right s', s'.vocabulary = v → bytesLeft s' + 2 ≤ bytesLeft s →
      (inner op right).run s' = (inner' op right).run s')
    (houter : ∀ e s', s'.vocabulary = v → bytesLeft s' + 2 ≤ bytesLeft s →
      (outer e).run s' = (outer' e).run s') :
    (climbRound operand inner outer level left).run s =
      (climbRound operand inner' outer' level left).run s := by
  obtain ⟨o, s₁, hsees⟩ := exists_sees s
  rcases loose_or_tight o level with hlow | ⟨op, rfl, hle⟩
  · rw [climbRound_stop hsees.run hlow, climbRound_stop hsees.run hlow]
  · have hsame := hsees.bytesLeft
    rw [climbRound_step hsees.run hle, climbRound_step hsees.run hle]
    refine run_bind_congr rfl fun r s₂ hfirst => ?_
    obtain ⟨hv₂, h₂⟩ :=
      operatorAndOperand_taken ho (hsees.vocabulary.trans hv) (hsees.leads op rfl) hfirst
    refine run_bind_congr (hinner op r.2 s₂ hv₂ (by omega)) fun right s₃ hright => ?_
    obtain ⟨hv₃, h₃⟩ := hshrinks op r.2 hv₂ hright
    exact houter _ s₃ hv₃ (by omega)

/-- A budget that is enough decides nothing. -/
theorem climbWithin_budget : ∀ (m n : Bytes) (level : Nat) (left : Expr) {s : ParserState},
    s.vocabulary = v → bytesLeft s < m.length → bytesLeft s < n.length →
      (climbWithin operand m level left).run s = (climbWithin operand n level left).run s
  | [], _, _, _, _, _, hm, _ => absurd hm (Nat.not_lt_zero _)
  | _, [], _, _, _, _, _, hn => absurd hn (Nat.not_lt_zero _)
  | x :: m, y :: n, level, left, s, hv, hm, hn => by
    rw [List.length_cons] at hm hn
    rw [climbWithin_cons, climbWithin_cons]
    refine climbRound_congr ho (fun op => climbWithin_shrinks ho m op.rightLevel) hv ?_ ?_
    · exact fun op right s' hv' h' => climbWithin_budget m n _ _ hv' (by omega) (by omega)
    · exact fun e s' hv' h' => climbWithin_budget m n _ _ hv' (by omega) (by omega)

/-! ### Climbing that is taken up again -/

omit ho in
/-- Looking for an operator beforehand changes nothing. -/
theorem climbWithin_again (hsees : Sees s o s₁) {n : Bytes} (hn : n ≠ []) :
    (climbWithin operand n level left).run s₁ = (climbWithin operand n level left).run s := by
  obtain ⟨x, n, rfl⟩ := List.exists_cons_of_ne_nil hn
  rw [climbWithin_cons, climbRound, run_bind_of_ok hsees.run, run_bind_of_ok hsees.again]

/-- **Climbing at one level may be cut short at a higher one and be taken up again.** -/
theorem climbWithin_resume (hle : level ≤ high) : ∀ (m k n : Bytes) (left : Expr)
    {s : ParserState}, s.vocabulary = v → bytesLeft s < m.length → bytesLeft s < k.length →
    bytesLeft s < n.length →
      (climbWithin operand m high left >>= climbWithin operand k level).run s =
        (climbWithin operand n level left).run s
  | [], _, _, _, _, _, hm, _, _ => absurd hm (Nat.not_lt_zero _)
  | _, _, [], _, _, _, _, _, hn => absurd hn (Nat.not_lt_zero _)
  | x :: m, k, y :: n, left, s, hv, hm, hk, hn => by
    obtain ⟨o, s₁, hsees⟩ := exists_sees s
    have hv₁ := hsees.vocabulary.trans hv
    have hsame := hsees.bytesLeft
    rcases loose_or_tight o high with hlow | ⟨op, rfl, hhigh⟩
    · have hstop : (climbWithin operand (x :: m) high left).run s = .ok left s₁ := by
        rw [climbWithin_cons, climbRound_stop hsees.run hlow]
      rw [run_bind_of_ok hstop,
        climbWithin_budget ho k (y :: n) level left hv₁ (by omega) (by omega)]
      exact climbWithin_again hsees (List.cons_ne_nil y n)
    · rw [List.length_cons] at hm hn
      rw [climbWithin_cons, climbWithin_cons, run_bind_of_run_eq (climbRound_step hsees.run hhigh),
        climbRound_step hsees.run (hle.trans hhigh), bind_assoc]
      refine run_bind_congr rfl fun r s₂ hfirst => ?_
      obtain ⟨hv₂, h₂⟩ := operatorAndOperand_taken ho hv₁ (hsees.leads op rfl) hfirst
      rw [bind_assoc]
      refine run_bind_congr
        (climbWithin_budget ho m n op.rightLevel r.2 hv₂ (by omega) (by omega))
        fun right s₃ hright => ?_
      obtain ⟨hv₃, h₃⟩ := climbWithin_shrinks ho m op.rightLevel r.2 hv₂ hright
      exact climbWithin_resume hle m k n _ hv₃ (by omega) (by omega) (by omega)

end Taken

/-! ### Both loops -/

/-- The inner loop goes on at the operators that the climb at the level of the right operand
takes. -/
theorem rightLevel_le_iff (op next : BinaryOp) : op.rightLevel ≤ next.precedence ↔
    op.precedence < next.precedence ∨
      next.precedence = BinaryOp.assignLevel ∧ op.precedence = BinaryOp.assignLevel := by
  have hleast : BinaryOp.assignLevel ≤ next.precedence := by cases next <;> decide
  unfold BinaryOp.rightLevel
  split_ifs with hassign
  · omega
  · constructor
    · exact fun h => .inl h
    · rintro (h | ⟨-, h⟩)
      · exact h
      · exact absurd h hassign

theorem climbInner_stop {x : UInt8} {n : Bytes} {right : Expr} (h : binaryOp?.run s = .ok o s₁)
    (hlow : ∀ next, o = some next → next.precedence < op.rightLevel) :
    (climbInner operand (x :: n) op right).run s = .ok right s₁ := by
  rw [climbInner, run_bind_of_ok h]
  cases o with
  | none => rfl
  | some next =>
    dsimp only
    rw [if_neg (mt (rightLevel_le_iff op next).2 (Nat.not_le.2 (hlow next rfl)))]
    rfl

theorem climbInner_step {x : UInt8} {n : Bytes} {right : Expr} {next : BinaryOp}
    (h : binaryOp?.run s = .ok (some next) s₁) (hle : op.rightLevel ≤ next.precedence) :
    (climbInner operand (x :: n) op right).run s =
      (climbOuter operand n next.precedence right >>= climbInner operand n op).run s₁ := by
  rw [climbInner, run_bind_of_ok h]
  dsimp only
  rw [if_pos ((rightLevel_le_iff op next).1 hle)]

/-- The loops agree with climbing, on budgets that are enough. The inner loop needs one round more,
since it calls the outer one before a byte is taken. -/
theorem climbLoops_run (ho : Shrinks v 1 (required operand)) (n : Bytes) :
    (∀ (level : Nat) (left : Expr) (m : Bytes) (s : ParserState), s.vocabulary = v →
      bytesLeft s < n.length → bytesLeft s < m.length →
        (climbOuter operand n level left).run s = (climbWithin operand m level left).run s) ∧
    ∀ (op : BinaryOp) (right : Expr) (m : Bytes) (s : ParserState), s.vocabulary = v →
      bytesLeft s + 1 < n.length → bytesLeft s < m.length →
        (climbInner operand n op right).run s =
          (climbWithin operand m op.rightLevel right).run s := by
  induction n with
  | nil => exact ⟨fun _ _ _ _ _ hn => absurd hn (Nat.not_lt_zero _),
      fun _ _ _ _ _ hn => absurd hn (Nat.not_lt_zero _)⟩
  | cons x n ih =>
    obtain ⟨hout, hin⟩ := ih
    rw [List.length_cons]
    constructor
    · intro level left m s hv hn hm
      obtain ⟨y, m, rfl⟩ := List.exists_cons_of_length_pos (Nat.zero_lt_of_lt hm)
      rw [List.length_cons] at hm
      rw [climbOuter_cons, climbWithin_cons]
      symm
      refine climbRound_congr ho (fun op => climbWithin_shrinks ho m op.rightLevel) hv ?_ ?_
      · exact fun op right s' hv' h' => (hin op right m s' hv' (by omega) (by omega)).symm
      · exact fun e s' hv' h' => (hout level e m s' hv' (by omega) (by omega)).symm
    · intro op right m s hv hn hm
      obtain ⟨y, m, rfl⟩ := List.exists_cons_of_length_pos (Nat.zero_lt_of_lt hm)
      obtain ⟨o, s₁, hsees⟩ := exists_sees s
      have hv₁ := hsees.vocabulary.trans hv
      have hsame := hsees.bytesLeft
      rw [← climbWithin_again hsees (List.cons_ne_nil y m)]
      rcases loose_or_tight o op.rightLevel with hlow | ⟨next, rfl, hle⟩
      · rw [climbInner_stop hsees.run hlow, climbWithin_cons, climbRound_stop hsees.again hlow]
      · -- the operator is taken by the outer loop, so the inner one goes on behind it
        have hnext := hout next.precedence right (y :: m) s₁ hv₁ (by omega) (by omega)
        rw [climbInner_step hsees.run hle,
          ← climbWithin_resume ho hle (y :: m) (y :: m) (y :: m) right hv₁ (by omega) (by omega)
            (by omega)]
        refine run_bind_congr hnext fun right' s₂ hright => ?_
        rw [hnext, climbWithin_cons] at hright
        obtain ⟨hv₂, h₂⟩ := climbRound_taken ho
          (fun op => climbWithin_shrinks ho m op.rightLevel) (climbWithin_shrinks ho m _) hv₁
          ⟨hsees.again, hsees.again, rfl, rfl, hsees.leads⟩ (Nat.le_refl _) hright
        exact hin op right' (y :: m) s₂ hv₂ (by omega) (by omega)

end Loops

/-! ### Expressions -/

theorem requiredOperand_shrinks {v : Vocabulary} (hv : v.Proper) :
    Shrinks v 1 (required operand) := by
  intro s e s' hs h
  have htakes := required_takes (operand_finds (n := bytesLeft s + 1) hv)
  obtain ⟨-, hv', hmoves⟩ := (htakes (o := s.scanner.cursor) (m := 0) (Nat.lt_succ_self _)).of_run
    ⟨hs, .refl _⟩ h
  exact ⟨hv', hmoves.length_rest⟩

/-- **The two loops read what precedence climbing reads,** whatever the outcome. -/
theorem climbOuter_run {s : ParserState} (hv : s.vocabulary.Proper) (level : Nat) (left : Expr)
    {n : Bytes} (hn : bytesLeft s < n.length) :
    (climbOuter operand n level left).run s = (climbWithin operand n level left).run s :=
  (climbLoops_run (requiredOperand_shrinks hv) n).1 level left n s rfl hn hn

/-- An expression that is read by the two loops. -/
def loopedExpression : Parser (Option Expr) := do
  match ← operand with
  | some left => return some (← climbOuter operand (← budget) 0 left)
  | none =>
    match ← binaryOp? with
    | some _ => unexpected (ascii "expression")
    | none => return none

/-- **Expressions are read by the two loops.** -/
theorem loopedExpression_run {s : ParserState} (hv : s.vocabulary.Proper) :
    loopedExpression.run s = expression.run s := by
  refine run_bind_congr rfl fun left s₁ hleft => ?_
  cases left with
  | none => rfl
  | some left =>
    obtain ⟨-, hv₁, -⟩ := (operand_finds (n := bytesLeft s + 1) hv (Nat.lt_succ_self _)).of_run
      ⟨rfl, rfl⟩ hleft
    have hproper : s₁.vocabulary.Proper := by rwa [hv₁]
    refine run_bind_congr rfl fun b s₂ hbudget => ?_
    cases hbudget
    exact run_bind_congr (climbOuter_run hproper 0 left (Nat.lt_succ_self _)) fun _ _ _ => rfl

end Grammar

end MiniC
