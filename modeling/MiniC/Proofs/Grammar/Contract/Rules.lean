import MiniC.Grammar.Program
import MiniC.Proofs.Grammar.Run
import MiniC.Proofs.Scan.Extension
import MiniC.Proofs.Scan.Local
import MiniC.Proofs.Syntax.Formed

/-!
# Contracts of parsers

`Ensures P p Q` says that the parser `p`, run where `P` holds of the vocabulary and the cursor,
succeeds with a value in `Q` or fails because of the text; no loop in it uses up its budget.

Places are told by the bytes passed: `Behind v o n` holds at a cursor `n` bytes or more behind `o`.
`Walks v o m p n P` is for parsers that lead from `m` to `n` bytes behind `o`, and `Finds` for
parsers that either take a byte at least or leave everything as it was. There is one rule for each
operation of `Parser`, and `Ensures.bind` puts parsers together. The rule of loops is
`iterate_ensures`: every round but the last takes a byte, so the budget is enough.
-/

namespace MiniC

open Scan

/-! ### Moving on in a text -/

namespace Scan.Cursor

variable {c c' c'' : Cursor} {m n : Nat}

/-- A place in the same text, `n` bytes or more behind `c`. -/
structure Moves (n : Nat) (c c' : Cursor) : Prop where
  text : c'.text = c.text
  index : c.index + n ≤ c'.index

theorem Moves.refl (c : Cursor) : c.Moves 0 c := ⟨rfl, Nat.le_refl _⟩

theorem Moves.trans (h : c.Moves m c') (h' : c'.Moves n c'') : c.Moves (m + n) c'' := by
  have hindex := h.index
  have hindex' := h'.index
  exact ⟨h'.text.trans h.text, by omega⟩

theorem Moves.mono (h : c.Moves n c') (hmn : m ≤ n) : c.Moves m c' := by
  have hindex := h.index
  exact ⟨h.text, by omega⟩

theorem index_add_length_rest (c : Cursor) : c.index + c.rest.length = c.text.length := by
  rw [text, List.length_append, List.length_reverse, index]

/-- The bytes passed are no longer left. -/
theorem Moves.length_rest (h : c.Moves n c') : c'.rest.length + n ≤ c.rest.length := by
  have hlength := index_add_length_rest c
  have hlength' := index_add_length_rest c'
  have hindex := h.index
  rw [h.text] at hlength'
  omega

theorem moves_of_before (hn : n ≤ c.rest.length)
    (hbefore : c'.before = (c.rest.take n).reverse ++ c.before)
    (hrest : c'.rest = c.rest.drop n) : c.Moves n c' where
  text := by simp [text, hbefore, hrest]
  index := by
    rw [index, index, hbefore, List.length_append, List.length_reverse, List.length_take_of_le hn,
      Nat.add_comm]

theorem moves_advanceBy (hn : n ≤ c.rest.length) : c.Moves n (c.advanceBy n) :=
  moves_of_before hn (before_advanceBy hn) (rest_advanceBy n c)

theorem moves_pass {keep : Bool} {b : Blank} (h : c.blank? keep = some b) :
    c.Moves (b.width c.rest) (c.pass b) := by
  obtain ⟨-, hwidth⟩ := width_bounds_of_blank? h
  refine moves_of_before hwidth ?_ (rest_pass c b)
  rw [← before_advanceBy hwidth]
  cases b <;> rfl

end Scan.Cursor

theorem Scan.Scanner.moves_skip (keep : Bool) (s : Scanner) :
    s.cursor.Moves 0 (s.skip keep).cursor := by
  induction s using Scanner.skip_induction keep with
  | stop s h =>
    rw [skip_of_none h]
    exact .refl _
  | pass s b h ih =>
    rw [skip_of_some h]
    exact ((Cursor.moves_pass h).trans ih).mono (Nat.zero_le _)

/-- Moving on by some bytes and over what is skipped behind them. -/
theorem Scan.Scanner.moves_advanceBy_skip {s : Scanner} {n : Nat}
    (hn : n ≤ s.cursor.rest.length) (keep : Bool) :
    s.cursor.Moves n ((s.advanceBy n).skip keep).cursor := by
  have hskip := moves_skip keep (s.advanceBy n)
  exact (Cursor.moves_advanceBy hn).trans hskip

/-- An identifier stands as a whole word where it is read. -/
theorem Scan.Lexeme.leads_of_identifier {s a : Bytes} {n : Nat}
    (h : identifier s = ⟨n, .ok a⟩) : leads a s = true := by
  obtain ⟨-, -, rfl⟩ := identifier_eq_ok h
  have hrest : (s.dropWhile isIdent).head?.any isIdent = false := by
    rw [← Bool.not_eq_true, Option.any_eq_true]
    rintro ⟨b, hb, hident⟩
    have hnot := List.head?_dropWhile_not isIdent s
    rw [hb] at hnot
    exact absurd hident (by simpa using hnot)
  have hlead : leads (s.takeWhile isIdent) (s.takeWhile isIdent ++ s.dropWhile isIdent) = true :=
    leads_append fun _ => hrest
  rwa [List.takeWhile_append_dropWhile] at hlead

namespace Parser

variable {α β : Type}

/-! ### The judgement -/

/-- What is said of the vocabulary and the cursor. -/
abbrev Assertion := Vocabulary → Cursor → Prop

/-- Just this vocabulary and this cursor. -/
def At (v : Vocabulary) (c : Cursor) : Assertion := fun v' c' => v' = v ∧ c' = c

/-- The vocabulary `v`, and a cursor `n` bytes or more behind `o`. -/
def Behind (v : Vocabulary) (o : Cursor) (n : Nat) : Assertion := fun v' c => v' = v ∧ o.Moves n c

/-- From `P`, the parser succeeds with a value in `Q` or finds a mismatch. -/
def Ensures (P : Assertion) (p : Parser α) (Q : α → Assertion) : Prop :=
  ∀ s : ParserState, P s.vocabulary s.scanner.cursor →
    (∃ a s', p.run s = .ok a s' ∧ Q a s'.vocabulary s'.scanner.cursor) ∨
      ∃ e s', p.run s = .error (.mismatch e) s'

/-- From `m` bytes behind `o` the parser leads to `n` bytes behind `o`, with a value in `P`. -/
abbrev Walks (v : Vocabulary) (o : Cursor) (m : Nat) (p : Parser α) (n : Nat) (P : α → Prop) :
    Prop :=
  Ensures (Behind v o m) p fun a v' c => P a ∧ Behind v o n v' c

/-- Where fewer than `n` bytes are left, the parser takes one at least and gives a value in `P`. -/
def Takes (v : Vocabulary) (n : Nat) (p : Parser α) (P : α → Prop) : Prop :=
  ∀ ⦃o : Cursor⦄ ⦃m : Nat⦄, o.rest.length < n + m → Walks v o m p (m + 1) P

/-- A value in `P` behind `c`, or none at `c`. -/
def Maybe (v : Vocabulary) (c : Cursor) (P : α → Prop) : Option α → Assertion
  | none => At v c
  | some a => fun v' c' => P a ∧ Behind v c 1 v' c'

/-- Where fewer than `n` bytes are left, the parser takes one at least and gives a value in `P`, or
it gives none and leaves everything as it was. -/
def Finds (v : Vocabulary) (n : Nat) (p : Parser (Option α)) (P : α → Prop) : Prop :=
  ∀ ⦃c : Cursor⦄, c.rest.length < n → Ensures (At v c) p (Maybe v c P)

variable {P Q : Assertion} {p p' : Parser α} {f : α → Parser β} {R S : α → Assertion}
  {T : β → Assertion} {v : Vocabulary} {o c : Cursor} {k m n : Nat} {A B : α → Prop}

theorem Behind.mono {v' : Vocabulary} (h : Behind v o n v' c) (hmn : m ≤ n) :
    Behind v o m v' c :=
  ⟨h.1, h.2.mono hmn⟩

theorem Behind.trans {v' : Vocabulary} {c' : Cursor} (h : o.Moves m c) (h' : Behind v c n v' c') :
    Behind v o (m + n) v' c' :=
  ⟨h'.1, h.trans h'.2⟩

theorem Behind.of_at {v' : Vocabulary} {c' : Cursor} (h : At v c v' c') : Behind v c 0 v' c' :=
  ⟨h.1, h.2 ▸ .refl c⟩

/-! ### Putting parsers together -/

namespace Ensures

theorem pure {a : α} (h : ∀ v c, P v c → R a v c) : Ensures P (pure a) R :=
  fun s hs => .inl ⟨a, s, rfl, h _ _ hs⟩

theorem bind (h : Ensures P p R) (hf : ∀ a, Ensures (R a) (f a) T) : Ensures P (p >>= f) T := by
  intro s hs
  rcases h s hs with ⟨a, s₁, hp, hR⟩ | ⟨e, s', hp⟩
  · rw [run_bind_of_ok hp]
    exact hf a s₁ hR
  · refine .inr ⟨e, s', ?_⟩
    rw [EStateM.run_bind, hp]

theorem of_run (h : Ensures P p R) {s s' : ParserState} {a : α}
    (hs : P s.vocabulary s.scanner.cursor) (hrun : p.run s = .ok a s') :
    R a s'.vocabulary s'.scanner.cursor := by
  rcases h s hs with ⟨b, t, hb, hR⟩ | ⟨e, t, he⟩
  · rw [hb] at hrun
    cases hrun
    exact hR
  · rw [he] at hrun
    cases hrun

/-- A value that is in `A` wherever the parser ends. -/
theorem bind_of (h : Ensures P p fun a v c => A a ∧ R a v c)
    (hf : ∀ a, A a → Ensures (R a) (f a) T) : Ensures P (p >>= f) T :=
  h.bind fun a s hs => hf a hs.1 s hs.2

theorem pre (h : Ensures Q p R) (hPQ : ∀ v c, P v c → Q v c) : Ensures P p R :=
  fun s hs => h s (hPQ _ _ hs)

theorem post (h : Ensures P p R) (hRS : ∀ a v c, R a v c → S a v c) : Ensures P p S := by
  intro s hs
  rcases h s hs with ⟨a, s', hp, hR⟩ | hmismatch
  · exact .inl ⟨a, s', hp, hRS _ _ _ hR⟩
  · exact .inr hmismatch

/-- It is enough to look at each place on its own. -/
theorem of_each (h : ∀ v c, P v c → Ensures (At v c) p R) : Ensures P p R :=
  fun s hs => h _ _ hs s ⟨rfl, rfl⟩

theorem of_forall_at (h : ∀ c, o.Moves m c → Ensures (At v c) p R) : Ensures (Behind v o m) p R :=
  of_each fun _ c hs => hs.1 ▸ h c hs.2

theorem at_of_behind (h : Ensures (Behind v c 0) p R) : Ensures (At v c) p R :=
  h.pre fun _ _ => Behind.of_at

/-- A test and its two branches. -/
theorem cond {t : Parser Bool} (h : Ensures P t fun b => if b then Q else P)
    (hyes : Ensures Q p R) (hno : Ensures P p' R) :
    Ensures P (t >>= fun b => if b then p else p') R := by
  refine h.bind fun b => ?_
  cases b with
  | true => exact hyes
  | false => exact hno

/-- A test that leaves everything as it was, and its two branches. -/
theorem fork {t : Parser Bool} (h : Ensures P t fun _ => P) (hyes : Ensures P p R)
    (hno : Ensures P p' R) : Ensures P (t >>= fun b => if b then p else p') R := by
  refine h.bind fun b => ?_
  cases b with
  | true => exact hyes
  | false => exact hno

/-- A value that may be missing, and what is done in either case. -/
theorem option {q : Parser (Option α)} {g : Option α → Parser β} (h : Ensures P q (Maybe v c A))
    (hsome : ∀ a, A a → Ensures (Behind v c 1) (g (some a)) T)
    (hnone : Ensures (At v c) (g none) T) : Ensures P (q >>= g) T := by
  refine h.bind fun r => ?_
  cases r with
  | none => exact hnone
  | some a => exact fun s hs => hsome a hs.1 s hs.2

end Ensures

namespace Walks

theorem pure {a : α} (ha : A a) (hnm : n ≤ m) : Walks v o m (pure a) n A :=
  Ensures.pure fun _ _ hs => ⟨ha, hs.mono hnm⟩

theorem bind (h : Walks v o m p n A) (hf : ∀ a, A a → Ensures (Behind v o n) (f a) T) :
    Ensures (Behind v o m) (p >>= f) T :=
  Ensures.bind_of h hf

theorem mono (h : Walks v o m p n A) (hAB : ∀ a, A a → B a) (hkn : k ≤ n) :
    Walks v o m p k B :=
  h.post fun a _ _ ha => ⟨hAB a ha.1, ha.2.mono hkn⟩

/-- A walk from a place seen from further back. -/
theorem rebase (h : Walks v c 0 p n A) (hc : o.Moves m c) :
    Ensures (At v c) p fun a v' c' => A a ∧ Behind v o (m + n) v' c' :=
  h.at_of_behind.post fun _ _ _ ha => ⟨ha.1, .trans hc ha.2⟩

end Walks

/-- A value is found. -/
theorem found {a : α} (ha : A a) (hn : 1 ≤ n) :
    Ensures (Behind v c n) (Pure.pure (some a)) (Maybe v c A) :=
  .pure fun _ _ hs => ⟨ha, hs.mono hn⟩

/-- A value that may be missing, where the place is known by a count of bytes only. -/
theorem Finds.bind {q : Parser (Option α)} {g : Option α → Parser β} (h : Finds v n q A)
    (hm : o.rest.length < n + m)
    (hsome : ∀ a, A a → Ensures (Behind v o (m + 1)) (g (some a)) T)
    (hnone : Ensures (Behind v o m) (g none) T) : Ensures (Behind v o m) (q >>= g) T := by
  refine .of_forall_at fun c hc => ?_
  have hlength := hc.length_rest
  refine (h (by omega)).option (fun a ha => ?_) ?_
  · exact (hsome a ha).pre fun _ _ hs => .trans hc hs
  · exact hnone.pre fun _ _ hs => .trans hc (.of_at hs)

theorem forall_mem_reverse {l : List α} (h : ∀ a ∈ l, A a) : ∀ a ∈ l.reverse, A a :=
  fun a ha => h a (List.mem_reverse.1 ha)

theorem unexpected_ensures (what : Bytes) : Ensures P (unexpected what) R :=
  fun _ _ => .inr ⟨_, _, rfl⟩

/-! ### Operations that leave the cursor alone -/

/-- A parser that only looks at the state. -/
theorem look_ensures {F : ParserState → α} (h : ∀ s, p.run s = .ok (F s) s) :
    Ensures P p fun _ => P :=
  fun s hs => .inl ⟨F s, s, h s, hs⟩

theorem here_ensures : Ensures P here fun _ => P := look_ensures fun _ => rfl

theorem atEnd_ensures : Ensures P atEnd fun _ => P := look_ensures fun _ => rfl

theorem test_ensures (t : Scanner → Bool) : Ensures P (test t) fun _ => P :=
  look_ensures fun _ => rfl

theorem get_walks : Walks v o m get m fun st => st.vocabulary = v :=
  fun s hs => .inl ⟨s, s, rfl, hs.1, hs⟩

theorem get_at : Ensures (At v c) get fun st v' c' => st.vocabulary = v ∧ At v c v' c' :=
  fun s hs => .inl ⟨s, s, rfl, hs.1, hs⟩

theorem mark_ensures : Ensures (At v c) mark fun c' v' c'' => c' = c ∧ At v c v' c'' :=
  fun s hs => .inl ⟨s.scanner.cursor, s, rfl, hs.2, hs⟩

theorem budget_ensures :
    Ensures (At v c) budget fun b v' c' => b.length = c.rest.length + 1 ∧ At v c v' c' :=
  fun s hs => .inl ⟨0 :: s.scanner.cursor.rest, s, rfl, by rw [hs.2, List.length_cons], hs⟩

theorem peek_ensures (w : Bytes) : Ensures P (peek w) fun _ => P := by
  intro s hs
  rw [peek_run]
  split_ifs
  · exact .inl ⟨true, _, rfl, hs⟩
  · exact .inl ⟨false, s, rfl, hs⟩

theorem firstPeeked_ensures (word : α → Bytes) : ∀ l : List α,
    Ensures P (firstPeeked word l) fun _ => P
  | [] => .pure fun _ _ => id
  | a :: l => (peek_ensures (word a)).fork (.pure fun _ _ => id) (firstPeeked_ensures word l)

theorem restore_ensures : Ensures (Behind v o m) (restore c) fun _ => At v c :=
  fun _ hs => .inl ⟨(), _, rfl, hs.1, rfl⟩

/-! ### Operations that move the cursor -/

/-- Whether the word stands at the cursor decides the outcome. -/
theorem acceptKeeping_tells (keep : Bool) {w : Bytes} (hw : w ≠ []) :
    Ensures (At v c) (acceptKeeping keep w) fun b v' c' =>
      b = leads w c.rest ∧ (if b then Behind v c 1 else At v c) v' c' := by
  rintro s ⟨hv, rfl⟩
  rw [acceptKeeping_run]
  split_ifs with hl
  · have hmoves := Scanner.moves_advanceBy_skip (length_le_of_leads hl) keep
    exact .inl ⟨true, _, rfl, hl.symm, hv, hmoves.mono (List.length_pos_of_ne_nil hw)⟩
  · exact .inl ⟨false, s, rfl, (Bool.not_eq_true _ ▸ hl).symm, hv, rfl⟩

theorem accept_tells {w : Bytes} (hw : w ≠ []) :
    Ensures (At v c) (accept w) fun b v' c' =>
      b = leads w c.rest ∧ (if b then Behind v c 1 else At v c) v' c' :=
  acceptKeeping_tells false hw

theorem acceptKeeping_at (keep : Bool) {w : Bytes} (hw : w ≠ []) :
    Ensures (At v c) (acceptKeeping keep w) fun b => if b then Behind v c 1 else At v c :=
  (acceptKeeping_tells keep hw).post fun _ _ _ hs => hs.2

theorem accept_at {w : Bytes} (hw : w ≠ []) :
    Ensures (At v c) (accept w) fun b => if b then Behind v c 1 else At v c :=
  acceptKeeping_at false hw

theorem accept_behind {w : Bytes} (hw : w ≠ []) :
    Ensures (Behind v o m) (accept w) fun b =>
      if b then Behind v o (m + 1) else Behind v o m := by
  refine .of_forall_at fun c hc => (accept_at hw).post fun b v' c' hs => ?_
  cases b with
  | true => exact .trans hc hs
  | false => exact .trans hc (.of_at hs)

/-- Moving past a word, if it is there. -/
theorem accept_walks {w : Bytes} (hw : w ≠ []) : Walks v o m (accept w) m fun _ => True := by
  refine (accept_behind hw).post fun b v' c' hs => ⟨trivial, ?_⟩
  cases b with
  | true => exact Behind.mono hs (Nat.le_succ m)
  | false => exact hs

theorem expect_walks {w : Bytes} (hw : w ≠ []) :
    Walks v o m (expect w) (m + 1) fun _ => True := by
  intro s hs
  rw [expect_run]
  split_ifs with hl
  · have hmoves := Scanner.moves_advanceBy_skip (length_le_of_leads hl) false
    have hpos := List.length_pos_of_ne_nil hw
    exact .inl ⟨(), _, rfl, trivial, hs.1, (hs.2.trans hmoves).mono (by omega)⟩
  · exact .inr ⟨_, _, rfl⟩

/-- The first of some words that stands at the cursor, if any does. -/
theorem firstAccepted_ensures {word : α → Bytes} : ∀ {l : List α}, (∀ a ∈ l, word a ≠ []) →
    Ensures (At v c) (firstAccepted word l) fun r v' c' =>
      r = l.find? (fun a => leads (word a) c.rest) ∧ Maybe v c (fun _ => True) r v' c'
  | [], _ => .pure fun _ _ hs => ⟨rfl, hs⟩
  | a :: l, hl => by
    obtain ⟨ha, hrest⟩ := List.forall_mem_cons.1 hl
    refine (accept_tells ha).bind_of fun b hb => ?_
    cases b with
    | true =>
      rw [List.find?_cons_of_pos (by exact hb.symm)]
      exact .pure fun _ _ hs => ⟨rfl, trivial, hs⟩
    | false =>
      rw [List.find?_cons_of_neg (by rw [← hb]; decide)]
      exact firstAccepted_ensures hrest

/-! ### Lexemes -/

theorem read_at {reader : Bytes → Reading α} (hl : TakesBytes reader) {after : Scanner → Scanner}
    (hafter : ∀ s : Scanner, s.cursor.Moves 0 (after s).cursor) :
    Ensures (At v c) (scan (Scanner.read reader after)) fun a v' c' =>
      (∃ n, reader c.rest = ⟨n, .ok a⟩) ∧ Behind v c 1 v' c' := by
  rintro s ⟨hv, rfl⟩
  cases hr : reader s.scanner.cursor.rest with
  | mk n result =>
    cases result with
    | ok a =>
      refine .inl ⟨a, _, scan_read_run hr, ⟨n, rfl⟩, hv, ?_⟩
      obtain ⟨hpos, hle⟩ := hl hr
      have hmoves := (Cursor.moves_advanceBy hle).trans (hafter (s.scanner.advanceBy n))
      exact hmoves.mono (by omega)
    | error e =>
      right
      cases e <;> simp [EStateM.run, scan, Scanner.read, hr]

theorem read_walks {reader : Bytes → Reading α} (hl : TakesBytes reader) {after : Scanner → Scanner}
    (hafter : ∀ s : Scanner, s.cursor.Moves 0 (after s).cursor) :
    Walks v o m (scan (Scanner.read reader after)) (m + 1)
      fun a => ∃ s n, reader s = ⟨n, .ok a⟩ :=
  .of_forall_at fun c hc =>
    (read_at hl hafter).post fun _ _ _ ha => ⟨⟨c.rest, ha.1⟩, .trans hc ha.2⟩

/-- The identifier that is read is the word at the cursor. -/
theorem identifier_at : Ensures (At v c) identifier fun name v' c' =>
    (isWord name = true ∧ leads name c.rest = true) ∧ Behind v c 1 v' c' :=
  (read_at Lexeme.local_identifier.takes (Scanner.moves_skip false)).post fun _ _ _ ⟨⟨_, hr⟩, hs⟩ =>
    ⟨⟨Lexeme.isWord_of_identifier hr, Lexeme.leads_of_identifier hr⟩, hs⟩

theorem identifier_walks : Walks v o m identifier (m + 1) fun name => isWord name = true :=
  .of_forall_at fun _ hc => identifier_at.post fun _ _ _ hs => ⟨hs.1.1, .trans hc hs.2⟩

theorem number_walks : Walks v o m (scan (Scanner.readNumber false)) (m + 1)
    fun x => ∃ s n, Lexeme.number s = ⟨n, .ok x⟩ :=
  read_walks Lexeme.takes_number (Scanner.moves_skip false)

theorem string_walks : Walks v o m (scan (Scanner.readString false)) (m + 1) fun _ => True :=
  (read_walks Lexeme.takes_string (Scanner.moves_skip false)).mono (fun _ _ => trivial)
    (Nat.le_refl _)

theorem character_walks : Walks v o m (scan Scanner.readCharacter) (m + 1) fun _ => True :=
  (read_walks Lexeme.takes_character fun s => .refl s.cursor).mono (fun _ _ => trivial)
    (Nat.le_refl _)

/-! ### The vocabulary -/

theorem declareType_ensures (name : Bytes) :
    Ensures (Behind v o m) (Grammar.declareType name) fun _ => Behind (v.addType name) o m :=
  fun _ hs => .inl ⟨(), _, rfl, congrArg (·.addType name) hs.1, hs.2⟩

/-! ### Loops -/

section Loop
variable {step : α → Parser (α ⊕ β)} {I : α → Assertion}

/-- The invariant `I` holds at the start of each round, and each round but the last takes a byte. -/
theorem iterateWithin_ensures
    (h : ∀ a c, Ensures (fun v' c' => c' = c ∧ I a v' c') (step a)
      (Sum.elim (fun a' v' c' => c.Moves 1 c' ∧ I a' v' c') T)) :
    ∀ (b : Bytes) (a : α), Ensures (fun v' c' => c'.rest.length < b.length ∧ I a v' c')
      (iterateWithin step b a) T
  | [], _ => fun _ hs => absurd hs.1 (Nat.not_lt_zero _)
  | x :: b, a => by
    intro s hs
    rw [iterateWithin_cons]
    refine Ensures.bind (h a s.scanner.cursor) (fun r => ?_) s ⟨rfl, hs.2⟩
    cases r with
    | inl a' =>
      refine (iterateWithin_ensures h b a').pre fun v' c' hround => ⟨?_, hround.2⟩
      have hlength := hround.1.length_rest
      have hbudget := hs.1
      rw [List.length_cons] at hbudget
      omega
    | inr b' => exact .pure fun _ _ => id

/-- **A loop whose rounds take a byte ends.** -/
theorem iterate_ensures
    (h : ∀ a c, Ensures (fun v' c' => c' = c ∧ I a v' c') (step a)
      (Sum.elim (fun a' v' c' => c.Moves 1 c' ∧ I a' v' c') T)) (a : α) :
    Ensures (I a) (iterate step a) T := by
  intro s hs
  refine iterateWithin_ensures h (0 :: s.scanner.cursor.rest) a s ⟨?_, hs⟩
  rw [List.length_cons]
  exact Nat.lt_succ_self _

/-- What one round of a loop gives, started at `c`: either the loop goes on behind `c` with a value
in `A`, or it ends with one in `B`. -/
def Round (v : Vocabulary) (c : Cursor) (A : α → Prop) (B : β → Prop) : α ⊕ β → Assertion
  | .inl a => fun v' c' => A a ∧ Behind v c 1 v' c'
  | .inr b => fun v' c' => B b ∧ Behind v c 0 v' c'

variable {B : β → Prop}

theorem again {a : α} (ha : A a) (hn : 1 ≤ n) :
    Ensures (Behind v c n) (Pure.pure (.inl a)) (Round v c A B) :=
  .pure fun _ _ hs => ⟨ha, hs.mono hn⟩

theorem done {b : β} (hb : B b) : Ensures (Behind v c n) (Pure.pure (.inr b)) (Round v c A B) :=
  .pure fun _ _ hs => ⟨hb, hs.mono (Nat.zero_le n)⟩

/-- Each round may rely on the values being in `A` and on fewer bytes being left. -/
theorem iterate_walks
    (h : ∀ c a, c.rest.length + m ≤ o.rest.length → A a →
      Ensures (Behind v c 0) (step a) (Round v c A B)) {a : α} (ha : A a) :
    Walks v o m (iterate step a) m B := by
  refine (iterate_ensures (I := fun a v' c' => A a ∧ Behind v o m v' c') (fun a c => ?_) a).pre
    fun v' c' hs => ⟨ha, hs⟩
  intro s hs
  obtain ⟨rfl, ha, hv, hmoves⟩ := hs
  have hround := h _ a hmoves.length_rest ha
  refine hround.post (fun r v' c' hr => ?_) s ⟨hv, .refl _⟩
  cases r with
  | inl a' => exact ⟨hr.2.2, hr.1, (Behind.trans hmoves hr.2).mono (Nat.le_add_right m 1)⟩
  | inr b => exact ⟨hr.1, .trans hmoves hr.2⟩

end Loop

end Parser

end MiniC
