import MiniC.Proofs.Grammar.RoundTrip
import MiniC.Proofs.Number.Numeral
import MiniC.Proofs.Syntax.Formed
import MiniC.Proofs.Syntax.Legible
import MiniC.Proofs.Syntax.Relocate
import MiniC.Proofs.Text.Unquoted

/-!
# A reader of printed expressions

The print of an expression holds no blanks but those the printer puts there, and it has parentheses
around binary operands only. `operand`, `whole` and the other functions here read such texts: an
operand is an operator in front of an operand, a cast, or what takes suffixes; an expression is an
operand, or two with a sign between them. The first argument limits the depth. Parentheses are taken
for those of a binary expression if one can be read there, and for those of a cast else.

The reader serves to show that the print tells expressions apart. This module has what it does with
single signs: which operator it takes (`firstOf_sign`, `firstOf_prefixText`), where it stops
(`AtMark`, `Stops`), and what the first byte of an operand says about it (`exists_lead`).
-/

namespace MiniC.Unprinting

open Filter Grammar

/-! ### The reader -/

/-- What was read, if the mark stands behind it, and the text after the mark. -/
def closed {α : Type} (mark : UInt8) (p : Option (α × Bytes)) : Option (α × Bytes) :=
  p.bind fun (a, r) => if r.head? = some mark then some (a, r.tail) else none

/-- The first member whose text stands in front, and the text after it. -/
def firstOf {α : Type} (text : α → Bytes) (l : List α) (s : Bytes) : Option (α × Bytes) :=
  (l.find? fun a => (text a).isPrefixOf s).map fun a => (a, s.drop (text a).length)

/-- The print of an operator in front of its operand. -/
def prefixText (op : PrefixOp) : Bytes :=
  op.spelling ++ if op = .sizeOf then [ch ' '] else []

/-- The words of a base type: at least one, and one more behind each space. -/
def words : ℕ → Bytes → List Bytes × Bytes
  | 0, s => ([], s)
  | n + 1, s =>
    let w := s.takeWhile isIdent
    let r := s.dropWhile isIdent
    if r.head? = some (ch ' ') && r.tail.head?.any isIdentStart then
      let (ws, r) := words n r.tail
      (w :: ws, r)
    else ([w], r)

/-- The number of stars, and the text after them. -/
def starsOf (s : Bytes) : ℕ × Bytes :=
  if (ascii " *").isPrefixOf s then
    ((s.tail.takeWhile (· == ch '*')).length, s.tail.dropWhile (· == ch '*'))
  else (0, s)

/-- The type with given words and a number of stars. -/
def stemOf (ws : List Bytes) : ℕ → TypeDesc
  | 0 => .base ws.dropLast (ws.getLastD []) .nowhere
  | n + 1 => .pointer (stemOf ws n) .nowhere

mutual

/-- An operand, and the text after it. -/
noncomputable def operand : ℕ → Bytes → Option (Expr × Bytes)
  | 0, _ => none
  | n + 1, s =>
    match firstOf prefixText PrefixOp.all s with
    | some (op, r) => (operand n r).map fun p => (.prefixed op p.1 .nowhere, p.2)
    | none =>
      if s.head? = some (ch '(') then
        match (closed (ch ')') (whole n s.tail)).filter (·.1.isBinary) with
        | some (e, r) => suffixes n e r
        | none =>
          (closed (ch ')') (typeName n s.tail)).bind fun p =>
            (operand n p.2).map fun q => (.cast p.1 q.1 .nowhere, q.2)
      else (primary n s).bind fun p => suffixes n p.1 p.2

/-- An operand without operators in front and behind and without parentheses. -/
noncomputable def primary : ℕ → Bytes → Option (Expr × Bytes)
  | 0, _ => none
  | n + 1, s =>
    if (ascii "sizeof(").isPrefixOf s then
      (closed (ch ')') (typeName n (s.drop 7))).map fun p => (.sizeOfType p.1 .nowhere, p.2)
    else if s.head?.any isDigit then
      some ((Numeral.scan s).map (fun q => .number (Numeral.valueOf q) .nowhere) id)
    else if s.head?.any isIdentStart then
      some (.name (s.takeWhile isIdent) .nowhere, s.dropWhile isIdent)
    else if s.head? = some (ch '\'') then
      (closed (ch '\'') (Quoted.characterNext? s.tail)).map fun p => (.char p.1 .nowhere, p.2)
    else if s.head? = some (ch '"') then
      (closed (ch '"') (some (Quoted.unquoted s.tail))).map fun p => (.string p.1 .nowhere, p.2)
    else if s.head? = some 0x7b then
      (items n 0x7d s.tail).map fun p => (.list p.1 .nowhere, p.2)
    else none

/-- The suffixes behind an operand. -/
noncomputable def suffixes : ℕ → Expr → Bytes → Option (Expr × Bytes)
  | 0, _, _ => none
  | n + 1, e, s =>
    if s.head? = some (ch '[') then
      (closed (ch ']') (whole n s.tail)).bind fun p => suffixes n (.index e p.1 .nowhere) p.2
    else if s.head? = some (ch '(') then
      (items n (ch ')') s.tail).bind fun p => suffixes n (.call e p.1 .nowhere) p.2
    else
      match firstOf SuffixOp.spelling [.inc, .dec] s with
      | some (op, r) => suffixes n (.suffixed op e .nowhere) r
      | none => some (e, s)

/-- An expression, and the text after it. -/
noncomputable def whole : ℕ → Bytes → Option (Expr × Bytes)
  | 0, _ => none
  | n + 1, s =>
    (operand n s).bind fun p =>
      match firstOf sign BinaryOp.all p.2 with
      | some (op, r) => (operand n r).map fun q => (.binary op p.1 q.1 .nowhere, q.2)
      | none => some p

/-- Expressions up to a closing mark. -/
noncomputable def items : ℕ → UInt8 → Bytes → Option (List Expr × Bytes)
  | 0, _, _ => none
  | n + 1, mark, s =>
    if s.head? = some mark then some ([], s.tail)
    else
      (whole n s).bind fun p =>
        if (ascii ", ").isPrefixOf p.2 then
          (items n mark (p.2.drop 2)).map fun q => (p.1 :: q.1, q.2)
        else (closed mark (some p)).map fun q => ([q.1], q.2)

/-- A type, and the text after it. -/
noncomputable def typeName : ℕ → Bytes → Option (TypeDesc × Bytes)
  | 0, _ => none
  | n + 1, s =>
    let w := words n s
    let c := starsOf w.2
    brackets n (stemOf w.1 c.1) c.2

/-- The brackets behind a type. -/
noncomputable def brackets : ℕ → TypeDesc → Bytes → Option (TypeDesc × Bytes)
  | 0, _, _ => none
  | n + 1, t, s =>
    if (ascii "[]").isPrefixOf s then brackets n (.array t .nowhere) (s.drop 2)
    else if s.head? = some (ch '[') then
      (closed (ch ']') (whole n s.tail)).bind fun p => brackets n (.sizedArray t p.1 .nowhere) p.2
    else some (t, s)

end

/-! ### Small parts -/

theorem eventually_of_succ {p : ℕ → Prop} (h : ∀ᶠ n in atTop, p (n + 1)) : ∀ᶠ n in atTop, p n := by
  obtain ⟨m, hm⟩ := eventually_atTop.1 h
  refine eventually_atTop.2 ⟨m + 1, fun n hn => ?_⟩
  cases n with
  | zero => omega
  | succ n => exact hm n (by omega)

@[simp]
theorem closed_cons {α : Type} (mark : UInt8) (a : α) (k : Bytes) :
    closed mark (some (a, mark :: k)) = some (a, k) := by
  simp [closed]

theorem isPrefixOf_cons_of_ne {a b : UInt8} (w s : Bytes) (h : b ≠ a) :
    (a :: w).isPrefixOf (b :: s) = false := by
  rw [List.isPrefixOf_cons_cons, beq_eq_false_iff_ne.2 h.symm, Bool.false_and]

theorem firstOf_sign (op : BinaryOp) (r : Bytes) :
    firstOf sign BinaryOp.all (sign op ++ r) = some (op, r) := by
  cases op <;> rfl

/-- A sign is read as itself where it does not meet the same sign again. -/
theorem firstOf_prefixText {op : PrefixOp} {r : Bytes}
    (hplus : op = .plus → r.head? ≠ some (ch '+')) (hneg : op = .neg → r.head? ≠ some (ch '-')) :
    firstOf prefixText PrefixOp.all (prefixText op ++ r) = some (op, r) := by
  cases op with
  | plus =>
    cases r with
    | nil => rfl
    | cons b r =>
      have hb : (ch '+' == b) = false := beq_eq_false_iff_ne.2 fun h => hplus rfl (h ▸ rfl)
      have hinc : ¬ (prefixText .inc).isPrefixOf (ch '+' :: b :: r) = true := by
        show ¬ (ch '+' == ch '+' && (ch '+' == b && true)) = true
        rw [hb]
        decide
      rw [firstOf, PrefixOp.all, List.find?_cons_of_neg (by exact hinc)]
      rfl
  | neg =>
    cases r with
    | nil => rfl
    | cons b r =>
      have hb : (ch '-' == b) = false := beq_eq_false_iff_ne.2 fun h => hneg rfl (h ▸ rfl)
      have hdec : ¬ (prefixText .dec).isPrefixOf (ch '-' :: b :: r) = true := by
        show ¬ (ch '-' == ch '-' && (ch '-' == b && true)) = true
        rw [hb]
        decide
      rw [firstOf, PrefixOp.all, List.find?_cons_of_neg (by exact Bool.false_ne_true),
        List.find?_cons_of_neg (by exact hdec)]
      rfl
  | _ => rfl

/-- The byte starts an operator. -/
def isOperatorByte (b : UInt8) : Bool := (ascii "+-!~&*").contains b

theorem firstOf_prefixText_none {b : UInt8} {s : Bytes} (hb : isOperatorByte b = false)
    (hs : (ascii "sizeof ").isPrefixOf (b :: s) = false) :
    firstOf prefixText PrefixOp.all (b :: s) = none := by
  rw [firstOf, Option.map_eq_none_iff, List.find?_eq_none]
  intro op _ hop
  obtain ⟨t, ht⟩ := List.isPrefixOf_iff_prefix.1 hop
  cases op with
  | sizeOf => exact absurd (hop.symm.trans hs) (by decide)
  | _ =>
    obtain ⟨rfl, -⟩ := List.cons.inj ht
    revert hb
    decide

/-! ### What follows -/

/-- The text does not go on with the last word or the last numeral of the operand. -/
structure Clear (e : Expr) (k : Bytes) : Prop where
  edge : k.head?.any isIdent = false
  point : e.endsInDigits = true → Numeral.isPlaces k = false

/-- No suffix stands in front. -/
def Stops (k : Bytes) : Prop := ∀ n e, suffixes (n + 1) e k = some (e, k)

/-- The text is at its end or goes on with a mark that stands behind an expression. -/
inductive AtMark : Bytes → Prop where
  | nil : AtMark []
  | parenthesis (r : Bytes) : AtMark (ch ')' :: r)
  | bracket (r : Bytes) : AtMark (ch ']' :: r)
  | comma (r : Bytes) : AtMark (ch ',' :: r)
  | brace (r : Bytes) : AtMark (0x7d :: r)

section AtMark

variable {k : Bytes} (h : AtMark k)

include h

theorem AtMark.clear (e : Expr) : Clear e k := by
  cases h <;> exact ⟨rfl, fun _ => rfl⟩

theorem AtMark.stops : Stops k := by
  intro n e
  cases h <;> rfl

theorem AtMark.firstOf_sign : firstOf sign BinaryOp.all k = none := by
  cases h <;> rfl

end AtMark

theorem stops_sign (op : BinaryOp) (r : Bytes) : Stops (sign op ++ r) := by
  intro n e
  cases op <;> rfl

/-! ### How an operand starts -/

/-- What the first byte of an operand says about it. -/
structure Lead (e : Expr) (b : UInt8) : Prop where
  plus : b = ch '+' → e.prefixOp?.any PrefixOp.plus.merges = true
  minus : b = ch '-' → e.prefixOp?.any PrefixOp.neg.merges = true
  digit : isDigit b = true → e.startsWithNumeral = true

/-- The byte is neither `+` nor `-` and no digit. -/
def isNeutral (b : UInt8) : Bool := b != ch '+' && b != ch '-' && !isDigit b

theorem Lead.of_isNeutral {e : Expr} {b : UInt8} (h : isNeutral b = true) : Lead e b := by
  refine ⟨?_, ?_, ?_⟩
  · rintro rfl
    cases h
  · rintro rfl
    cases h
  · intro hb
    rw [isNeutral, hb, Bool.not_true, Bool.and_false] at h
    cases h

theorem Lead.of_plus {e : Expr} (h : e.prefixOp?.any PrefixOp.plus.merges = true) :
    Lead e (ch '+') where
  plus := fun _ => h
  minus := fun hb => absurd hb (by decide)
  digit := fun hb => absurd hb (by decide)

theorem Lead.of_minus {e : Expr} (h : e.prefixOp?.any PrefixOp.neg.merges = true) :
    Lead e (ch '-') where
  plus := fun hb => absurd hb (by decide)
  minus := fun _ => h
  digit := fun hb => absurd hb (by decide)

/-- A suffix leaves the first byte as it is. -/
theorem Lead.behind {e e' : Expr} {b : UInt8} (h : Lead e b) (ht : e.takesSuffix = true)
    (hn : e'.startsWithNumeral = e.startsWithNumeral) : Lead e' b := by
  have hnone : e.prefixOp? = none := by
    cases e <;> first | rfl | cases ht
  have hplus := h.plus
  have hminus := h.minus
  rw [hnone] at hplus hminus
  refine ⟨fun hb => ?_, fun hb => ?_, fun hb => hn.trans (h.digit hb)⟩
  · cases hplus hb
  · cases hminus hb

theorem isNeutral_of_isIdentStart (b : UInt8) : isIdentStart b = true → isNeutral b = true :=
  forall_byte (p := fun b => isIdentStart b = true → isNeutral b = true) (by decide +kernel) b

theorem operandText_prefixed (op : PrefixOp) (e : Expr) (p : Position) :
    operandText (.prefixed op e p) = prefixText op ++ operandText e := by
  rw [operandText_of_not_isBinary rfl, Printer.expr]
  rfl

theorem exists_lead {v : Vocabulary} (e : Expr) (hf : e.Formed v) (hl : e.isLegible = true) :
    ∃ b r, operandText e = b :: r ∧ Lead e b := by
  -- Only suffixes stand behind what is printed first, so the recursion is on their operands.
  cases e with
  | number x p =>
    obtain ⟨s, n, hx⟩ := hf
    obtain ⟨hfinite, hsign⟩ := Scan.Lexeme.isFinite_of_number hx
    have hhead := Numeral.head_text hfinite hsign
    have htext : operandText (.number x p) = Numeral.text x := by
      rw [operandText_of_not_isBinary rfl, Printer.expr]
    cases hcons : Numeral.text x with
    | nil =>
      rw [hcons] at hhead
      cases hhead
    | cons b r =>
      rw [hcons] at hhead
      have hb : isDigit b = true := hhead
      refine ⟨b, r, htext.trans hcons, ?_, ?_, fun _ => rfl⟩
      · rintro rfl
        cases hb
      · rintro rfl
        cases hb
  | char c p => exact ⟨_, _, rfl, .of_isNeutral rfl⟩
  | string s p => exact ⟨_, _, rfl, .of_isNeutral rfl⟩
  | list l p => exact ⟨_, _, rfl, .of_isNeutral rfl⟩
  | name n p =>
    obtain ⟨b, w, rfl⟩ : ∃ b w, n = b :: w := List.exists_cons_of_ne_nil (by rintro rfl; cases hf.1)
    have hb : isIdentStart b = true := (Bool.and_eq_true_iff.1 hf.1).1
    exact ⟨b, w, rfl, .of_isNeutral (isNeutral_of_isIdentStart b hb)⟩
  | prefixed op e p =>
    rw [operandText_prefixed]
    cases op with
    | inc => exact ⟨ch '+', _, rfl, .of_plus rfl⟩
    | plus => exact ⟨ch '+', _, rfl, .of_plus rfl⟩
    | dec => exact ⟨ch '-', _, rfl, .of_minus rfl⟩
    | neg => exact ⟨ch '-', _, rfl, .of_minus rfl⟩
    | _ => exact ⟨_, _, rfl, .of_isNeutral rfl⟩
  | binary op l r p => exact ⟨_, _, rfl, .of_isNeutral rfl⟩
  | cast t e p => exact ⟨_, _, rfl, .of_isNeutral rfl⟩
  | sizeOfType t p => exact ⟨_, _, rfl, .of_isNeutral rfl⟩
  | suffixed op e p =>
    rw [Expr.isLegible, Bool.and_eq_true] at hl
    obtain ⟨b, r, htext, hlead⟩ := exists_lead e hf hl.1
    exact ⟨b, _, by rw [operandText_of_not_isBinary rfl, expr_suffixed, htext, List.cons_append],
      hlead.behind hl.2 rfl⟩
  | index e i p =>
    rw [Expr.isLegible, Bool.and_eq_true, Bool.and_eq_true] at hl
    obtain ⟨b, r, htext, hlead⟩ := exists_lead e hf.1 hl.1.1
    exact ⟨b, _, by rw [operandText_of_not_isBinary rfl, expr_index, htext, List.cons_append],
      hlead.behind hl.1.2 rfl⟩
  | call e l p =>
    rw [Expr.isLegible, Bool.and_eq_true, Bool.and_eq_true] at hl
    obtain ⟨b, r, htext, hlead⟩ := exists_lead e hf.1 hl.1.1
    exact ⟨b, _, by rw [operandText_of_not_isBinary rfl, expr_call, htext, List.cons_append],
      hlead.behind hl.1.2 rfl⟩

end MiniC.Unprinting
