import MiniC.Proofs.Grammar.Unprinting.Reader

/-!
# Reading printed expressions back

`Reads e` says that the reader gives back the expression `e`, without its positions, from its print
in front of whatever may follow. There is one lemma for each kind of expression, from the same of
its parts. What takes suffixes is read from the inside: the reader goes on behind the expression as
it does behind the suffixes, so each suffix is one step. All of this is for limits of the depth that
are large enough (`∀ᶠ n in atTop`).
-/

namespace MiniC.Unprinting

open Filter Grammar

/-! ### Reading an expression -/

/-- The expression is read back from its print: as a whole up to a mark, as an operand up to what is
no suffix, and if it takes suffixes, with whatever the reader does with those behind it. -/
structure Reads (e : Expr) : Prop where
  chain : e.takesSuffix = true → ∀ {k : Bytes} {r : Option (Expr × Bytes)}, Clear e k →
    (∀ᶠ n in atTop, suffixes n e.unplaced k = r) → ∀ᶠ n in atTop, operand n (operandText e ++ k) = r
  asOperand : ∀ {k : Bytes}, Clear e k → Stops k →
    ∀ᶠ n in atTop, operand n (operandText e ++ k) = some (e.unplaced, k)
  asWhole : ∀ {k : Bytes}, AtMark k →
    ∀ᶠ n in atTop, whole n (Printer.expr e ++ k) = some (e.unplaced, k)

theorem Stops.eventually {k : Bytes} (h : Stops k) (e : Expr) :
    ∀ᶠ n in atTop, suffixes n e k = some (e, k) :=
  eventually_of_succ (.of_forall fun n => h n e)

section Assembly

variable {e : Expr}

theorem eventually_whole {k : Bytes} (hb : e.isBinary = false)
    (h : ∀ᶠ n in atTop, operand n (operandText e ++ k) = some (e.unplaced, k)) (hk : AtMark k) :
    ∀ᶠ n in atTop, whole n (Printer.expr e ++ k) = some (e.unplaced, k) := by
  rw [operandText_of_not_isBinary hb] at h
  refine eventually_of_succ ?_
  filter_upwards [h] with n hn
  rw [whole, hn, Option.bind_some, hk.firstOf_sign]

theorem Reads.of_chain (hb : e.isBinary = false)
    (h : ∀ {k : Bytes} {r : Option (Expr × Bytes)}, Clear e k →
      (∀ᶠ n in atTop, suffixes n e.unplaced k = r) →
      ∀ᶠ n in atTop, operand n (operandText e ++ k) = r) : Reads e where
  chain _ := h
  asOperand hk hs := h hk (hs.eventually _)
  asWhole hk := eventually_whole hb (h (hk.clear e) (hk.stops.eventually _)) hk

theorem Reads.of_operand (hb : e.isBinary = false) (ht : e.takesSuffix = false)
    (h : ∀ {k : Bytes}, Clear e k → Stops k →
      ∀ᶠ n in atTop, operand n (operandText e ++ k) = some (e.unplaced, k)) : Reads e where
  chain ht' := absurd (ht.symm.trans ht') (by decide)
  asOperand := h
  asWhole hk := eventually_whole hb (h (hk.clear e) hk.stops) hk

/-- A binary expression is read inside its parentheses. -/
theorem Reads.of_whole (hb : e.isBinary = true)
    (h : ∀ {k : Bytes}, AtMark k →
      ∀ᶠ n in atTop, whole n (Printer.expr e ++ k) = some (e.unplaced, k)) : Reads e := by
  have hchain : ∀ {k : Bytes} {r : Option (Expr × Bytes)},
      (∀ᶠ n in atTop, suffixes n e.unplaced k = r) →
      ∀ᶠ n in atTop, operand n (operandText e ++ k) = r := by
    intro k r hr
    have htext : operandText e ++ k = ch '(' :: (Printer.expr e ++ ch ')' :: k) := by
      rw [operandText_of_isBinary hb]
      simp
    have hbinary : e.unplaced.isBinary = true := by
      cases e <;> first | rfl | cases hb
    rw [htext]
    refine eventually_of_succ ?_
    filter_upwards [h (.parenthesis k), hr] with n hn hs
    rw [operand, firstOf_prefixText_none rfl rfl]
    dsimp only
    rw [List.head?_cons, if_pos rfl, List.tail_cons, hn, closed_cons, Option.filter_some,
      if_pos hbinary]
    exact hs
  exact ⟨fun _ _ _ _ => hchain, fun _ hs => hchain (hs.eventually _), h⟩

end Assembly

/-! ### Operands without operators -/

section Primary

variable {s k : Bytes} {e : Expr} {r : Option (Expr × Bytes)} {P : Option (Expr × Bytes) → Prop}

theorem operand_of_primary (hoperator : firstOf prefixText PrefixOp.all s = none)
    (hparen : s.head? ≠ some (ch '(')) (hp : ∀ᶠ n in atTop, primary n s = some (e, k))
    (hr : ∀ᶠ n in atTop, P (suffixes n e k)) : ∀ᶠ n in atTop, P (operand n s) := by
  refine eventually_of_succ ?_
  filter_upwards [hp, hr] with n hn hs
  rw [operand, hoperator]
  dsimp only
  rw [if_neg hparen, hn, Option.bind_some]
  exact hs

/-- The byte starts neither an operator nor a word nor parentheses. -/
def opensLiteral (b : UInt8) : Bool :=
  !isOperatorByte b && b != ch 's' && b != ch '('

theorem operand_of_literal {b : UInt8} (hb : opensLiteral b = true)
    (hp : ∀ᶠ n in atTop, primary n (b :: s) = some (e, k))
    (hr : ∀ᶠ n in atTop, suffixes n e k = r) : ∀ᶠ n in atTop, operand n (b :: s) = r := by
  simp only [opensLiteral, Bool.and_eq_true, Bool.not_eq_true', bne_iff_ne] at hb
  have hword : (ascii "sizeof ").isPrefixOf (b :: s) = false := isPrefixOf_cons_of_ne _ s hb.1.2
  refine operand_of_primary (P := (· = r)) (firstOf_prefixText_none hb.1.1 hword) ?_ hp hr
  rw [List.head?_cons]
  exact fun h => hb.2 (Option.some.inj h)

end Primary

theorem primary_char (n : ℕ) (s : Bytes) : primary (n + 1) (ch '\'' :: s) =
    (closed (ch '\'') (Quoted.characterNext? s)).map fun p => (.char p.1 .nowhere, p.2) := rfl

theorem primary_string (n : ℕ) (s : Bytes) : primary (n + 1) (ch '"' :: s) =
    (closed (ch '"') (some (Quoted.unquoted s))).map fun p => (.string p.1 .nowhere, p.2) := rfl

theorem primary_list (n : ℕ) (s : Bytes) : primary (n + 1) (0x7b :: s) =
    (items n 0x7d s).map fun p => (.list p.1 .nowhere, p.2) := rfl

theorem primary_sizeOfType (n : ℕ) (s : Bytes) : primary (n + 1) (ascii "sizeof(" ++ s) =
    (closed (ch ')') (typeName n s)).map fun p => (.sizeOfType p.1 .nowhere, p.2) := rfl

theorem opensLiteral_of_isDigit (b : UInt8) : isDigit b = true → opensLiteral b = true :=
  forall_byte (p := fun b => isDigit b = true → opensLiteral b = true) (by decide +kernel) b

theorem primary_number (n : ℕ) {b : UInt8} (s : Bytes) (hb : isDigit b = true) :
    primary (n + 1) (b :: s) =
      some ((Numeral.scan (b :: s)).map (fun q => .number (Numeral.valueOf q) .nowhere) id) := by
  have hne : b ≠ ch 's' := by
    rintro rfl
    cases hb
  have hword : (ascii "sizeof(").isPrefixOf (b :: s) = false := isPrefixOf_cons_of_ne _ s hne
  rw [primary, if_neg (ne_true_of_eq_false hword), List.head?_cons, Option.any_some, if_pos hb]

theorem reads_number {x : Binary64} {p : Position} (hfinite : x.isFinite = true)
    (hsign : x.negative = false) : Reads (.number x p) := by
  refine .of_chain rfl fun {k r} hk hr => ?_
  have hhead := Numeral.head_text hfinite hsign
  have hscan := Numeral.scan_text hfinite hsign hk.edge hk.point
  have htext : operandText (.number x p) = Numeral.text x := rfl
  obtain ⟨b, w, hw⟩ : ∃ b w, Numeral.text x = b :: w :=
    List.exists_cons_of_ne_nil (by intro h; rw [h] at hhead; cases hhead)
  rw [htext]
  rw [hw] at hhead hscan ⊢
  rw [List.cons_append] at hscan ⊢
  refine operand_of_literal (opensLiteral_of_isDigit b hhead)
    (eventually_of_succ (.of_forall fun n => ?_)) hr
  have hvalue := congrArg Prod.fst hscan
  have hrest := congrArg Prod.snd hscan
  rw [primary_number n _ hhead, Option.some_inj]
  exact Prod.ext (congrArg (Expr.number · .nowhere) hvalue) hrest

theorem reads_char (c : UInt8) (p : Position) : Reads (.char c p) := by
  refine .of_chain rfl fun {k r} _ hr => ?_
  have htext : operandText (.char c p) ++ k =
      ch '\'' :: (Quoted.escapedCode (ch '\'') c.toNat ++ ch '\'' :: k) := by
    rw [operandText_of_not_isBinary rfl, Printer.expr, Quoted.code]
    simp
  rw [htext]
  refine operand_of_literal rfl (eventually_of_succ (.of_forall fun n => ?_)) hr
  rw [primary_char, Quoted.characterNext?_escapedCode, closed_cons]
  rfl

theorem reads_string (s : Bytes) (p : Position) : Reads (.string s p) := by
  refine .of_chain rfl fun {k r} _ hr => ?_
  have htext : operandText (.string s p) ++ k =
      ch '"' :: ((Utf8.pieces s).flatMap Quoted.escapedPiece ++ ch '"' :: k) := by
    rw [operandText_of_not_isBinary rfl, Printer.expr, Quoted.text]
    simp
  rw [htext]
  refine operand_of_literal rfl (eventually_of_succ (.of_forall fun n => ?_)) hr
  rw [primary_string, Quoted.unquoted_text, closed_cons]
  rfl

/-- A word is no operator, and `sizeof` only if it is this word. -/
theorem not_isPrefixOf_sizeof {w k : Bytes} {b : UInt8} (hw : isWord w = true)
    (hs : w ≠ ascii "sizeof") (hk : k.head?.any isIdent = false) (hb : isIdent b = false) :
    (ascii "sizeof" ++ [b]).isPrefixOf (w ++ k) = false := by
  rw [← Bool.not_eq_true, List.isPrefixOf_iff_prefix]
  rintro ⟨t, ht⟩
  rw [List.append_assoc] at ht
  have hsizeof := takeWhile_isIdent_append (w := ascii "sizeof") (r := [b] ++ t) (by decide) hb
  rw [ht, takeWhile_isIdent_append hw hk] at hsizeof
  exact hs hsizeof

theorem primary_name (n : ℕ) {w k : Bytes} (hw : isWord w = true) (hs : w ≠ ascii "sizeof")
    (hk : k.head?.any isIdent = false) :
    primary (n + 1) (w ++ k) = some (.name w .nowhere, k) := by
  have hword : (ascii "sizeof(").isPrefixOf (w ++ k) = false :=
    not_isPrefixOf_sizeof (b := ch '(') hw hs hk rfl
  have hstart : (w ++ k).head?.any isIdentStart = true := head_of_isWord hw k
  have hdigit : ¬ (w ++ k).head?.any isDigit = true := by
    intro hd
    cases hcons : w ++ k with
    | nil =>
      rw [hcons] at hd
      cases hd
    | cons b t =>
      rw [hcons] at hd hstart
      exact absurd ((isIdentStart_of_isDigit b hd).symm.trans hstart) (by decide)
  rw [primary, if_neg (ne_true_of_eq_false hword), if_neg hdigit, if_pos hstart,
    takeWhile_isIdent_append hw hk, dropWhile_isIdent_append hw hk]

theorem operand_of_word {w k : Bytes} {P : Option (Expr × Bytes) → Prop} (hw : isWord w = true)
    (hs : w ≠ ascii "sizeof") (hk : k.head?.any isIdent = false)
    (hr : ∀ᶠ n in atTop, P (suffixes n (.name w .nowhere) k)) :
    ∀ᶠ n in atTop, P (operand n (w ++ k)) := by
  have hword := not_isPrefixOf_sizeof (b := ch ' ') hw hs hk rfl
  obtain ⟨b, t, rfl⟩ : ∃ b t, w = b :: t := List.exists_cons_of_ne_nil (by rintro rfl; cases hw)
  have hb : isIdentStart b = true := (Bool.and_eq_true_iff.1 hw).1
  have hoperator : isOperatorByte b = false ∧ b ≠ ch '(' :=
    forall_byte (p := fun b => isIdentStart b = true → isOperatorByte b = false ∧ b ≠ ch '(')
      (by decide +kernel) b hb
  refine operand_of_primary (firstOf_prefixText_none hoperator.1 hword) ?_
    (eventually_of_succ (.of_forall fun n => primary_name n hw hs hk)) hr
  rw [List.cons_append, List.head?_cons]
  exact fun h => hoperator.2 (Option.some.inj h)

theorem reads_name {w : Bytes} {p : Position} (hw : isWord w = true) (hs : w ≠ ascii "sizeof") :
    Reads (.name w p) :=
  .of_chain rfl fun {_ r} hk hr => operand_of_word (P := (· = r)) hw hs hk.edge hr

/-! ### Lists -/

theorem operand_atMark {k : Bytes} (h : AtMark k) (n : ℕ) : operand n k = none := by
  cases n with
  | zero => rfl
  | succ n => cases h <;> cases n <;> rfl

theorem whole_atMark {k : Bytes} (h : AtMark k) (n : ℕ) : whole n k = none := by
  cases n with
  | zero => rfl
  | succ n => rw [whole, operand_atMark h, Option.bind_none]

/-- No expression starts with a mark. -/
theorem Reads.not_atMark {e : Expr} (h : Reads e) {k : Bytes} (hk : AtMark k) :
    ¬ AtMark (Printer.expr e ++ k) := by
  intro hmark
  obtain ⟨n, hn⟩ := (h.asWhole hk).exists
  rw [whole_atMark hmark] at hn
  cases hn

theorem Reads.head_ne {e : Expr} (h : Reads e) {k : Bytes} (hk : AtMark k) {mark : UInt8}
    (hmark : ∀ r, AtMark (mark :: r)) : (Printer.expr e ++ k).head? ≠ some mark := by
  intro hhead
  obtain ⟨r, hr⟩ := List.head?_eq_some_iff.1 hhead
  exact h.not_atMark hk (hr ▸ hmark r)

theorem eventually_items {mark : UInt8} (hmark : ∀ r, AtMark (mark :: r)) (hcomma : mark ≠ ch ',')
    (k : Bytes) (l : List Expr) (hl : ∀ e ∈ l, Reads e) :
    ∀ᶠ n in atTop, items n mark (argumentsText l ++ mark :: k) =
      some (l.map Expr.unplaced, k) := by
  induction l with
  | nil =>
    refine eventually_of_succ (.of_forall fun n => ?_)
    rw [items]
    exact if_pos rfl
  | cons a l ih =>
    obtain ⟨ha, hl⟩ := List.forall_mem_cons.1 hl
    have ih := ih hl
    cases l with
    | nil =>
      have htext : argumentsText [a] = Printer.expr a := by
        rw [argumentsText, Printer.exprs, Printer.exprs, Bytes.join, List.intercalate_singleton]
      have hseparator : (ascii ", ").isPrefixOf (mark :: k) = false :=
        isPrefixOf_cons_of_ne _ k hcomma
      rw [htext]
      refine eventually_of_succ ?_
      filter_upwards [ha.asWhole (hmark k)] with n hn
      rw [items, if_neg (ha.head_ne (hmark k) hmark), hn, Option.bind_some,
        if_neg (ne_true_of_eq_false hseparator), closed_cons]
      rfl
    | cons b l =>
      have htext : argumentsText (a :: b :: l) ++ mark :: k =
          Printer.expr a ++ ch ',' :: (ch ' ' :: argumentsText (b :: l) ++ mark :: k) := by
        rw [argumentsText_cons_cons]
        simp
      rw [htext]
      refine eventually_of_succ ?_
      filter_upwards [ha.asWhole (.comma _), ih] with n hn hrest
      rw [items, if_neg (ha.head_ne (.comma _) hmark), hn, Option.bind_some]
      refine (if_pos rfl).trans ?_
      show (items n mark (argumentsText (b :: l) ++ mark :: k)).map _ = _
      rw [hrest]
      rfl

/-! ### Suffixes -/

section Suffixes

variable {e : Expr} (he : Reads e) (ht : e.takesSuffix = true)

include he ht

theorem reads_suffixed (op : SuffixOp) (p : Position) : Reads (.suffixed op e p) := by
  refine .of_chain rfl fun {k r} _ hr => ?_
  rw [operandText_of_not_isBinary rfl, expr_suffixed, List.append_assoc]
  refine he.chain ht ?_ (eventually_of_succ ?_)
  · cases op <;> exact ⟨rfl, fun _ => rfl⟩
  · filter_upwards [hr] with n hs
    cases op <;> exact hs

theorem reads_index {i : Expr} (hi : Reads i) (p : Position) : Reads (.index e i p) := by
  refine .of_chain rfl fun {k r} _ hr => ?_
  have htext : operandText (.index e i p) ++ k =
      operandText e ++ ch '[' :: (Printer.expr i ++ ch ']' :: k) := by
    rw [operandText_of_not_isBinary rfl, expr_index]
    simp
  rw [htext]
  refine he.chain ht ⟨rfl, fun _ => rfl⟩ (eventually_of_succ ?_)
  filter_upwards [hi.asWhole (.bracket k), hr] with n hn hs
  rw [suffixes, List.head?_cons, if_pos rfl, List.tail_cons, hn, closed_cons, Option.bind_some]
  exact hs

theorem reads_call {l : List Expr} (hl : ∀ a ∈ l, Reads a) (p : Position) :
    Reads (.call e l p) := by
  refine .of_chain rfl fun {k r} _ hr => ?_
  have htext : operandText (.call e l p) ++ k =
      operandText e ++ ch '(' :: (argumentsText l ++ ch ')' :: k) := by
    rw [operandText_of_not_isBinary rfl, expr_call]
    simp
  rw [Expr.unplaced_call] at hr
  rw [htext]
  refine he.chain ht ⟨rfl, fun _ => rfl⟩ (eventually_of_succ ?_)
  filter_upwards [eventually_items .parenthesis (by decide) k l hl, hr] with n hn hs
  rw [suffixes, List.head?_cons, if_neg (by decide), if_pos rfl, List.tail_cons, hn,
    Option.bind_some]
  exact hs

end Suffixes

theorem reads_list {l : List Expr} (hl : ∀ a ∈ l, Reads a) (p : Position) :
    Reads (.list l p) := by
  refine .of_chain rfl fun {k r} _ hr => ?_
  have htext : operandText (.list l p) ++ k = 0x7b :: (argumentsText l ++ 0x7d :: k) := by
    rw [operandText_of_not_isBinary rfl, Printer.expr, argumentsText]
    simp
  rw [Expr.unplaced_list] at hr
  rw [htext]
  refine operand_of_literal rfl (eventually_of_succ ?_) hr
  filter_upwards [eventually_items .brace (by decide) k l hl] with n hn
  rw [primary_list, hn]
  rfl

/-! ### Operators -/

section Operators

variable {e : Expr} (he : Reads e)

include he

theorem reads_prefixed {op : PrefixOp} (hlead : ∃ b r, operandText e = b :: r ∧ Lead e b)
    (hop : e.prefixOp?.any op.merges = false) (p : Position) : Reads (.prefixed op e p) := by
  refine .of_operand rfl rfl fun {k} hk hs => ?_
  obtain ⟨b, r, htext, hb⟩ := hlead
  have hhead : (operandText e ++ k).head? = some b := by rw [htext]; rfl
  rw [operandText_prefixed, List.append_assoc]
  refine eventually_of_succ ?_
  filter_upwards [he.asOperand ⟨hk.edge, hk.point⟩ hs] with n hn
  rw [operand, firstOf_prefixText]
  · dsimp only
    rw [hn]
    rfl
  · rintro rfl hplus
    rw [hhead, Option.some_inj] at hplus
    rw [hb.plus hplus] at hop
    cases hop
  · rintro rfl hminus
    rw [hhead, Option.some_inj] at hminus
    rw [hb.minus hminus] at hop
    cases hop

theorem reads_binary {op : BinaryOp} {r : Expr} (hr : Reads r)
    (hlead : ∃ b t, operandText r = b :: t ∧ Lead r b)
    (hop : (op = .member && e.endsInDigits && r.startsWithNumeral) = false) (p : Position) :
    Reads (.binary op e r p) := by
  refine .of_whole rfl fun {k} hk => ?_
  obtain ⟨b, t, hb, hlead⟩ := hlead
  have htext : Printer.expr (.binary op e r p) ++ k =
      operandText e ++ (sign op ++ (operandText r ++ k)) := by
    rw [expr_binary, linksText, linksText]
    simp
  have hclear : Clear e (sign op ++ (operandText r ++ k)) := by
    refine ⟨by cases op <;> rfl, fun hdigits => ?_⟩
    cases op with
    | member =>
      have hnumeral : r.startsWithNumeral = false := by simpa [hdigits] using hop
      rw [hb]
      show isDigit b = false
      rw [← Bool.not_eq_true]
      intro hdigit
      rw [hlead.digit hdigit] at hnumeral
      cases hnumeral
    | _ => rfl
  rw [htext]
  refine eventually_of_succ ?_
  filter_upwards [he.asOperand hclear (stops_sign op _), hr.asOperand (hk.clear r) hk.stops]
    with n h₁ h₂
  rw [whole, h₁, Option.bind_some, firstOf_sign]
  dsimp only
  rw [h₂]
  rfl

end Operators

end MiniC.Unprinting
