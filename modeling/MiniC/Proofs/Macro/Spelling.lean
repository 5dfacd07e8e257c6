import Mathlib.Data.List.TakeWhile
import MiniC.Macro.Token
import MiniC.Proofs.Grammar.Reading
import MiniC.Proofs.Text.Gather

/-!
# The spelling of tokens

`Spelling kind w` says which texts are tokens of a kind, without the functions that cut them off:
a number is a `NumberBody` with a digit in front, a literal a `QuotedBody` behind its quote, and so
on.

* `lexeme_spelled`: what is cut off a text is spelled so, and no letter or digit follows a word or a
  number;
* `lexeme_front`: a token in front of any text is cut off as it is, unless it `runsOn` into the
  text, and `lexeme_runsOn`: then it is not;
* `ofLine_of_cuts`, `cuts_of_ofLine`: the tokens of a line are the pieces it is cut into (`Cuts`).
-/

namespace MiniC.Macro

open Token

/-! ### Classes of bytes -/

theorem isInNumber_of_isExponentMark : ∀ b : UInt8, isExponentMark b = true → isInNumber b = true :=
  forall_byte (by decide +kernel)

theorem not_isSign_of_isInNumber : ∀ b : UInt8, isInNumber b = true → isSign b = false :=
  forall_byte (by decide +kernel)

theorem not_isExponentMark_of_isSign : ∀ b : UInt8, isSign b = true → isExponentMark b = false :=
  forall_byte (by decide +kernel)

theorem isInNumber_of_isIdent {b : UInt8} (h : isIdent b = true) : isInNumber b = true := by
  rw [isInNumber, h, Bool.true_or]

/-! ### Numbers -/

/-- Letters, digits, underscores and points, and a sign directly after an exponent mark. -/
inductive NumberBody : Bytes → Prop
  | nil : NumberBody []
  | cons {b : UInt8} {w : Bytes} : isInNumber b = true → NumberBody w → NumberBody (b :: w)
  | exponent {b c : UInt8} {w : Bytes} : isExponentMark b = true → isSign c = true →
      NumberBody w → NumberBody (b :: c :: w)

theorem numberBody_of_isIdent : ∀ {w : Bytes}, (∀ b ∈ w, isIdent b = true) → NumberBody w
  | [], _ => .nil
  | b :: _, h => .cons (isInNumber_of_isIdent (h b List.mem_cons_self))
      (numberBody_of_isIdent fun c hc => h c (List.mem_cons_of_mem b hc))

theorem NumberBody.head {b : UInt8} {w : Bytes} (h : NumberBody (b :: w)) :
    isInNumber b = true := by
  cases h with
  | cons hb _ => exact hb
  | exponent hb _ _ => exact isInNumber_of_isExponentMark b hb

/-- Whether a number starts is seen from the number alone. -/
theorem startsNumber_of_append {w r : Bytes} (h : startsNumber (w ++ r) = true)
    (hr : r.head?.any isInNumber = false) : startsNumber w = true := by
  have hdigit : r.head?.any isDigit = false :=
    not_head_any_mono hr fun b hb => isInNumber_of_isIdent (isIdent_of_isDigit hb)
  match w with
  | [] =>
    cases r with
    | nil => exact h
    | cons b r =>
      simp only [List.head?_cons, Option.any_some, isInNumber, Bool.or_eq_false_iff] at hr hdigit
      simp [startsNumber, hdigit, hr.2] at h
  | [b] =>
    rw [List.singleton_append, startsNumber, hdigit, Bool.and_false, Bool.or_false] at h
    rw [startsNumber, h, Bool.true_or]
  | b :: c :: w => exact h

theorem startsNumber_append {w : Bytes} (h : startsNumber w = true) (r : Bytes) :
    startsNumber (w ++ r) = true := by
  match w with
  | [b] =>
    rw [startsNumber, List.head?_nil, Option.any_none, Bool.and_false, Bool.or_false] at h
    rw [List.singleton_append, startsNumber, h, Bool.true_or]
  | b :: c :: w => exact h

theorem not_startsNumber {b : UInt8} (hd : isDigit b = false) (hp : b ≠ ch '.') (s : Bytes) :
    startsNumber (b :: s) = false := by
  rw [startsNumber, hd, Bool.false_or, beq_false_of_ne hp, Bool.false_and]

theorem numberLength_stop {r : Bytes} (h : r.head?.any isInNumber = false) (taken : Nat) :
    numberLength taken r = taken := by
  match r with
  | [] => rfl
  | [b] =>
    rw [List.head?_cons, Option.any_some] at h
    simp [numberLength, h]
  | b :: c :: r =>
    rw [List.head?_cons, Option.any_some] at h
    simp [numberLength, h]

/-- The number at the front of a text is the longest number body there. -/
theorem exists_numberBody (taken : Nat) (s : Bytes) : ∃ w r, s = w ++ r ∧ NumberBody w ∧
    numberLength taken s = taken + w.length ∧ r.head?.any isInNumber = false := by
  fun_induction numberLength taken s with
  | case1 taken => exact ⟨[], [], rfl, .nil, rfl, rfl⟩
  | case2 taken b hb => exact ⟨[b], [], rfl, .cons hb .nil, rfl, rfl⟩
  | case3 taken b hb => exact ⟨[], [b], rfl, .nil, rfl, by simpa using hb⟩
  | case4 taken b c after hb => exact ⟨[], b :: c :: after, rfl, .nil, rfl, by simpa using hb⟩
  | case5 taken b c after hb hexp ih =>
    obtain ⟨w, r, rfl, hw, hlen, hr⟩ := ih
    rw [Bool.and_eq_true] at hexp
    refine ⟨b :: c :: w, r, rfl, .exponent hexp.1 hexp.2 hw, ?_, hr⟩
    rw [hlen, List.length_cons, List.length_cons]
    omega
  | case6 taken b c after hb hexp ih =>
    obtain ⟨w, r, hs, hw, hlen, hr⟩ := ih
    refine ⟨b :: w, r, by rw [hs]; rfl, .cons (by simpa using hb) hw, ?_, hr⟩
    rw [hlen, List.length_cons]
    omega

/-- A number body is passed, and with it a sign behind an exponent mark at its end. -/
theorem NumberBody.numberLength_append {w : Bytes} (h : NumberBody w) (r : Bytes) :
    ∀ taken, numberLength taken (w ++ r) =
      if w.getLast?.any isExponentMark && r.head?.any isSign then
        numberLength (taken + w.length + 1) r.tail
      else numberLength (taken + w.length) r := by
  induction h with
  | nil => exact fun taken => rfl
  | @cons b w hb hw ih =>
    intro taken
    cases w with
    | nil =>
      cases r with
      | nil => simp [numberLength, hb]
      | cons c r => simp [numberLength, hb]
    | cons c w =>
      have hc := not_isSign_of_isInNumber c hw.head
      have hstep : numberLength taken (b :: c :: w ++ r) =
          numberLength (taken + 1) (c :: w ++ r) := by
        simp [numberLength, hb, hc]
      rw [hstep, ih (taken + 1), List.getLast?_cons_cons]
      simp only [List.length_cons]
      congr 2 <;> omega
  | @exponent b c w hb hc hw ih =>
    intro taken
    have hstep : numberLength taken (b :: c :: w ++ r) = numberLength (taken + 2) (w ++ r) := by
      simp [numberLength, isInNumber_of_isExponentMark b hb, hb, hc]
    have hlast : (b :: c :: w).getLast?.any isExponentMark = w.getLast?.any isExponentMark := by
      cases w with
      | nil => simpa using not_isExponentMark_of_isSign c hc
      | cons d w => rw [List.getLast?_cons_cons, List.getLast?_cons_cons]
    rw [hstep, ih (taken + 2), hlast]
    simp only [List.length_cons]
    congr 2 <;> omega

/-! ### Literals -/

/-- What stands behind the opening quote of a literal, the closing quote included; a backslash hides
the byte after it. -/
inductive QuotedBody (quote : UInt8) : Bytes → Prop
  | close : QuotedBody quote [quote]
  | escape {c : UInt8} {w : Bytes} : QuotedBody quote w → QuotedBody quote (ch '\\' :: c :: w)
  | cons {b : UInt8} {w : Bytes} : b ≠ ch '\\' → b ≠ quote → QuotedBody quote w →
      QuotedBody quote (b :: w)

theorem exists_quotedBody {quote : UInt8} {taken : Nat} {s : Bytes} {n : Nat}
    (h : Quoted.closedLength? quote taken s = some n) :
    ∃ w r, s = w ++ r ∧ QuotedBody quote w ∧ n = taken + w.length := by
  fun_induction Quoted.closedLength? quote taken s with
  | case1 => cases h
  | case2 taken =>
    cases h
    exact ⟨[quote], [], rfl, .close, rfl⟩
  | case3 => cases h
  | case4 taken c after ih =>
    obtain ⟨w, r, rfl, hw, rfl⟩ := ih h
    refine ⟨ch '\\' :: c :: w, r, rfl, .escape hw, ?_⟩
    rw [List.length_cons, List.length_cons]
    omega
  | case5 taken c after hb =>
    cases h
    exact ⟨[quote], c :: after, rfl, .close, rfl⟩
  | case6 taken b c after hb hq ih =>
    obtain ⟨w, r, hs, hw, rfl⟩ := ih h
    refine ⟨b :: w, r, by rw [hs]; rfl, .cons hb hq hw, ?_⟩
    rw [List.length_cons]
    omega

theorem QuotedBody.closedLength?_append {quote : UInt8} (hq : quote ≠ ch '\\') {w : Bytes}
    (h : QuotedBody quote w) (r : Bytes) : ∀ taken,
    Quoted.closedLength? quote taken (w ++ r) = some (taken + w.length) := by
  induction h with
  | close =>
    intro taken
    cases r with
    | nil => simp [Quoted.closedLength?]
    | cons c r => simp [Quoted.closedLength?, hq]
  | @escape c w _ ih =>
    intro taken
    simp only [List.cons_append, Quoted.closedLength?, if_true, ih, List.length_cons]
    congr 1
    omega
  | @cons b w hb hbq hw ih =>
    intro taken
    cases w with
    | nil => cases hw
    | cons c w =>
      have hstep : Quoted.closedLength? quote taken (b :: c :: w ++ r) =
          Quoted.closedLength? quote (taken + 1) (c :: w ++ r) := by
        simp [Quoted.closedLength?, hb, hbq]
      rw [hstep, ih (taken + 1)]
      simp only [List.length_cons]
      congr 1
      omega

theorem exists_of_literal {kind k : TokenKind} {quote : UInt8} {s : Bytes} {n : Nat}
    (h : literal kind quote (quote :: s) = .ok (k, n)) :
    k = kind ∧ ∃ w r, s = w ++ r ∧ n = w.length + 1 ∧ QuotedBody quote w := by
  unfold literal at h
  split at h
  · next m hm =>
    cases h
    obtain ⟨w, r, hs, hw, hn⟩ := exists_quotedBody hm
    exact ⟨rfl, w, r, hs, by omega, hw⟩
  · cases h

theorem QuotedBody.literal_append {quote : UInt8} (hq : quote ≠ ch '\\') {w : Bytes}
    (h : QuotedBody quote w) (kind : TokenKind) (r : Bytes) :
    literal kind quote (quote :: w ++ r) = .ok (kind, w.length + 1) := by
  rw [literal, List.cons_append, List.tail_cons, h.closedLength?_append hq, Nat.add_comm]

/-! ### Punctuators -/

/-- The byte is a punctuator. -/
def isMark (b : UInt8) : Bool := punctuators.contains [b]

theorem class_of_mem : ∀ w ∈ punctuators, ∀ b ∈ w,
    isSpace b = false ∧ isIdent b = false ∧ b ≠ ch '"' ∧ b ≠ ch '\'' := by decide +kernel

theorem class_of_isMark (b : UInt8) (h : isMark b = true) :
    isSpace b = false ∧ isIdent b = false ∧ b ≠ ch '"' ∧ b ≠ ch '\'' :=
  class_of_mem [b] (List.contains_iff_mem.1 h) b List.mem_cons_self

theorem isMark_of_mem : ∀ w ∈ punctuators, ∀ b ∈ w, isMark b = true := by decide +kernel

theorem punctuator_ne_nil : ∀ w ∈ punctuators, w ≠ [] := by decide +kernel

/-- The point stands alone. -/
theorem eq_point_of_mem : ∀ w ∈ punctuators, ch '.' ∈ w → w = [ch '.'] := by decide +kernel

theorem length_punctuator : ∀ w ∈ punctuators, w.length ∈ [3, 2, 1] := by decide +kernel

/-- What a punctuator starts with is a punctuator. -/
theorem take_mem_punctuators : ∀ w ∈ punctuators, ∀ n < 3, w.take (n + 1) ∈ punctuators := by
  decide +kernel

theorem exists_of_punctuatorLength? {s : Bytes} {n : Nat} (h : punctuatorLength? s = some n) :
    ∃ w r, s = w ++ r ∧ n = w.length ∧ w ∈ punctuators := by
  have hn := List.find?_some h
  rw [Bool.and_eq_true, beq_iff_eq, List.contains_iff_mem] at hn
  exact ⟨s.take n, s.drop n, (List.take_append_drop n s).symm, hn.1.symm, hn.2⟩

/-- The longest punctuator is cut off. -/
theorem exists_punctuatorLength? {w : Bytes} (hw : w ∈ punctuators) (r : Bytes) :
    ∃ n, punctuatorLength? (w ++ r) = some n ∧ w.length ≤ n := by
  have hfits : (((w ++ r).take w.length).length == w.length &&
      punctuators.contains ((w ++ r).take w.length)) = true := by
    rw [List.take_left, Bool.and_eq_true, beq_iff_eq, List.contains_iff_mem]
    exact ⟨rfl, hw⟩
  have hlength := length_punctuator w hw
  unfold punctuatorLength?
  generalize hp : (fun n => ((w ++ r).take n).length == n &&
    punctuators.contains ((w ++ r).take n)) = p
  have hpw : p w.length = true := by rw [← hp]; exact hfits
  simp only [List.mem_cons, List.not_mem_nil, or_false] at hlength
  rcases hlength with h | h | h <;> rw [h] at hpw ⊢
  · exact ⟨3, by simp [hpw], Nat.le_refl 3⟩
  · cases h3 : p 3 with
    | true => exact ⟨3, by simp [h3], by omega⟩
    | false => exact ⟨2, by simp [h3, hpw], Nat.le_refl 2⟩
  · cases h3 : p 3 with
    | true => exact ⟨3, by simp [h3], by omega⟩
    | false =>
      cases h2 : p 2 with
      | true => exact ⟨2, by simp [h3, h2], by omega⟩
      | false => exact ⟨1, by simp [h3, h2, hpw], Nat.le_refl 1⟩

/-- A punctuator is cut off as it is if the byte behind it makes no longer one. -/
theorem punctuatorLength?_append {w r : Bytes} (hw : w ∈ punctuators)
    (hr : r.head?.any (fun b => punctuators.contains (w ++ [b])) = false) :
    punctuatorLength? (w ++ r) = some w.length := by
  obtain ⟨n, hn, hle⟩ := exists_punctuatorLength? hw r
  obtain ⟨u, r', hs, rfl, hu⟩ := exists_of_punctuatorLength? hn
  rcases Nat.eq_or_lt_of_le hle with heq | hlt
  · rw [hn, heq]
  -- a longer punctuator starts with the shorter one and the byte behind it
  · exfalso
    obtain ⟨v, rfl⟩ : w <+: u := List.prefix_of_prefix_length_le ⟨r, rfl⟩ ⟨r', hs.symm⟩ hle
    rw [List.append_assoc, List.append_cancel_left_eq] at hs
    subst hs
    cases v with
    | nil => simp at hlt
    | cons b v =>
      have hlength : w.length < 3 := by
        have h3 := length_punctuator _ hu
        simp only [List.length_append, List.length_cons, List.mem_cons, List.not_mem_nil,
          or_false] at h3
        omega
      have hmem := take_mem_punctuators _ hu w.length hlength
      rw [List.take_append, List.take_of_length_le (Nat.le_succ _)] at hmem
      simp at hr hmem
      exact hr hmem

/-! ### Tokens -/

/-- The texts that are tokens of a kind. -/
inductive Spelling : TokenKind → Bytes → Prop
  | whitespace {w : Bytes} : w ≠ [] → (∀ b ∈ w, isSpace b = true) → Spelling .whitespace w
  | identifier {w : Bytes} : isWord w = true → Spelling .identifier w
  | number {w : Bytes} : startsNumber w = true → NumberBody w → Spelling .number w
  | string {w : Bytes} : QuotedBody (ch '"') w → Spelling .string (ch '"' :: w)
  | charConst {w : Bytes} : QuotedBody (ch '\'') w → Spelling .charConst (ch '\'' :: w)
  | punctuator {w : Bytes} : w ∈ punctuators → Spelling .punctuator w

/-- Words and numbers take in all letters and digits that follow. -/
def TokenKind.isWordy : TokenKind → Bool
  | .identifier | .number => true
  | _ => false

theorem Spelling.ne_nil {kind : TokenKind} {w : Bytes} (h : Spelling kind w) : w ≠ [] := by
  cases h with
  | whitespace hw _ => exact hw
  | identifier hw =>
    rintro rfl
    cases hw
  | number hw _ =>
    rintro rfl
    cases hw
  | string _ => exact List.cons_ne_nil _ _
  | charConst _ => exact List.cons_ne_nil _ _
  | punctuator hw => exact punctuator_ne_nil _ hw

/-- **What is cut off is spelled as its kind says,** and no letter or digit follows a word or a
number. -/
theorem lexeme_spelled {b : UInt8} {s : Bytes} {kind : TokenKind} {n : Nat}
    (h : lexeme b (b :: s) = .ok (kind, n)) : ∃ w r, b :: s = w ++ r ∧ n = w.length ∧
      Spelling kind w ∧ (kind.isWordy = true → r.head?.any isIdent = false) := by
  unfold lexeme at h
  split at h
  · next hb =>
    cases h
    refine ⟨_, (b :: s).dropWhile isSpace, List.takeWhile_append_dropWhile.symm, rfl,
      .whitespace ?_ fun c hc => List.mem_takeWhile_imp hc, fun hk => by cases hk⟩
    rw [List.takeWhile_cons_of_pos hb]
    exact List.cons_ne_nil _ _
  split at h
  · next hb =>
    cases h
    refine ⟨_, (b :: s).dropWhile isIdent, List.takeWhile_append_dropWhile.symm, rfl,
      .identifier ?_, fun _ => head_dropWhile _⟩
    rw [List.takeWhile_cons_of_pos (isIdent_of_isIdentStart hb), isWord, hb, Bool.true_and]
    exact List.all_takeWhile
  split at h
  · next hstart =>
    cases h
    obtain ⟨w, r, hs, hw, hlen, hr⟩ := exists_numberBody 0 (b :: s)
    refine ⟨w, r, hs, by omega, .number ?_ hw, fun _ => ?_⟩
    · exact startsNumber_of_append (hs ▸ hstart) hr
    · exact not_head_any_mono hr fun _ => isInNumber_of_isIdent
  split at h
  · next hb =>
    subst hb
    obtain ⟨rfl, w, r, rfl, rfl, hw⟩ := exists_of_literal h
    exact ⟨ch '"' :: w, r, rfl, rfl, .string hw, fun hk => by cases hk⟩
  split at h
  · next hb =>
    subst hb
    obtain ⟨rfl, w, r, rfl, rfl, hw⟩ := exists_of_literal h
    exact ⟨ch '\'' :: w, r, rfl, rfl, .charConst hw, fun hk => by cases hk⟩
  split at h
  · next m hm =>
    cases h
    obtain ⟨w, r, hs, hn, hw⟩ := exists_of_punctuatorLength? hm
    exact ⟨w, r, hs, hn, .punctuator hw, fun hk => by cases hk⟩
  · cases h

/-! ### A token in front of a text -/

/-- The token goes on in the text that follows: a point or the sign of an exponent behind a number,
a digit behind a point, or a byte that makes a longer punctuator. -/
def runsOn (kind : TokenKind) (w r : Bytes) : Bool :=
  match kind with
  | .number =>
    r.head? == some (ch '.') || (w.getLast?.any isExponentMark && r.head?.any isSign)
  | .punctuator =>
    (w == [ch '.'] && r.head?.any isDigit) || r.head?.any fun b => punctuators.contains (w ++ [b])
  | _ => false

theorem lt_numberLength {r : Bytes} (h : r.head?.any isInNumber = true) (taken : Nat) :
    taken < numberLength taken r := by
  obtain ⟨w, r', rfl, -, hlen, hr⟩ := exists_numberBody taken r
  cases w with
  | nil => rw [List.nil_append, hr] at h; cases h
  | cons b w => rw [hlen, List.length_cons]; omega

theorem le_numberLength (taken : Nat) (s : Bytes) : taken ≤ numberLength taken s := by
  obtain ⟨w, r, -, -, hlen, -⟩ := exists_numberBody taken s
  omega

section Front
variable {b : UInt8} {w r : Bytes}

theorem lexeme_word (hw : isWord (b :: w) = true) (hr : r.head?.any isIdent = false) :
    lexeme b (b :: w ++ r) = .ok (.identifier, w.length + 1) := by
  have htake := takeWhile_isIdent_append hw hr
  rw [isWord, Bool.and_eq_true] at hw
  have hspace := not_isSpace_of_isIdent (isIdent_of_isIdentStart hw.1)
  rw [lexeme, hspace, if_neg (by simp), if_pos hw.1, htake]
  rfl

theorem class_of_startsNumber {s : Bytes} (h : startsNumber (b :: s) = true) :
    isSpace b = false ∧ isIdentStart b = false ∧ isInNumber b = true := by
  have hclass : ∀ c : UInt8, isDigit c = true ∨ c = ch '.' →
      isSpace c = false ∧ isIdentStart c = false ∧ isInNumber c = true :=
    forall_byte (by decide +kernel)
  rw [startsNumber, Bool.or_eq_true, Bool.and_eq_true, beq_iff_eq] at h
  exact hclass b (h.imp_right And.left)

/-- A text that starts as a number does is cut as one. -/
theorem lexeme_startsNumber {s : Bytes} (h : startsNumber (b :: s) = true) :
    lexeme b (b :: s) = .ok (.number, numberLength 0 (b :: s)) := by
  obtain ⟨hspace, hident, -⟩ := class_of_startsNumber h
  rw [lexeme, hspace, hident, h]
  rfl

theorem lexeme_literal_string (h : QuotedBody (ch '"') w) :
    lexeme (ch '"') (ch '"' :: w ++ r) = .ok (.string, w.length + 1) := by
  rw [lexeme, if_neg (by decide), if_neg (by decide), List.cons_append,
    not_startsNumber (by decide) (by decide), if_neg (by simp), if_pos rfl, ← List.cons_append,
    h.literal_append (by decide)]

theorem lexeme_literal_charConst (h : QuotedBody (ch '\'') w) :
    lexeme (ch '\'') (ch '\'' :: w ++ r) = .ok (.charConst, w.length + 1) := by
  rw [lexeme, if_neg (by decide), if_neg (by decide), List.cons_append,
    not_startsNumber (by decide) (by decide), if_neg (by simp), if_neg (by decide), if_pos rfl,
    ← List.cons_append, h.literal_append (by decide)]

/-- A text that starts with a mark but not as a number does is cut as a punctuator. -/
theorem lexeme_mark {s : Bytes} {n : Nat} (hb : isMark b = true)
    (hs : startsNumber (b :: s) = false) (hn : punctuatorLength? (b :: s) = some n) :
    lexeme b (b :: s) = .ok (.punctuator, n) := by
  obtain ⟨hspace, hident, hquote, hapostrophe⟩ := class_of_isMark b hb
  rw [isIdent, Bool.or_eq_false_iff] at hident
  rw [lexeme, hspace, hident.1, hs, if_neg (by simp), if_neg (by simp), if_neg (by simp),
    if_neg hquote, if_neg hapostrophe, hn]

end Front

/-- Behind a punctuator a number starts only where a digit follows a point. -/
theorem startsNumber_punctuator {w r : Bytes} (hw : w ∈ punctuators) :
    startsNumber (w ++ r) = (w == [ch '.'] && r.head?.any isDigit) := by
  cases w with
  | nil => exact absurd rfl (punctuator_ne_nil _ hw)
  | cons b w =>
    have hb := (class_of_isMark b (isMark_of_mem _ hw b List.mem_cons_self)).2.1
    rw [isIdent, Bool.or_eq_false_iff] at hb
    by_cases hpoint : b = ch '.'
    · subst hpoint
      have hnil := eq_point_of_mem _ hw List.mem_cons_self
      rw [hnil]
      simp [startsNumber, hb.2]
    · have hne : (b :: w == [ch '.']) = false := beq_false_of_ne fun h => hpoint (List.cons.inj h).1
      rw [List.cons_append, not_startsNumber hb.2 hpoint, hne, Bool.false_and]

/-- **A token that does not run on is cut off as it is.** -/
theorem lexeme_front {kind : TokenKind} {b : UInt8} {w r : Bytes} (h : Spelling kind (b :: w))
    (hk : kind ≠ .whitespace) (hw : kind.isWordy = true → r.head?.any isIdent = false)
    (hr : runsOn kind (b :: w) r = false) :
    lexeme b (b :: w ++ r) = .ok (kind, w.length + 1) := by
  cases h with
  | whitespace _ _ => exact absurd rfl hk
  | identifier hword => exact lexeme_word hword (hw rfl)
  | number hstart hbody =>
    simp only [runsOn, Bool.or_eq_false_iff] at hr
    have hstop : r.head?.any isInNumber = false := by
      cases r with
      | nil => rfl
      | cons c r =>
        rw [List.head?_cons, Option.any_some, isInNumber, Bool.or_eq_false_iff]
        exact ⟨hw rfl, by simpa using hr.1⟩
    have hlength : numberLength 0 (b :: w ++ r) = w.length + 1 := by
      rw [hbody.numberLength_append, hr.2, if_neg (by simp), numberLength_stop hstop, Nat.zero_add,
        List.length_cons]
    rw [← hlength]
    exact lexeme_startsNumber (startsNumber_append hstart r)
  | string hbody => exact lexeme_literal_string hbody
  | charConst hbody => exact lexeme_literal_charConst hbody
  | punctuator hmem =>
    rw [runsOn, Bool.or_eq_false_iff] at hr
    have hstart : startsNumber (b :: w ++ r) = false := by rw [startsNumber_punctuator hmem, hr.1]
    exact lexeme_mark (isMark_of_mem _ hmem b List.mem_cons_self) hstart
      (punctuatorLength?_append hmem hr.2)

/-- **A token that runs on is cut off longer than it is.** -/
theorem lexeme_runsOn {kind k : TokenKind} {b : UInt8} {w r : Bytes} {n : Nat}
    (h : Spelling kind (b :: w)) (hr : runsOn kind (b :: w) r = true)
    (hl : lexeme b (b :: w ++ r) = .ok (k, n)) : w.length + 1 < n := by
  cases h with
  | whitespace _ _ => cases hr
  | identifier _ => cases hr
  | number hstart hbody =>
    have hn : n = numberLength 0 (b :: w ++ r) := by
      cases hl.symm.trans (lexeme_startsNumber (startsNumber_append hstart r))
      rfl
    rw [hn, hbody.numberLength_append, List.length_cons, Nat.zero_add]
    split
    · exact le_numberLength _ _
    · next hsign =>
      rw [runsOn, Bool.or_eq_true, or_iff_left hsign, beq_iff_eq] at hr
      refine lt_numberLength ?_ _
      rw [hr]
      rfl
  | string _ => cases hr
  | charConst _ => cases hr
  | punctuator hmem =>
    rw [runsOn, Bool.or_eq_true] at hr
    by_cases hstart : startsNumber (b :: w ++ r) = true
    · have hn : n = numberLength 0 (b :: w ++ r) := by
        cases hl.symm.trans (lexeme_startsNumber hstart)
        rfl
      rw [startsNumber_punctuator hmem, Bool.and_eq_true, beq_iff_eq] at hstart
      obtain ⟨hpoint, hdigit⟩ := hstart
      cases hpoint
      have hbody : NumberBody [ch '.'] := .cons (by decide) .nil
      rw [hn, hbody.numberLength_append]
      exact lt_numberLength
        (head_any_mono hdigit fun c hc => isInNumber_of_isIdent (isIdent_of_isDigit hc)) _
    · have hlong := hr.resolve_left (startsNumber_punctuator hmem ▸ hstart)
      cases r with
      | nil => cases hlong
      | cons c r =>
        rw [List.head?_cons, Option.any_some, List.contains_iff_mem] at hlong
        obtain ⟨m, hm, hle⟩ := exists_punctuatorLength? hlong r
        have hs : b :: w ++ [c] ++ r = b :: w ++ c :: r := by simp
        rw [hs] at hm
        cases hl.symm.trans (lexeme_mark (isMark_of_mem _ hmem b List.mem_cons_self)
          (Bool.eq_false_iff.2 hstart) hm)
        rw [List.length_append, List.length_cons, List.length_singleton] at hle
        exact hle

/-! ### What a token starts with -/

theorem Spelling.not_isSpace {kind : TokenKind} {b : UInt8} {w : Bytes}
    (h : Spelling kind (b :: w)) (hk : kind ≠ .whitespace) : isSpace b = false := by
  cases h with
  | whitespace _ _ => exact absurd rfl hk
  | identifier hw =>
    rw [isWord, Bool.and_eq_true] at hw
    exact not_isSpace_of_isIdent (isIdent_of_isIdentStart hw.1)
  | number hw _ => exact (class_of_startsNumber hw).1
  | string _ => decide
  | charConst _ => decide
  | punctuator hw => exact (class_of_isMark b (isMark_of_mem _ hw b List.mem_cons_self)).1

/-- Only punctuators start with a mark other than the point. -/
theorem Spelling.punctuator_of_isMark {kind : TokenKind} {b : UInt8} {w : Bytes}
    (h : Spelling kind (b :: w)) (hb : isMark b = true) (hp : b ≠ ch '.') : kind = .punctuator := by
  obtain ⟨hspace, hident, hquote, hapostrophe⟩ := class_of_isMark b hb
  cases h with
  | whitespace _ hw => rw [hw b List.mem_cons_self] at hspace; cases hspace
  | identifier hw =>
    rw [isWord, Bool.and_eq_true] at hw
    rw [isIdent_of_isIdentStart hw.1] at hident
    cases hident
  | number hw _ =>
    rw [isIdent, Bool.or_eq_false_iff] at hident
    rw [not_startsNumber hident.2 hp] at hw
    cases hw
  | string _ => exact absurd rfl hquote
  | charConst _ => exact absurd rfl hapostrophe
  | punctuator _ => rfl

/-! ### One cut -/

/-- A token is cut off: it stands in the current column, in front of the text that is left. -/
structure Cut (r : Rest) (token : Token) (r' : Rest) : Prop where
  column : token.column = r.1
  text : r.2 = token.text ++ r'.2
  next : r'.1 = r.1 + token.text.length
  spelling : Spelling token.kind token.text
  apart : token.kind.isWordy = true → r'.2.head?.any isIdent = false
  lexeme : ∃ b, token.text.head? = some b ∧
    lexeme b (token.text ++ r'.2) = .ok (token.kind, token.text.length)

theorem cut_of_next? {r r' : Rest} {token : Token} (h : next? r = some (token, r')) :
    Cut r token r' := by
  obtain ⟨column, s⟩ := r
  cases s with
  | nil => cases h
  | cons b s =>
    cases hl : lexeme b (b :: s) with
    | error f => simp [next?, hl] at h
    | ok lexed =>
      obtain ⟨kind, n⟩ := lexed
      obtain ⟨w, r, hw, rfl, hspell, hafter⟩ := lexeme_spelled hl
      have hnext : next? (column, b :: s) = some (⟨kind, w, column⟩, (column + w.length, r)) := by
        simp only [next?, hl]
        rw [hw, List.take_left, List.drop_left]
      have hhead : w.head? = some b := by
        cases w with
        | nil => exact absurd rfl hspell.ne_nil
        | cons c w => rw [(List.cons.inj hw).1, List.head?_cons]
      rw [hw] at hl
      cases hnext.symm.trans h
      exact ⟨rfl, hw, rfl, hspell, hafter, b, hhead, hl⟩

/-- No cut is possible at the end of the line and at a fault in the current column. -/
theorem next?_eq_none {r : Rest} (h : next? r = none) :
    (r.2 = [] ∧ fault? r = none) ∨ (r.2 ≠ [] ∧ ∃ f, fault? r = some (r.1, f)) := by
  obtain ⟨column, s⟩ := r
  cases s with
  | nil => exact .inl ⟨rfl, rfl⟩
  | cons b s =>
    cases hl : lexeme b (b :: s) with
    | error f => exact .inr ⟨List.cons_ne_nil b s, f, by simp [fault?, hl]⟩
    | ok lexed => simp [next?, hl] at h

theorem length_next?_lt (r : Rest) (token : Token) (r' : Rest) (h : next? r = some (token, r')) :
    r'.2.length < r.2.length := by
  have hcut := cut_of_next? h
  have hpos := List.length_pos_iff.2 hcut.spelling.ne_nil
  rw [hcut.text, List.length_append]
  omega

theorem scan_of_gathered {line : Bytes} {tokens : List Token} {stop : Rest}
    (h : Gathered next? (1, line) tokens stop) : scan line = (tokens, fault? stop) := by
  rw [scan, h.gather_eq length_next?_lt (Nat.le_refl _)]

/-! ### Lines -/

/-- A piece of a line: the kind of a token and its text. -/
abbrev Piece := TokenKind × Bytes

/-- The text of pieces. -/
def piecesText (pieces : List Piece) : Bytes := pieces.flatMap Prod.snd

/-- Cutting the text of the pieces gives the pieces. -/
def Cuts : List Piece → Prop
  | [] => True
  | (kind, text) :: pieces =>
    (∃ b, text.head? = some b ∧
      Token.lexeme b (text ++ piecesText pieces) = .ok (kind, text.length)) ∧ Cuts pieces

/-- Kind and text of a token. -/
def Token.piece (t : Token) : Piece := (t.kind, t.text)

theorem piecesText_map_piece (tokens : List Token) :
    piecesText (tokens.map piece) = join tokens := by
  rw [piecesText, join, List.flatMap_map]
  rfl

theorem gathered_of_cuts {pieces : List Piece} (h : Cuts pieces) : ∀ column, ∃ tokens stop,
    Gathered next? (column, piecesText pieces) tokens (stop, []) ∧ tokens.map piece = pieces := by
  induction pieces with
  | nil => exact fun column => ⟨[], column, .stop rfl, rfl⟩
  | cons p pieces ih =>
    intro column
    obtain ⟨kind, text⟩ := p
    obtain ⟨⟨b, hb, hlex⟩, hrest⟩ := h
    obtain ⟨tokens, stop, hrun, hpieces⟩ := ih hrest (column + text.length)
    obtain ⟨w, rfl⟩ := List.head?_eq_some_iff.1 hb
    have hnext : next? (column, b :: w ++ piecesText pieces) =
        some (⟨kind, b :: w, column⟩, (column + (b :: w).length, piecesText pieces)) := by
      rw [List.cons_append] at hlex ⊢
      simp [next?, hlex]
    have hpiece : piece ⟨kind, b :: w, column⟩ = (kind, b :: w) := rfl
    exact ⟨⟨kind, b :: w, column⟩ :: tokens, stop, .take hnext hrun,
      by rw [List.map_cons, hpieces, hpiece]⟩

/-- **The tokens of a line in pieces are the pieces.** -/
theorem ofLine_of_cuts {pieces : List Piece} (h : Cuts pieces) :
    ∃ tokens, ofLine (piecesText pieces) = .ok tokens ∧ tokens.map piece = pieces := by
  obtain ⟨tokens, stop, hrun, hpieces⟩ := gathered_of_cuts h 1
  refine ⟨tokens, ?_, hpieces⟩
  simp [ofLine, scan_of_gathered hrun, fault?]

theorem cuts_of_gathered {r stop : Rest} {tokens : List Token}
    (h : Gathered next? r tokens stop) (hfault : fault? stop = none) :
    join tokens = r.2 ∧ Cuts (tokens.map piece) := by
  induction h with
  | stop hnext =>
    rcases next?_eq_none hnext with ⟨hend, -⟩ | ⟨-, f, hf⟩
    · exact ⟨hend.symm, trivial⟩
    · cases hfault.symm.trans hf
  | @take r r' stop token tokens hnext _ ih =>
    have hcut := cut_of_next? hnext
    obtain ⟨hjoin, hcuts⟩ := ih hfault
    have hlexeme := hcut.lexeme
    rw [← hjoin, ← piecesText_map_piece] at hlexeme
    refine ⟨?_, hlexeme, hcuts⟩
    rw [hcut.text, ← hjoin]
    rfl

theorem exists_gathered_of_ofLine {line : Bytes} {tokens : List Token}
    (h : ofLine line = .ok tokens) :
    ∃ stop, Gathered next? (1, line) tokens stop ∧ fault? stop = none := by
  obtain ⟨found, stop, hrun⟩ := exists_gathered length_next?_lt (1, line)
  rw [ofLine, scan_of_gathered hrun] at h
  cases hfault : fault? stop with
  | none =>
    rw [hfault] at h
    cases h
    exact ⟨stop, hrun, hfault⟩
  | some f =>
    rw [hfault] at h
    cases h

/-- **The tokens of a line make up the line, which is cut into them.** -/
theorem cuts_of_ofLine {line : Bytes} {tokens : List Token} (h : ofLine line = .ok tokens) :
    join tokens = line ∧ Cuts (tokens.map piece) := by
  obtain ⟨stop, hrun, hfault⟩ := exists_gathered_of_ofLine h
  exact cuts_of_gathered hrun hfault

end MiniC.Macro
