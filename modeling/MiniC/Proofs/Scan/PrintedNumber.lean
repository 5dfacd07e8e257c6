import MiniC.Proofs.Number.Numeral
import MiniC.Proofs.Scan.StringLiteral
import MiniC.Syntax.Printer

/-!
# Which printed numbers are read back

A number is printed with the shortest digits that read back as it. Without an exponent such a text
is a numeral of the scanner, which rounds it to the value whose interval contains it
(`number_fixed`). The scanner knows no exponents, though: of `1e+06` it reads the `1` and stops.

* `readNumber_printed`: a printed number is read back exactly if it is zero, or from `10 ^ (-4)` up
  to and below `10 ^ 6`.
-/

namespace MiniC

open Shortest

namespace Numeral

/-! ### Numerals without an exponent -/

theorem Fixed.head {s : Bytes} {q : ℚ} (h : Fixed s q) : s.head?.any isDigit = true := by
  cases h with
  | whole hne hw =>
    obtain ⟨b, s, rfl⟩ := List.exists_cons_of_ne_nil hne
    exact hw b List.mem_cons_self
  | point hne hw =>
    obtain ⟨b, w, rfl⟩ := List.exists_cons_of_ne_nil hne
    exact hw b List.mem_cons_self

theorem isDecimalPart_of_isDigit {b : UInt8} (h : isDigit b = true) :
    Scan.Lexeme.isDecimalPart b = true := by
  rw [Scan.Lexeme.isDecimalPart, h, Bool.true_or]

theorem Fixed.isDecimalPart {s : Bytes} {q : ℚ} (h : Fixed s q) :
    ∀ b ∈ s, Scan.Lexeme.isDecimalPart b = true := by
  cases h with
  | whole _ hw => exact fun b hb => isDecimalPart_of_isDigit (hw b hb)
  | point _ hw _ hv =>
    refine List.forall_mem_append.2 ⟨fun b hb => isDecimalPart_of_isDigit (hw b hb), ?_⟩
    exact List.forall_mem_cons.2 ⟨rfl, fun b hb => isDecimalPart_of_isDigit (hv b hb)⟩

/-- The value of a numeral without an exponent is its number, rounded. -/
theorem Fixed.exists_value? {s : Bytes} {q : ℚ} (h : Fixed s q) :
    ∃ (digits : ℕ) (exponent : ℤ), digits * (10 : ℚ) ^ exponent = q ∧
      value? s = some (Binary64.ofDecimal false digits exponent) := by
  have hsign := sign_of_isDigit h.head
  cases h with
  | whole hne hw =>
    refine ⟨digitsValue s, 0, by simp, ?_⟩
    simp only [value?, hsign, List.takeWhile_eq_self_iff.2 hw, List.dropWhile_eq_nil_iff.2 hw]
    simp [hne, exponent?]
  | @point w v hne hw _ hv =>
    refine ⟨digitsValue (w ++ v), -v.length, rfl, ?_⟩
    have hstop : (ch '.' :: v).head?.any isDigit = false := rfl
    simp only [value?, hsign, takeWhile_append_stop hw hstop, dropWhile_append_stop hw hstop,
      List.takeWhile_eq_self_iff.2 hv, List.dropWhile_eq_nil_iff.2 hv]
    simp [hne, exponent?]

/-- **A numeral in the interval of a value is read as this value.** -/
theorem Fixed.finite?_of_contains {s : Bytes} {q : ℚ} (h : Fixed s q) {x : Binary64}
    (hfinite : x.isFinite = true) (hsign : x.negative = false) (hq : (Interval.of x).Contains q) :
    finite? s = some x := by
  obtain ⟨digits, exponent, rfl, hvalue⟩ := h.exists_value?
  rw [finite?, hvalue, ← hsign, Binary64.ofDecimal_eq_of_contains hfinite hq, Option.filter_some,
    if_pos hfinite]

theorem Fixed.exists_finite? {s : Bytes} {q : ℚ} (h : Fixed s q) (hq : q < (2 : ℚ) ^ (1023 : ℤ)) :
    ∃ x, finite? s = some x := by
  obtain ⟨digits, exponent, rfl, hvalue⟩ := h.exists_value?
  refine ⟨Binary64.ofDecimal false digits exponent, ?_⟩
  rw [finite?, hvalue, Option.filter_some, if_pos (Binary64.isFinite_ofDecimal false hq)]

/-! ### The notation of a printed number -/

theorem zpow_le_iff_length {n : ℕ} (hn : n ≠ 0) (i : ℤ) :
    (10 : ℚ) ^ i ≤ n ↔ i < (Bytes.ofNat n).length := by
  have hlength : (Bytes.ofNat n).length = (Nat.toDigits 10 n).length := by simp [Bytes.ofNat]
  have hpos : 0 < (Nat.toDigits 10 n).length := Nat.length_toDigits_pos
  rw [hlength]
  rcases le_or_gt i 0 with hi | hi
  · have hle : (10 : ℚ) ^ i ≤ n :=
      calc (10 : ℚ) ^ i ≤ 1 := zpow_le_one_of_nonpos₀ (by norm_num) hi
        _ ≤ n := by exact_mod_cast Nat.pos_of_ne_zero hn
    exact iff_of_true hle (by omega)
  · lift i to ℕ using hi.le
    have hiff := Nat.length_toDigits_le_iff (b := 10) (n := n) (k := i) (by decide) (by omega)
    rw [zpow_natCast, show (10 : ℚ) ^ i = ((10 ^ i : ℕ) : ℚ) by push_cast; rfl, Nat.cast_le,
      Nat.cast_lt, ← Nat.not_lt, ← hiff, Nat.not_le]

/-- The decimal exponent of a number, by which its notation is chosen. -/
theorem le_exponent_iff {d : Decimal} (hd : d.digits ≠ 0) (j : ℤ) :
    j ≤ d.exponent + (Bytes.ofNat d.digits).length - 1 ↔ (10 : ℚ) ^ j ≤ d.value := by
  have hpos : (0 : ℚ) < (10 : ℚ) ^ d.exponent := by positivity
  have hsplit : (10 : ℚ) ^ j = (10 : ℚ) ^ (j - d.exponent) * (10 : ℚ) ^ d.exponent := by
    rw [← zpow_add₀ (by norm_num), sub_add_cancel]
  rw [Decimal.value, hsplit, mul_le_mul_iff_left₀ hpos, zpow_le_iff_length hd]
  omega

theorem pointed_eq_positional {digits : Bytes} (hne : digits ≠ []) :
    pointed digits = positional digits (-(digits.length - 1 : ℕ)) := by
  rcases digits with _ | ⟨a, _ | ⟨b, rest⟩⟩
  · exact absurd rfl hne
  · simp [pointed, positional]
  · have hp : ¬ (0 : ℤ) ≤ -((rest.length + 1 + 1 - 1 : ℕ) : ℤ) := by omega
    have hplaces : (- -((rest.length + 1 + 1 - 1 : ℕ) : ℤ)).toNat = rest.length + 1 := by omega
    have hwhole : rest.length + 1 + 1 - (rest.length + 1) = 1 := by omega
    rw [positional, List.length_cons, List.length_cons, if_neg hp, hplaces]
    dsimp only
    rw [if_pos (Nat.lt_succ_self _), hwhole]
    rfl

/-- In front of an exponent part stands a number below ten. -/
theorem exists_fixed_pointed {n : ℕ} (hn : n ≠ 0) :
    ∃ q, Fixed (pointed (Bytes.ofNat n)) q ∧ q < 10 := by
  have hne := Bytes.ofNat_ne_nil n
  have hfixed := fixed_positional (fun b => Bytes.isDigit_of_mem_ofNat (n := n)) hne
    (-((Bytes.ofNat n).length - 1 : ℕ))
  rw [← pointed_eq_positional hne, Bytes.digitsValue_ofNat] at hfixed
  refine ⟨_, hfixed, ?_⟩
  have hlt : (n : ℚ) < (10 : ℚ) ^ ((Bytes.ofNat n).length : ℤ) := by
    rw [← not_le, zpow_le_iff_length hn]
    exact lt_irrefl _
  have hlength := List.length_pos_iff.2 hne
  calc (n : ℚ) * (10 : ℚ) ^ (-((Bytes.ofNat n).length - 1 : ℕ) : ℤ)
      < (10 : ℚ) ^ ((Bytes.ofNat n).length : ℤ) *
          (10 : ℚ) ^ (-((Bytes.ofNat n).length - 1 : ℕ) : ℤ) := by gcongr
    _ = (10 : ℚ) ^ (1 : ℤ) := by rw [← zpow_add₀ (by norm_num)]; congr 1; omega
    _ = 10 := zpow_one 10

end Numeral

/-! ### Powers of ten between values -/

section Sizes

variable {x : Binary64} (hfinite : x.isFinite = true) (hsign : x.negative = false)

include hfinite hsign

theorem Shortest.contains_decimal_value : (Interval.of x).Contains (decimal x).value := by
  by_cases hzero : x.significand = 0
  · have hvalue : (decimal x).value = x.value := by
      rw [decimal, if_pos hzero, Decimal.value, Binary64.value_of_not_negative hsign, hzero]
      simp
    rw [hvalue]
    exact Binary64.contains_value hsign
  · exact contains_decimal hfinite hzero

/-- A power of ten that is the shortest decimal of a value not below it lies between the same values
and between the same shortest decimals. -/
theorem Shortest.zpow_le_decimal_iff {y : Binary64} {j : ℤ} (hy : y.isFinite = true)
    (hy' : y.negative = false) (hdecimal : decimal y = ⟨1, j⟩) (hle : (10 : ℚ) ^ j ≤ y.value) :
    (10 : ℚ) ^ j ≤ (decimal x).value ↔ (10 : ℚ) ^ j ≤ x.value := by
  have hpower : (decimal y).value = (10 : ℚ) ^ j := by
    rw [hdecimal, Decimal.value, Nat.cast_one, one_mul]
  have hcontains : (Interval.ofMagnitude (magnitude y)).Contains ((10 : ℚ) ^ j) := by
    rw [← of_eq_ofMagnitude, ← hpower]
    exact contains_decimal_value hy hy'
  have hx := contains_decimal_value hfinite hsign
  have hx' := Binary64.contains_value hsign
  rw [of_eq_ofMagnitude] at hx hx'
  rcases Nat.lt_trichotomy (magnitude x) (magnitude y) with hlt | heq | hgt
  · exact iff_of_false (not_le.2 (Interval.lt_of_contains hlt hx hcontains))
      (not_le.2 (Interval.lt_of_contains hlt hx' hcontains))
  · obtain rfl : x = y := eq_of_magnitude (hsign.trans hy'.symm) heq
    exact iff_of_true hpower.ge hle
  · exact iff_of_true (Interval.lt_of_contains hgt hcontains hx).le
      (Interval.lt_of_contains hgt hcontains hx').le

theorem Shortest.million_le_decimal_iff :
    (10 : ℚ) ^ (6 : ℤ) ≤ (decimal x).value ↔ (10 : ℚ) ^ (6 : ℤ) ≤ x.value := by
  refine zpow_le_decimal_iff hfinite hsign (y := .ofNat 1000000) (by decide +kernel)
    (by decide +kernel) (by decide +kernel) ?_
  have hsignificand : (Binary64.ofNat 1000000).significand = 8589934592000000 := by decide +kernel
  have hscale : (Binary64.ofNat 1000000).scale = -33 := by decide +kernel
  rw [Binary64.value_of_not_negative (by decide +kernel), hsignificand, hscale]
  norm_num

theorem Shortest.tenThousandth_le_decimal_iff :
    (10 : ℚ) ^ (-4 : ℤ) ≤ (decimal x).value ↔ (10 : ℚ) ^ (-4 : ℤ) ≤ x.value := by
  refine zpow_le_decimal_iff hfinite hsign (y := .ofDecimal false 1 (-4)) (by decide +kernel)
    (by decide +kernel) (by decide +kernel) ?_
  have hsignificand : (Binary64.ofDecimal false 1 (-4)).significand = 7378697629483821 := by
    decide +kernel
  have hscale : (Binary64.ofDecimal false 1 (-4)).scale = -66 := by decide +kernel
  rw [Binary64.value_of_not_negative (by decide +kernel), hsignificand, hscale]
  norm_num

end Sizes

namespace Binary64

/-- Zero, or a number from `10 ^ (-4)` up to and below `10 ^ 6`. -/
def IsModerate (x : Binary64) : Prop :=
  x.value = 0 ∨ (10 : ℚ) ^ (-4 : ℤ) ≤ x.value ∧ x.value < (10 : ℚ) ^ (6 : ℤ)

theorem value_eq_zero_iff {x : Binary64} : x.value = 0 ↔ x.significand = 0 := by
  have hsign : (if x.negative = true then (-1 : ℚ) else 1) ≠ 0 := by split_ifs <;> norm_num
  have hpower : (2 : ℚ) ^ x.scale ≠ 0 := by positivity
  rw [value, mul_eq_zero, mul_eq_zero, or_iff_right hsign, or_iff_left hpower, Nat.cast_eq_zero]

end Binary64

namespace Numeral

section Written

variable {x : Binary64} (hfinite : x.isFinite = true) (hsign : x.negative = false)

include hfinite

theorem digits_ne_zero (hpos : x.significand ≠ 0) : (decimal x).digits ≠ 0 := by
  intro hzero
  have hvalue := decimal_value_pos hfinite hpos
  rw [Decimal.value, hzero, Nat.cast_zero, zero_mul] at hvalue
  exact lt_irrefl _ hvalue

include hsign

/-- **Numbers of moderate size are written without an exponent.** -/
theorem text_eq_ite (hpos : x.significand ≠ 0) : ∃ e : ℤ, (¬ x.IsModerate ∧
      text x = pointed (Bytes.ofNat (decimal x).digits) ++ exponentPart format e) ∨
    (x.IsModerate ∧
      text x = positional (Bytes.ofNat (decimal x).digits) (decimal x).exponent) := by
  have hdigits := digits_ne_zero hfinite hpos
  set e := (decimal x).exponent + ((Bytes.ofNat (decimal x).digits).length : ℤ) - 1 with he
  have hmoderate : x.IsModerate ↔ -4 ≤ e ∧ e < 6 := by
    rw [Binary64.IsModerate, Binary64.value_eq_zero_iff, or_iff_right hpos, ← not_le,
      ← million_le_decimal_iff hfinite hsign, ← tenThousandth_le_decimal_iff hfinite hsign,
      ← le_exponent_iff hdigits, ← le_exponent_iff hdigits, not_le]
  refine ⟨e, ?_⟩
  rw [text_eq_ofDecimal hfinite hsign, ofDecimal, hmoderate, ← he]
  have hleast : format.least = -4 := rfl
  have hlimit : format.limit = 6 := rfl
  split_ifs with hwritten <;>
    simp only [Bool.or_eq_true, decide_eq_true_eq, hleast, hlimit] at hwritten
  · exact .inl ⟨by omega, rfl⟩
  · exact .inr ⟨by omega, rfl⟩

theorem fixed_text (h : x.IsModerate) : Fixed (text x) (decimal x).value := by
  by_cases hzero : x.significand = 0
  · rw [text_eq_ofDecimal hfinite hsign, decimal, if_pos hzero]
    have hfixed := Fixed.whole (w := [ch '0']) (List.cons_ne_nil _ _)
      (List.forall_mem_singleton.2 rfl)
    have hvalue : (⟨0, 0⟩ : Decimal).value = (digitsValue [ch '0'] : ℕ) := by
      rw [Decimal.value, Nat.cast_zero, zero_mul]
      rfl
    rw [hvalue]
    exact hfixed
  · obtain ⟨e, ⟨hnot, -⟩ | ⟨-, htext⟩⟩ := text_eq_ite hfinite hsign hzero
    · exact absurd h hnot
    · have hfixed := fixed_positional
        (fun b => Bytes.isDigit_of_mem_ofNat (n := (decimal x).digits)) (Bytes.ofNat_ne_nil _)
        (decimal x).exponent
      rwa [Bytes.digitsValue_ofNat, ← htext] at hfixed

theorem exists_text_of_not_isModerate (h : ¬ x.IsModerate) :
    ∃ s q k, Fixed s q ∧ q < 10 ∧ text x = s ++ k ∧ k.head? = some (ch 'e') := by
  have hpos : x.significand ≠ 0 := fun hzero => h (.inl (Binary64.value_eq_zero_iff.2 hzero))
  obtain ⟨e, ⟨-, htext⟩ | ⟨hmoderate, -⟩⟩ := text_eq_ite hfinite hsign hpos
  · obtain ⟨q, hfixed, hq⟩ := exists_fixed_pointed (digits_ne_zero hfinite hpos)
    exact ⟨_, q, _, hfixed, hq, htext, rfl⟩
  · exact absurd hmoderate h

end Written

end Numeral

namespace Scan

open Numeral

namespace Lexeme

/-- The scanner stops in front of the text: it is at its end, or an exponent part follows. -/
def Unread (k : Bytes) : Prop := k = [] ∨ k.head? = some (ch 'e')

theorem isHexNumber_fixed {s k : Bytes} {q : ℚ} (h : Fixed s q) (hk : Unread k) :
    isHexNumber (s ++ k) = false := by
  have hsecond : ∀ c : UInt8, isDecimalPart c = true ∨ c = ch 'e' →
      (c == ch 'x' || c == ch 'X') = false := forall_byte (by decide +kernel)
  have hparts := h.isDecimalPart
  rcases s with _ | ⟨b, _ | ⟨c, s⟩⟩
  · cases h.head
  · rcases hk with rfl | hk
    · rfl
    · obtain ⟨k, rfl⟩ := List.head?_eq_some_iff.1 hk
      exact Bool.and_eq_false_iff.2 (.inr (hsecond _ (.inr rfl)))
  · have hc := hparts c (List.mem_cons_of_mem b List.mem_cons_self)
    exact Bool.and_eq_false_iff.2 (.inr (hsecond c (.inl hc)))

theorem number_fixed {s k : Bytes} {q : ℚ} {x : Binary64} (h : Fixed s q) (hk : Unread k)
    (hx : finite? s = some x) : number (s ++ k) = ⟨s.length, .ok x⟩ := by
  have hdigit : (s ++ k).head?.any isDigit = true := by
    obtain ⟨b, s, rfl⟩ := List.exists_cons_of_ne_nil (l := s) (by rintro rfl; cases h.head)
    exact h.head
  have hstop : k.head?.any isDecimalPart = false ∧ k.takeWhile isNumberSuffix = [] := by
    rcases hk with rfl | hk
    · exact ⟨rfl, rfl⟩
    · obtain ⟨k, rfl⟩ := List.head?_eq_some_iff.1 hk
      exact ⟨rfl, rfl⟩
  rw [number, hdigit, isHexNumber_fixed h hk]
  simp only [Bool.not_true, Bool.false_eq_true, if_false,
    takeWhile_append_stop h.isDecimalPart hstop.1, dropWhile_append_stop h.isDecimalPart hstop.1,
    numberFrom, hx, hstop.2]
  simp

end Lexeme

namespace Scanner

theorem number_of_readNumber {s stop : Scanner} {keep : Bool} {x : Binary64}
    (h : s.readNumber keep = (.ok x, stop)) :
    Lexeme.number s.cursor.rest = ⟨(Lexeme.number s.cursor.rest).length, .ok x⟩ := by
  unfold readNumber read at h
  generalize Lexeme.number s.cursor.rest = reading at h
  obtain ⟨n, result⟩ := reading
  cases result with
  | ok y => cases h; rfl
  | error e => cases e <;> cases h

/-- A numeral is read up to what follows it, and no blank is skipped there. -/
theorem readNumber_fixed {s k : Bytes} {q : ℚ} {x : Binary64} (h : Fixed s q)
    (hk : Lexeme.Unread k) (hx : finite? s = some x) (file : Bytes) (keep : Bool) :
    ∃ stop, (ofText (s ++ k) file).readNumber keep = (.ok x, stop) ∧ stop.cursor.rest = k := by
  have hsolid : (s ++ k).head?.any isSolid = true :=
    head_append_of_isSolid (head_any_mono h.head fun b hb =>
      isSolid_of_isIdent b (isIdent_of_isDigit hb)) k
  have hsettled : Settled k := by
    rcases hk with rfl | hk
    · exact settled_nil
    · obtain ⟨k, rfl⟩ := List.head?_eq_some_iff.1 hk
      exact settled_of_isSolid rfl
  set s₀ := ofText (s ++ k) file with hs₀
  have hrest : s₀.cursor.rest = s ++ k := by
    rw [hs₀, ofText_of_isSolid hsolid]
    rfl
  have hbehind : (s₀.advanceBy s.length).cursor.rest = k := by
    simp [advanceBy, hrest]
  refine ⟨_, read_ok (by rw [hrest]; exact Lexeme.number_fixed h hk hx) (skip keep), ?_⟩
  rw [skip_of_none (blank?_of_settled keep (by rw [hbehind]; exact hsettled)), hbehind]

end Scanner

/-- Every value without a sign has a numeral. -/
theorem exists_fixed {x : Binary64} (hsign : x.negative = false) : ∃ s, Fixed s x.value := by
  have hfixed := fun n p => fixed_positional (fun b => Bytes.isDigit_of_mem_ofNat (n := n))
    (Bytes.ofNat_ne_nil n) p
  simp only [Bytes.digitsValue_ofNat] at hfixed
  rw [Binary64.value_of_not_negative hsign]
  rcases le_total 0 x.scale with hscale | hscale
  · have h := hfixed (x.significand * 2 ^ x.scale.toNat) 0
    rw [zpow_zero, mul_one] at h
    push_cast at h
    rw [← zpow_natCast, Int.toNat_of_nonneg hscale] at h
    exact ⟨_, h⟩
  · -- a binary place is a decimal place times a power of five
    obtain ⟨k, hk⟩ : ∃ k : ℕ, x.scale = -k := ⟨(-x.scale).toNat, by omega⟩
    have h := hfixed (x.significand * 5 ^ k) (-k)
    have hpower : (5 : ℚ) ^ k * (10 : ℚ) ^ (-(k : ℤ)) = (2 : ℚ) ^ (-(k : ℤ)) := by
      rw [zpow_neg, zpow_neg, zpow_natCast, zpow_natCast, show (10 : ℚ) = 5 * 2 by norm_num,
        mul_pow]
      field_simp
    push_cast at h
    rw [mul_assoc, hpower, ← hk] at h
    exact ⟨_, h⟩

/-- **Which printed numbers are read back.** The numbers that can be read are the finite ones
without a sign. The printed form of such a number is read up to its exponent part, if it has one. It
is read back as the number, and to its end, exactly if the number is zero, or from `10 ^ (-4)` up to
and below `10 ^ 6`. -/
theorem readNumber_printed (x : Binary64) :
    ((∃ (s : Scanner) (keep : Bool) (stop : Scanner), s.readNumber keep = (.ok x, stop)) ↔
      x.isFinite = true ∧ x.negative = false) ∧
    ((∃ (s : Scanner) (keep : Bool) (stop : Scanner), s.readNumber keep = (.ok x, stop)) →
      ∀ (position : Position) (file : Bytes) (keep : Bool),
      ∃ (y : Binary64) (stop : Scanner),
        (Scanner.ofText (Printer.expr (.number x position)) file).readNumber keep = (.ok y, stop) ∧
        (y = x ∧ stop.cursor.atEnd = true ↔ x.IsModerate) ∧
        (¬ x.IsModerate → stop.cursor.rest.head? = some (ch 'e'))) := by
  have hread : (∃ (s : Scanner) (keep : Bool) (stop : Scanner),
      s.readNumber keep = (.ok x, stop)) ↔ x.isFinite = true ∧ x.negative = false := by
    constructor
    · rintro ⟨s, keep, stop, h⟩
      exact Lexeme.isFinite_of_number (Scanner.number_of_readNumber h)
    · rintro ⟨hfinite, hsign⟩
      obtain ⟨s, hs⟩ := exists_fixed hsign
      have hx := hs.finite?_of_contains hfinite hsign (Binary64.contains_value hsign)
      obtain ⟨stop, h, -⟩ := Scanner.readNumber_fixed hs (.inl rfl) hx [] true
      exact ⟨_, true, stop, h⟩
  refine ⟨hread, fun h position file keep => ?_⟩
  obtain ⟨hfinite, hsign⟩ := hread.1 h
  have hprinted : Printer.expr (.number x position) = text x := rfl
  rw [hprinted]
  by_cases hmoderate : x.IsModerate
  · have hx := (fixed_text hfinite hsign hmoderate).finite?_of_contains hfinite hsign
      (contains_decimal_value hfinite hsign)
    obtain ⟨stop, hstop, hrest⟩ := Scanner.readNumber_fixed
      (fixed_text hfinite hsign hmoderate) (.inl rfl) hx file keep
    rw [List.append_nil] at hstop
    have hend : stop.cursor.atEnd = true := by rw [Cursor.atEnd, hrest]; rfl
    exact ⟨x, stop, hstop, iff_of_true ⟨rfl, hend⟩ hmoderate, fun hnot => absurd hmoderate hnot⟩
  · obtain ⟨s, q, k, hfixed, hq, htext, hk⟩ := exists_text_of_not_isModerate hfinite hsign hmoderate
    have hlimit : q < (2 : ℚ) ^ (1023 : ℤ) :=
      calc q < 10 := hq
        _ ≤ (2 : ℚ) ^ (4 : ℤ) := by norm_num
        _ ≤ (2 : ℚ) ^ (1023 : ℤ) := zpow_le_zpow_right₀ (by norm_num) (by norm_num)
    obtain ⟨y, hy⟩ := hfixed.exists_finite? hlimit
    obtain ⟨stop, hstop, hrest⟩ := Scanner.readNumber_fixed hfixed (.inr hk) hy file keep
    rw [← htext] at hstop
    refine ⟨y, stop, hstop, iff_of_false (fun hback => ?_) hmoderate, fun _ => hrest ▸ hk⟩
    have hnil : stop.cursor.rest = [] := List.isEmpty_iff.1 hback.2
    rw [← hrest, hnil] at hk
    cases hk

theorem readNumber_printed_quarter :
    let x := Binary64.ofDecimal false 25 (-2)
    ((Scanner.ofText (ascii "0.250L") []).readNumber true).1 = .ok x ∧
    Printer.expr (.number x ⟨[], 1⟩) = ascii "0.25" ∧
    ∃ stop, (Scanner.ofText (ascii "0.25") []).readNumber true = (.ok x, stop) ∧
      stop.cursor.atEnd = true := by
  intro x
  have hread : ((Scanner.ofText (ascii "0.250L") []).readNumber true).1 = .ok x := rfl
  have hprinted : Printer.expr (.number x ⟨[], 1⟩) = ascii "0.25" := by decide +kernel
  have hvalue : x.value = 1 / 4 := by
    have hsignificand : x.significand = 4503599627370496 := by decide +kernel
    have hscale : x.scale = -54 := by decide +kernel
    rw [Binary64.value_of_not_negative (by decide +kernel), hsignificand, hscale]
    norm_num
  have hmoderate : x.IsModerate := .inr (by rw [hvalue]; norm_num)
  obtain ⟨y, stop, hy, hback, -⟩ := (readNumber_printed x).2
    ⟨_, true, _, Prod.ext hread rfl⟩ ⟨[], 1⟩ [] true
  obtain ⟨rfl, hend⟩ := hback.2 hmoderate
  rw [hprinted] at hy
  exact ⟨hread, hprinted, stop, hy, hend⟩

/-- A million and a hundred thousandth are printed with an exponent, and read back as one. -/
theorem readNumber_printed_changed :
    let read := fun t => ((Scanner.ofText t []).readNumber true).1
    let print := fun x => Printer.expr (.number x ⟨[], 1⟩)
    let million := Binary64.ofDecimal false 1 6
    let small := Binary64.ofDecimal false 1 (-5)
    read (ascii "1000000") = .ok million ∧ print million = ascii "1e+06" ∧
      read (ascii "1e+06") = .ok (.ofNat 1) ∧ million ≠ .ofNat 1 ∧
    read (ascii "0.00001") = .ok small ∧ print small = ascii "1e-05" ∧
      read (ascii "1e-05") = .ok (.ofNat 1) ∧ small ≠ .ofNat 1 := by
  decide +kernel

end Scan

end MiniC
