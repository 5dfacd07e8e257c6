import Mathlib
import MiniC.Scan.Lexeme

/-!
# Exact values

A natural number below `2 ^ 53` is a floating-point value exactly: `exact_ofNat`. So the value of a
decimal or hexadecimal numeral below that bound has the number that is written as its integer
part: `finite?_digits`, `hexNumber?_digits`.
-/

namespace MiniC

namespace Binary64

/-- The value is finite, and its integer part is `n`. -/
structure Exact (x : Binary64) (n : Nat) : Prop where
  isFinite : x.isFinite = true
  truncate : x.truncate = n

theorem exact_zero : Exact (zero false) 0 := by
  have hsig : (zero false).significand = 0 := by decide
  refine ⟨by decide, ?_⟩
  simp only [truncate, hsig, Nat.zero_mul, Nat.zero_div]
  rfl

/-- A number with its highest bit at `2 ^ 52` is the fraction of a normal value. -/
theorem ofMagnitude_normal {e m : Nat} (he : e + 1 < 2047) (hm : 2 ^ 52 ≤ m) (hm' : m < 2 ^ 53) :
    ofMagnitude false (e * 2 ^ 52 + m) =
      ⟨false, ⟨e + 1, by omega⟩, ⟨m - 2 ^ 52, by rw [Nat.pow_eq]; omega⟩⟩ := by
  have hdiv : (e * 2 ^ 52 + m) / 2 ^ 52 = e + 1 := by omega
  have hmod : (e * 2 ^ 52 + m) % 2 ^ 52 = m - 2 ^ 52 := by omega
  simp only [ofMagnitude, Nat.pow_eq, hdiv, hmod, dif_pos he]

theorem scaledDown_of_nonpos (n : Nat) {s : Int} (hs : s ≤ 0) :
    scaledDown n 1 s = (n * 2 ^ (-s).toNat, 1) := by
  rw [scaledDown, Int.toNat_of_nonpos hs, Nat.pow_eq, Nat.pow_eq, Nat.pow_zero, Nat.mul_one]

/-- The scale of a number below `2 ^ 53` leaves its highest bit at `2 ^ 52`. -/
theorem scaleFor_of_lt {n : Nat} (h0 : n ≠ 0) (h : n < 2 ^ 53) :
    scaleFor n 1 = (Nat.log2 n : Int) - 52 := by
  have hlog : Nat.log2 n < 53 := (Nat.log2_lt h0).mpr h
  have hone : Nat.log2 1 = 0 := by decide
  have hmax : max (-1074) ((Nat.log2 n : Int) - (Nat.log2 1 : Int) - 53) =
      (Nat.log2 n : Int) - 53 := by omega
  have hbits : 2 ^ 53 ≤ n * 2 ^ (53 - Nat.log2 n) := by
    calc 2 ^ 53 = 2 ^ Nat.log2 n * 2 ^ (53 - Nat.log2 n) := by rw [← Nat.pow_add]; congr 1; omega
      _ ≤ n * 2 ^ (53 - Nat.log2 n) := Nat.mul_le_mul_right _ (Nat.log2_self_le h0)
  have hneg : (-((Nat.log2 n : Int) - 53)).toNat = 53 - Nat.log2 n := by omega
  simp only [scaleFor, hmax, Nat.pow_eq]
  rw [scaledDown_of_nonpos n (by omega), hneg]
  dsimp only
  rw [Nat.div_one, if_pos hbits]
  omega

/-- **A natural number below `2 ^ 53` is a value exactly.** -/
theorem exact_ofNat {n : Nat} (h : n < 2 ^ 53) : Exact (ofNat n) n := by
  by_cases h0 : n = 0
  · subst h0
    exact exact_zero
  have hlog : Nat.log2 n < 53 := (Nat.log2_lt h0).mpr h
  -- the significand: the number shifted up to 53 bits
  obtain ⟨m, hm⟩ : ∃ m, m = n * 2 ^ (52 - Nat.log2 n) := ⟨_, rfl⟩
  have hpow : 2 ^ Nat.log2 n * 2 ^ (52 - Nat.log2 n) = 2 ^ 52 := by
    rw [← Nat.pow_add, Nat.add_sub_cancel' (by omega)]
  have hlow : 2 ^ 52 ≤ m := by
    rw [hm, ← hpow]
    exact Nat.mul_le_mul_right _ (Nat.log2_self_le h0)
  have hhigh : m < 2 ^ 53 := by
    have hlt : n < 2 ^ Nat.log2 n * 2 := by
      have := Nat.lt_log2_self (n := n)
      rwa [Nat.pow_succ] at this
    calc m < 2 ^ Nat.log2 n * 2 * 2 ^ (52 - Nat.log2 n) := by
          rw [hm]; exact Nat.mul_lt_mul_of_pos_right hlt (Nat.two_pow_pos _)
      _ = 2 ^ 52 * 2 := by rw [Nat.mul_right_comm, hpow]
      _ = 2 ^ 53 := by omega
  have hof : ofNat n = ofMagnitude false ((Nat.log2 n + 1022) * 2 ^ 52 + m) := by
    have hneg : (-((Nat.log2 n : Int) - 52)).toNat = 52 - Nat.log2 n := by omega
    have hexp : ((Nat.log2 n : Int) - 52 + 1074).toNat = Nat.log2 n + 1022 := by omega
    have hround : roundToEven m 1 = m := by simp [roundToEven, Nat.mod_one]
    simp only [ofNat, ofRatio, if_neg h0, scaleFor_of_lt h0 h, Nat.pow_eq]
    rw [scaledDown_of_nonpos n (by omega), hneg, ← hm, hexp]
    dsimp only
    rw [hround]
  rw [hof, ofMagnitude_normal (by omega) hlow hhigh]
  refine ⟨by simp only [isFinite]; exact decide_eq_true (by omega), ?_⟩
  have hne : Nat.log2 n + 1022 + 1 ≠ 0 := by omega
  have hup : (max 1 ((Nat.log2 n + 1022 + 1 : Nat) : Int) - 1075).toNat = 0 := by omega
  have hdown : (-(max 1 ((Nat.log2 n + 1022 + 1 : Nat) : Int) - 1075)).toNat =
      52 - Nat.log2 n := by omega
  simp only [truncate, significand, scale, if_neg hne, Nat.pow_eq]
  rw [hup, hdown, Nat.add_sub_cancel' hlow, hm, Nat.pow_zero, Nat.mul_one,
    Nat.mul_div_cancel _ (Nat.two_pow_pos _)]
  rfl

theorem ofDecimal_zero_exponent (n : Nat) : ofDecimal false n 0 = ofNat n := by
  by_cases h0 : n = 0
  · subst h0; rfl
  · have hlog : ¬ ((Nat.log2 n : Int) + 3 * 0 < -1100) := by omega
    rw [ofDecimal, if_neg h0, if_neg (by omega), if_neg hlog, ofNat]
    rw [show (0 : Int).toNat = 0 from rfl, show (-(0 : Int)).toNat = 0 from rfl, Nat.pow_eq,
      Nat.pow_zero, Nat.mul_one]

end Binary64

/-! ### Numerals -/

/-- **The value of a decimal numeral.** -/
theorem finite?_digits {s : Bytes} (hs : s ≠ []) (hd : ∀ b ∈ s, isDigit b = true)
    (hn : digitsValue s < 2 ^ 53) :
    ∃ x, Numeral.finite? s = some x ∧ x.Exact (digitsValue s) := by
  have hx := Binary64.exact_ofNat hn
  have hsign : Numeral.sign s = (false, s) := by
    cases s with
    | nil => rfl
    | cons b s =>
      have hb := hd b List.mem_cons_self
      rw [Numeral.sign, if_neg (by rintro rfl; revert hb; decide),
        if_neg (by rintro rfl; revert hb; decide)]
  have hval : Numeral.value? s = some (Binary64.ofNat (digitsValue s)) := by
    simp only [Numeral.value?, hsign, List.takeWhile_eq_self_iff.mpr hd,
      List.dropWhile_eq_nil_iff.mpr hd, hs]
    simp [Numeral.exponent?, Binary64.ofDecimal_zero_exponent]
  refine ⟨_, ?_, hx⟩
  rw [Numeral.finite?, hval, Option.filter_some, if_pos hx.isFinite]

/-- **The value of hexadecimal digits.** -/
theorem hexNumber?_digits {s : Bytes} (hs : s ≠ []) (hn : hexDigitsValue s < 2 ^ 53) :
    ∃ x, Scan.Lexeme.hexNumber? s = some x ∧ x.Exact (hexDigitsValue s) := by
  refine ⟨_, ?_, Binary64.exact_ofNat hn⟩
  have hlt : ¬ 2 ^ 64 ≤ hexDigitsValue s := by omega
  rw [Scan.Lexeme.hexNumber?, Nat.pow_eq, if_neg]
  simp only [Bool.or_eq_true, decide_eq_true_eq, not_or]
  exact ⟨hs, hlt⟩

end MiniC
