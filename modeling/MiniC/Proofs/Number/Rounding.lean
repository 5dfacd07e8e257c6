import MiniC.Proofs.Number.Shortest

/-!
# Correct rounding

The value nearest to a quotient is the one whose interval contains it. `ofRatio` looks for a scale
at which the quotient has a significand of 53 bits (`scaleFor_spec`) and rounds it there to the
nearest natural number (`isNearest_roundToEven`); the magnitude made up of both has the quotient in
its interval (`contains_magnitude`), also when rounding carries over to the next exponent. Since
intervals have no number in common, a decimal in the interval of a value is read as that value
(`ofDecimal_eq_of_contains`).
-/

namespace MiniC

open Shortest

/-! ### Rounding a quotient -/

/-- The natural number `k` is nearest to `q`, and even if there are two such numbers. -/
structure IsNearest (q : ℚ) (k : ℕ) : Prop where
  le_half : |q - k| ≤ 1 / 2
  lt_half : k % 2 = 1 → |q - k| < 1 / 2

namespace Binary64

theorem isNearest_roundToEven (num : ℕ) {den : ℕ} (hden : 0 < den) :
    IsNearest ((num : ℚ) / den) (roundToEven num den) := by
  have hden' : (0 : ℚ) < den := by exact_mod_cast hden
  have hsplit : (num : ℚ) = den * (num / den : ℕ) + (num % den : ℕ) := by
    exact_mod_cast (Nat.div_add_mod num den).symm
  have hquotient : (num : ℚ) / den = (num / den : ℕ) + ((num % den : ℕ) : ℚ) / den := by
    rw [eq_comm, ← sub_eq_zero]
    field_simp
    linarith
  have hlt : num % den < den := Nat.mod_lt _ hden
  rw [hquotient]
  unfold roundToEven
  dsimp only
  generalize num / den = q at *
  generalize num % den = r at *
  -- the part behind the point, against a half
  have hpart : 0 ≤ (r : ℚ) / den ∧ (r : ℚ) / den < 1 := by
    constructor
    · positivity
    · rw [div_lt_one hden']
      exact_mod_cast hlt
  have hbelow : 2 * r < den ↔ (r : ℚ) / den < 1 / 2 := by
    rw [div_lt_div_iff₀ hden' (by norm_num), one_mul, ← Nat.cast_lt (α := ℚ)]
    push_cast
    constructor <;> intro h <;> linarith
  have habove : den < 2 * r ↔ 1 / 2 < (r : ℚ) / den := by
    rw [div_lt_div_iff₀ (by norm_num) hden', one_mul, ← Nat.cast_lt (α := ℚ)]
    push_cast
    constructor <;> intro h <;> linarith
  generalize (r : ℚ) / den = f at *
  split_ifs with h₁ h₂
  · rw [hbelow] at h₁
    exact ⟨abs_le.2 ⟨by linarith, by linarith⟩, fun _ => abs_lt.2 ⟨by linarith, by linarith⟩⟩
  · rw [habove] at h₂
    constructor
    · rw [abs_le]
      push_cast
      constructor <;> linarith
    · intro _
      rw [abs_lt]
      push_cast
      constructor <;> linarith
  · have hf : f = 1 / 2 := le_antisymm (not_lt.1 (habove.not.1 h₂)) (not_lt.1 (hbelow.not.1 h₁))
    subst hf
    rcases Nat.mod_two_eq_zero_or_one q with heven | hodd
    · rw [heven]
      refine ⟨abs_le.2 ⟨?_, ?_⟩, fun h => by omega⟩ <;> push_cast <;> linarith
    · rw [hodd]
      refine ⟨abs_le.2 ⟨?_, ?_⟩, fun h => by omega⟩ <;> push_cast <;> linarith

/-! ### The scale -/

theorem scaledDown_div (num den : ℕ) (s : ℤ) :
    ((scaledDown num den s).1 : ℚ) / (scaledDown num den s).2 = num / den / (2 : ℚ) ^ s := by
  simp only [scaledDown, Nat.pow_eq, zpow_eq_div 2 s]
  push_cast
  rw [div_div_eq_mul_div, div_mul_eq_mul_div, div_div]

theorem scaledDown_pos {den : ℕ} (hden : 0 < den) (num : ℕ) (s : ℤ) :
    0 < (scaledDown num den s).2 := by
  simp only [scaledDown, Nat.pow_eq]
  positivity

theorem le_div_iff_cast {a n d : ℕ} (hd : 0 < d) : a ≤ n / d ↔ (a : ℚ) ≤ n / d := by
  rw [Nat.le_div_iff_mul_le hd, le_div_iff₀ (by exact_mod_cast hd)]
  exact_mod_cast Iff.rfl

/-- A quotient by the highest bits of its parts. -/
theorem quotient_bounds {num den : ℕ} (hnum : num ≠ 0) (hden : den ≠ 0) :
    (2 : ℚ) ^ ((Nat.log2 num : ℤ) - Nat.log2 den - 1) < num / den ∧
      (num : ℚ) / den < (2 : ℚ) ^ ((Nat.log2 num : ℤ) - Nat.log2 den + 1) := by
  have hlow : (2 : ℚ) ^ Nat.log2 num ≤ num := by exact_mod_cast Nat.log2_self_le hnum
  have hhigh : (num : ℚ) < (2 : ℚ) ^ (Nat.log2 num + 1) := by exact_mod_cast Nat.lt_log2_self
  have hlow' : (2 : ℚ) ^ Nat.log2 den ≤ den := by exact_mod_cast Nat.log2_self_le hden
  have hhigh' : (den : ℚ) < (2 : ℚ) ^ (Nat.log2 den + 1) := by exact_mod_cast Nat.lt_log2_self
  have hpos : (0 : ℚ) < den := by exact_mod_cast Nat.pos_of_ne_zero hden
  constructor
  · rw [lt_div_iff₀ hpos]
    calc (2 : ℚ) ^ ((Nat.log2 num : ℤ) - Nat.log2 den - 1) * den
        < (2 : ℚ) ^ ((Nat.log2 num : ℤ) - Nat.log2 den - 1) * (2 : ℚ) ^ (Nat.log2 den + 1) := by
          gcongr
      _ = (2 : ℚ) ^ Nat.log2 num := by
          rw [← zpow_natCast, ← zpow_natCast, ← zpow_add₀ (by norm_num)]
          congr 1
          push_cast
          ring
      _ ≤ num := hlow
  · rw [div_lt_iff₀ hpos]
    calc (num : ℚ) < (2 : ℚ) ^ (Nat.log2 num + 1) := hhigh
      _ = (2 : ℚ) ^ ((Nat.log2 num : ℤ) - Nat.log2 den + 1) * (2 : ℚ) ^ Nat.log2 den := by
          rw [← zpow_natCast, ← zpow_natCast, ← zpow_add₀ (by norm_num)]
          congr 1
          push_cast
          ring
      _ ≤ (2 : ℚ) ^ ((Nat.log2 num : ℤ) - Nat.log2 den + 1) * den := by gcongr

/-- **At its scale a quotient has a significand of 53 bits,** or fewer at the least scale. -/
theorem scaleFor_spec {num den : ℕ} (hnum : num ≠ 0) (hden : den ≠ 0) :
    -1074 ≤ scaleFor num den ∧ (num : ℚ) / den / (2 : ℚ) ^ scaleFor num den < 2 ^ 53 ∧
      (scaleFor num den = -1074 ∨ 2 ^ 52 ≤ (num : ℚ) / den / (2 : ℚ) ^ scaleFor num den) := by
  obtain ⟨hlow, hhigh⟩ := quotient_bounds hnum hden
  obtain ⟨s, hs⟩ : ∃ s, s = max (-1074) ((Nat.log2 num : ℤ) - (Nat.log2 den : ℤ) - 53) := ⟨_, rfl⟩
  have hpos := scaledDown_pos (Nat.pos_of_ne_zero hden) num s
  have hfits : Nat.pow 2 53 ≤ (scaledDown num den s).1 / (scaledDown num den s).2 ↔
      2 ^ 53 ≤ (num : ℚ) / den / (2 : ℚ) ^ s := by
    rw [le_div_iff_cast hpos, scaledDown_div, Nat.pow_eq]
    norm_num
  have hscale : scaleFor num den =
      if Nat.pow 2 53 ≤ (scaledDown num den s).1 / (scaledDown num den s).2 then s + 1 else s := by
    rw [scaleFor, ← hs]
  -- before the last step the significand has 54 bits at most
  have hbits : (num : ℚ) / den / (2 : ℚ) ^ s < 2 ^ 54 := by
    rw [div_lt_iff₀ (by positivity)]
    calc (num : ℚ) / den < (2 : ℚ) ^ ((Nat.log2 num : ℤ) - Nat.log2 den + 1) := hhigh
      _ ≤ (2 : ℚ) ^ (54 + s) := zpow_le_zpow_right₀ (by norm_num) (by omega)
      _ = 2 ^ 54 * (2 : ℚ) ^ s := by rw [zpow_add₀ (by norm_num)]; norm_num
  rw [hscale]
  split_ifs with hfull
  · rw [hfits] at hfull
    rw [zpow_add_one₀ (by norm_num), ← div_div]
    refine ⟨by omega, ?_, .inr ?_⟩
    · rw [div_lt_iff₀ (by norm_num)]
      linarith
    · rw [le_div_iff₀ (by norm_num)]
      linarith
  · rw [hfits, not_le] at hfull
    refine ⟨by omega, hfull, ?_⟩
    rcases le_or_gt ((Nat.log2 num : ℤ) - (Nat.log2 den : ℤ) - 53) (-1074) with hleast | hmore
    · exact .inl (by omega)
    · right
      have hs' : s = (Nat.log2 num : ℤ) - (Nat.log2 den : ℤ) - 53 := by omega
      rw [le_div_iff₀ (by positivity)]
      calc 2 ^ 52 * (2 : ℚ) ^ s = (2 : ℚ) ^ (52 + s) := by rw [zpow_add₀ (by norm_num)]; norm_num
        _ = (2 : ℚ) ^ ((Nat.log2 num : ℤ) - Nat.log2 den - 1) := by rw [hs']; congr 1; ring
        _ ≤ num / den := hlow.le

end Binary64

/-! ### The interval of the rounded quotient -/

namespace Shortest.Interval

/-- A number in units of the last binary place lies in an interval that is given in quarters. -/
theorem contains_of_quarters {i : Interval} {q : ℚ} {s : ℤ} (hscale : i.scale = s - 2)
    (hle : i.low ≤ 4 * q ∧ 4 * q ≤ i.high)
    (hlt : i.closed = false → i.low < 4 * q ∧ 4 * q < i.high) :
    i.Contains (q * (2 : ℚ) ^ s) := by
  have hpos : (0 : ℚ) < (2 : ℚ) ^ (s - 2) := by positivity
  have hquarter : q * (2 : ℚ) ^ s = 4 * q * (2 : ℚ) ^ (s - 2) := by
    rw [zpow_sub₀ (by norm_num)]
    norm_num
    ring
  rw [Contains, hscale, hquarter]
  simp only [mul_le_mul_iff_left₀ hpos, mul_lt_mul_iff_left₀ hpos]
  split_ifs with hclosed
  · exact hle
  · exact hlt (by simpa using hclosed)

theorem quarters_of_isNearest {q : ℚ} {k : ℕ} (hq : 0 ≤ q) (h : IsNearest q k) :
    (((4 * k - 2 : ℕ) : ℚ) ≤ 4 * q ∧ 4 * q ≤ (4 * k + 2 : ℕ)) ∧
      (k % 2 = 1 → ((4 * k - 2 : ℕ) : ℚ) < 4 * q ∧ 4 * q < (4 * k + 2 : ℕ)) := by
  rcases Nat.eq_zero_or_pos k with rfl | hpos
  · obtain ⟨-, hhigh⟩ := abs_le.1 h.le_half
    push_cast at hhigh ⊢
    exact ⟨⟨by linarith, by linarith⟩, fun hodd => absurd hodd (by decide)⟩
  · rw [Nat.cast_sub (by omega)]
    push_cast
    constructor
    · obtain ⟨hlow, hhigh⟩ := abs_le.1 h.le_half
      constructor <;> linarith
    · intro hodd
      obtain ⟨hlow, hhigh⟩ := abs_lt.1 (h.lt_half hodd)
      constructor <;> linarith

/-- **A number that is rounded at its scale lies in the interval of the magnitude.** The exponent
field is `e`, or one more if the rounded number has its leading bit, or two more if rounding carries
over. -/
theorem contains_magnitude {q : ℚ} {e k : ℕ} (hq : 0 ≤ q) (hlt : q < 2 ^ 53)
    (hnormal : e = 0 ∨ 2 ^ 52 ≤ q) (hk : IsNearest q k) :
    (ofMagnitude (e * 2 ^ 52 + k)).Contains (q * (2 : ℚ) ^ ((e : ℤ) - 1074)) := by
  have hquarters := quarters_of_isNearest hq hk
  obtain ⟨hbelow, habove⟩ := abs_le.1 hk.le_half
  have hmax : k ≤ 2 ^ 53 := by
    have hcast : (k : ℚ) < ((2 ^ 53 + 1 : ℕ) : ℚ) := by
      push_cast
      linarith
    exact Nat.lt_succ_iff.1 (by exact_mod_cast hcast)
  have hmin : 2 ^ 52 ≤ q → 2 ^ 52 ≤ k := by
    intro hq'
    have hcast : ((2 ^ 52 : ℕ) : ℚ) < ((k + 1 : ℕ) : ℚ) := by
      push_cast
      linarith
    exact Nat.lt_succ_iff.1 (by exact_mod_cast hcast)
  rw [ofMagnitude]
  rcases Nat.lt_or_ge k (2 ^ 52) with hsmall | hlarge
  · -- no leading bit
    obtain rfl : e = 0 := hnormal.resolve_right fun hq' => by have := hmin hq'; omega
    have hdiv : (0 * 2 ^ 52 + k) / 2 ^ 52 = 0 := by omega
    have hmod : (0 * 2 ^ 52 + k) % 2 ^ 52 = k := by omega
    rw [hdiv, hmod]
    refine contains_of_quarters (by simp [ofFields]) ?_ ?_
    · simpa [ofFields] using hquarters.1
    · simpa [ofFields] using hquarters.2
  rcases Nat.lt_or_ge k (2 ^ 53) with hbits | hcarry
  · have hdiv : (e * 2 ^ 52 + k) / 2 ^ 52 = e + 1 := by omega
    have hmod : (e * 2 ^ 52 + k) % 2 ^ 52 = k - 2 ^ 52 := by omega
    have hsignificand : 2 ^ 52 + (k - 2 ^ 52) = k := by omega
    rw [hdiv, hmod]
    generalize hi : ofFields (e + 1) (k - 2 ^ 52) = i
    refine contains_of_quarters (by simp only [← hi, ofFields]; omega) ?_ ?_ <;>
      simp only [← hi, ofFields, Nat.succ_ne_zero, if_false, hsignificand]
    · split_ifs with hpower
      · -- below a power of two the interval ends sooner, but the number is not below the power
        simp only [Bool.and_eq_true, decide_eq_true_eq] at hpower
        have hq' : 2 ^ 52 ≤ q := hnormal.resolve_left (by omega)
        obtain rfl : k = 2 ^ 52 := by omega
        norm_num at habove hq' ⊢
        constructor <;> linarith
      · exact hquarters.1
    · intro hodd
      have hodd' : k % 2 = 1 := by simpa using hodd
      rw [if_neg]
      · exact hquarters.2 hodd'
      · simp only [Bool.and_eq_true, decide_eq_true_eq]
        omega
  · obtain rfl : k = 2 ^ 53 := by omega
    have hdiv : (e * 2 ^ 52 + 2 ^ 53) / 2 ^ 52 = e + 2 := by omega
    have hmod : (e * 2 ^ 52 + 2 ^ 53) % 2 ^ 52 = 0 := by omega
    have hhalf : q * (2 : ℚ) ^ ((e : ℤ) - 1074) = q / 2 * (2 : ℚ) ^ ((e : ℤ) - 1074 + 1) := by
      rw [zpow_add_one₀ (by norm_num)]
      ring
    rw [hdiv, hmod, hhalf]
    generalize hi : ofFields (e + 2) 0 = i
    refine contains_of_quarters (by simp only [← hi, ofFields]; omega) ?_ ?_ <;>
      simp only [← hi, ofFields, Nat.succ_ne_zero, if_false]
    · norm_num at hbelow hlt ⊢
      constructor <;> linarith
    · intro hodd
      norm_num at hodd

/-- The powers of two, as the values with nothing but a leading bit. -/
theorem contains_two_zpow (e : ℕ) :
    (ofMagnitude ((e + 1) * 2 ^ 52)).Contains ((2 : ℚ) ^ ((e : ℤ) - 1022)) := by
  have hnearest : IsNearest (2 ^ 52) (2 ^ 52) := ⟨by norm_num, fun hodd => by norm_num at hodd⟩
  have h := contains_magnitude (e := e) (by norm_num) (by norm_num) (.inr le_rfl) hnearest
  have hpower : (2 : ℚ) ^ 52 * (2 : ℚ) ^ ((e : ℤ) - 1074) = (2 : ℚ) ^ ((e : ℤ) - 1022) := by
    rw [← zpow_natCast, ← zpow_add₀ (by norm_num)]
    congr 1
    push_cast
    ring
  rwa [hpower, ← Nat.succ_mul] at h

/-- Up to half of the least positive value, numbers read back as zero. -/
theorem contains_zero {r : ℚ} (hr : 0 ≤ r) (hsmall : r ≤ (2 : ℚ) ^ (-1075 : ℤ)) :
    (ofMagnitude 0).Contains r := by
  have hunit : (0 : ℚ) < (2 : ℚ) ^ (-1074 : ℤ) := by positivity
  have hhalf : (2 : ℚ) ^ (-1075 : ℤ) = 1 / 2 * (2 : ℚ) ^ (-1074 : ℤ) := by
    rw [show (-1074 : ℤ) = -1075 + 1 by norm_num, zpow_add_one₀ (by norm_num)]
    ring
  have hq : r / (2 : ℚ) ^ (-1074 : ℤ) ≤ 1 / 2 := by
    rw [div_le_iff₀ hunit]
    exact hsmall.trans hhalf.le
  have hq₀ : 0 ≤ r / (2 : ℚ) ^ (-1074 : ℤ) := by positivity
  have hnearest : IsNearest (r / (2 : ℚ) ^ (-1074 : ℤ)) 0 := by
    refine ⟨?_, fun hodd => absurd hodd (by decide)⟩
    rw [Nat.cast_zero, sub_zero, abs_of_nonneg hq₀]
    exact hq
  have h := contains_magnitude (e := 0) hq₀ (lt_of_le_of_lt hq (by norm_num)) (.inl rfl) hnearest
  simp only [Nat.cast_zero, zero_sub, Nat.zero_mul, Nat.add_zero, div_mul_cancel₀ r hunit.ne'] at h
  exact h

end Shortest.Interval

namespace Binary64

theorem ofMagnitude_magnitude {x : Binary64} (hx : x.isFinite = true) :
    ofMagnitude x.negative (magnitude x) = x := by
  have hexponent : x.exponent.val < 2047 := by simpa [isFinite] using hx
  simp only [ofMagnitude, Nat.pow_eq, magnitude_div, magnitude_mod, dif_pos hexponent]

theorem ofMagnitude_of_le {negative : Bool} {n : ℕ} (h : 2047 * 2 ^ 52 ≤ n) :
    ofMagnitude negative n = infinity negative := by
  rw [ofMagnitude, dif_neg]
  · rfl
  · rw [Nat.pow_eq]
    omega

/-- **A quotient is rounded to the value whose interval contains it.** -/
theorem ofRatio_spec (negative : Bool) (num : ℕ) {den : ℕ} (hden : den ≠ 0) :
    ∃ n, (Interval.ofMagnitude n).Contains ((num : ℚ) / den) ∧
      ofRatio negative num den = ofMagnitude negative n := by
  unfold ofRatio
  by_cases hnum : num = 0
  · subst hnum
    refine ⟨0, Interval.contains_zero (by simp) (by rw [Nat.cast_zero, zero_div]; positivity), ?_⟩
    rw [if_pos rfl]
    rfl
  · rw [if_neg hnum]
    obtain ⟨hleast, hbits, hnormal⟩ := scaleFor_spec hnum hden
    obtain ⟨e, he⟩ : ∃ e : ℕ, scaleFor num den = (e : ℤ) - 1074 :=
      ⟨(scaleFor num den + 1074).toNat, by omega⟩
    have hexponent : (scaleFor num den + 1074).toNat = e := by omega
    have hnearest := isNearest_roundToEven (scaledDown num den (scaleFor num den)).1
      (scaledDown_pos (Nat.pos_of_ne_zero hden) num (scaleFor num den))
    rw [scaledDown_div] at hnearest
    have hcontains := Interval.contains_magnitude (e := e) (by positivity) hbits
      (hnormal.imp_left fun h => by omega) hnearest
    rw [← he, div_mul_cancel₀ _ (by positivity)] at hcontains
    refine ⟨_, hcontains, ?_⟩
    rw [← hexponent]
    rfl

/-- A decimal whose highest bit is far enough below the least positive value. -/
theorem decimal_le_of_log2 {digits : ℕ} {exponent : ℤ}
    (h : (Nat.log2 digits : ℤ) + 3 * exponent < -1100) :
    (digits : ℚ) * (10 : ℚ) ^ exponent ≤ (2 : ℚ) ^ (-1075 : ℤ) := by
  have hdigits : (digits : ℚ) ≤ (2 : ℚ) ^ ((Nat.log2 digits : ℤ) + 1) := by
    exact_mod_cast (Nat.lt_log2_self (n := digits)).le
  have hpower : (10 : ℚ) ^ exponent ≤ (2 : ℚ) ^ (3 * exponent) := by
    obtain ⟨k, rfl⟩ : ∃ k : ℕ, exponent = -k := ⟨exponent.natAbs, by omega⟩
    rw [zpow_mul, zpow_neg, zpow_neg, zpow_natCast, zpow_natCast]
    exact inv_anti₀ (by positivity) (pow_le_pow_left₀ (by norm_num) (by norm_num) k)
  calc (digits : ℚ) * (10 : ℚ) ^ exponent
      ≤ (2 : ℚ) ^ ((Nat.log2 digits : ℤ) + 1) * (2 : ℚ) ^ (3 * exponent) := by gcongr
    _ = (2 : ℚ) ^ ((Nat.log2 digits : ℤ) + 1 + 3 * exponent) :=
        (zpow_add₀ (by norm_num) _ _).symm
    _ ≤ (2 : ℚ) ^ (-1075 : ℤ) := zpow_le_zpow_right₀ (by norm_num) (by omega)

/-- **A decimal is read as the value whose interval contains it.** -/
theorem ofDecimal_spec (negative : Bool) (digits : ℕ) (exponent : ℤ) :
    ∃ n, (Interval.ofMagnitude n).Contains (digits * (10 : ℚ) ^ exponent) ∧
      ofDecimal negative digits exponent = ofMagnitude negative n := by
  have hratio : ((digits * Nat.pow 10 exponent.toNat : ℕ) : ℚ) /
      (Nat.pow 10 (-exponent).toNat : ℕ) = digits * (10 : ℚ) ^ exponent := by
    rw [zpow_eq_div 10 exponent, Nat.pow_eq, Nat.pow_eq]
    push_cast
    rw [mul_div_assoc]
  have hden : Nat.pow 10 (-exponent).toNat ≠ 0 := by
    rw [Nat.pow_eq]
    positivity
  obtain ⟨n, hn, hround⟩ := ofRatio_spec negative (digits * Nat.pow 10 exponent.toNat) hden
  rw [hratio] at hn
  unfold ofDecimal
  split_ifs with hzero hlarge hsmall
  · subst hzero
    refine ⟨0, Interval.contains_zero (by simp) ?_, rfl⟩
    rw [Nat.cast_zero, zero_mul]
    positivity
  · -- far above all finite values
    refine ⟨n, hn, (ofMagnitude_of_le ?_).symm⟩
    by_contra hfinite
    have hlt := Interval.lt_of_contains (by omega) hn (Interval.contains_two_zpow 2046)
    have hdigits : (1 : ℚ) ≤ digits := by exact_mod_cast Nat.pos_of_ne_zero hzero
    refine absurd hlt (not_lt.2 ?_)
    calc (2 : ℚ) ^ (((2046 : ℕ) : ℤ) - 1022)
        ≤ (2 : ℚ) ^ (3 * exponent) := zpow_le_zpow_right₀ (by norm_num) (by omega)
      _ = ((2 : ℚ) ^ (3 : ℤ)) ^ exponent := zpow_mul _ _ _
      _ ≤ (10 : ℚ) ^ exponent := zpow_le_zpow_left₀ (by omega) (by norm_num) (by norm_num)
      _ ≤ digits * (10 : ℚ) ^ exponent := le_mul_of_one_le_left (by positivity) hdigits
  · exact ⟨0, Interval.contains_zero (by positivity) (decimal_le_of_log2 hsmall), rfl⟩
  · exact ⟨n, hn, hround⟩

theorem ofDecimal_eq_of_contains {x : Binary64} (hx : x.isFinite = true) {digits : ℕ}
    {exponent : ℤ} (h : (Interval.of x).Contains (digits * (10 : ℚ) ^ exponent)) :
    ofDecimal x.negative digits exponent = x := by
  obtain ⟨n, hn, hround⟩ := ofDecimal_spec x.negative digits exponent
  rw [of_eq_ofMagnitude] at h
  rw [hround, Interval.eq_of_contains hn h, ofMagnitude_magnitude hx]

theorem isFinite_ofMagnitude {negative : Bool} {n : ℕ} (h : n / Nat.pow 2 52 < 2047) :
    (ofMagnitude negative n).isFinite = true := by
  unfold ofMagnitude isFinite
  rw [dif_pos h]
  exact decide_eq_true h

/-- A number below `2 ^ 1023` is not too large for a finite value. -/
theorem isFinite_of_contains {negative : Bool} {n : ℕ} {r : ℚ}
    (h : (Interval.ofMagnitude n).Contains r) (hr : r < (2 : ℚ) ^ (1023 : ℤ)) :
    (ofMagnitude negative n).isFinite = true := by
  have hlimit : n < 2047 * 2 ^ 52 := by
    by_contra hlarge
    have hlt := Interval.lt_of_contains (by omega) (Interval.contains_two_zpow 2045) h
    exact absurd hr (not_lt.2 hlt.le)
  refine isFinite_ofMagnitude ?_
  rw [Nat.pow_eq]
  omega

theorem isFinite_ofDecimal (negative : Bool) {digits : ℕ} {exponent : ℤ}
    (h : digits * (10 : ℚ) ^ exponent < (2 : ℚ) ^ (1023 : ℤ)) :
    (ofDecimal negative digits exponent).isFinite = true := by
  obtain ⟨n, hn, hround⟩ := ofDecimal_spec negative digits exponent
  rw [hround]
  exact isFinite_of_contains hn h

theorem isFinite_ofNat {n : ℕ} (h : n < 2 ^ 64) : (ofNat n).isFinite = true := by
  obtain ⟨m, hm, hround⟩ := ofRatio_spec false n one_ne_zero
  rw [ofNat, hround]
  refine isFinite_of_contains hm ?_
  calc (n : ℚ) / (1 : ℕ) = n := by rw [Nat.cast_one, div_one]
    _ < (2 : ℚ) ^ (64 : ℤ) := by exact_mod_cast h
    _ ≤ (2 : ℚ) ^ (1023 : ℤ) := zpow_le_zpow_right₀ (by norm_num) (by norm_num)

/-! ### The number that a value stands for -/

/-- The number that a finite value stands for. -/
def value (x : Binary64) : ℚ :=
  (if x.negative then -1 else 1) * (x.significand * (2 : ℚ) ^ x.scale)

theorem value_of_not_negative {x : Binary64} (h : x.negative = false) :
    x.value = x.significand * (2 : ℚ) ^ x.scale := by
  rw [value, h, if_neg Bool.false_ne_true, one_mul]

/-- A value lies in its interval. -/
theorem contains_value {x : Binary64} (h : x.negative = false) :
    (Interval.of x).Contains x.value := by
  rw [value_of_not_negative h]
  refine Interval.contains_of_quarters rfl ⟨?_, ?_⟩ fun hopen => ⟨?_, ?_⟩
  all_goals simp only [Interval.of]
  · exact_mod_cast Nat.sub_le _ _
  · push_cast
    linarith
  · have hodd : x.significand % 2 = 1 := by simpa [Interval.of] using hopen
    have hlow : 4 * x.significand -
        (if (decide (x.fraction.val = 0) && decide (1 < x.exponent.val)) = true then 1 else 2) <
          4 * x.significand := by
      split_ifs <;> omega
    exact_mod_cast hlow
  · push_cast
    linarith

end Binary64

end MiniC
