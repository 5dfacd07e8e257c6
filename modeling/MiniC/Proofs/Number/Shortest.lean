import MiniC.Number.Shortest
import MiniC.Proofs.Number.Exact

/-!
# Shortest decimals tell values apart

The shortest decimal of a value lies in the interval of the numbers that read back as the value
(`contains_decimal`): the search ends on a grid that is finer than a quarter of the last binary
place. The intervals of different values have no number in common (`Interval.eq_of_contains`):
neighbours share an end, but of two neighbouring significands only one is even. So a value is
determined by its shortest decimal (`eq_of_decimal`).
-/

namespace MiniC

/-- The number that a decimal stands for. -/
def Decimal.value (d : Decimal) : ℚ := d.digits * (10 : ℚ) ^ d.exponent

namespace Shortest

/-- The number lies in the interval. -/
def Interval.Contains (i : Interval) (r : ℚ) : Prop :=
  if i.closed then i.low * (2 : ℚ) ^ i.scale ≤ r ∧ r ≤ i.high * (2 : ℚ) ^ i.scale
  else i.low * (2 : ℚ) ^ i.scale < r ∧ r < i.high * (2 : ℚ) ^ i.scale

theorem Interval.Contains.bounds {i : Interval} {r : ℚ} (h : i.Contains r) :
    i.low * (2 : ℚ) ^ i.scale ≤ r ∧ r ≤ i.high * (2 : ℚ) ^ i.scale := by
  unfold Contains at h
  split_ifs at h
  · exact h
  · exact ⟨h.1.le, h.2.le⟩

/-! ### Grids -/

theorem zpow_eq_div (b : ℚ) (n : ℤ) : b ^ n = b ^ n.toNat / b ^ (-n).toNat := by
  rcases le_total 0 n with hn | hn
  · lift n to ℕ using hn
    simp
  · obtain ⟨m, rfl⟩ : ∃ m : ℕ, n = -m := ⟨n.natAbs, by omega⟩
    simp

section Grid
variable (i : Interval) (p : ℤ) (d t : ℕ)

/-- The factors bring points of the grid and quarters to a common denominator. -/
theorem exists_denominator : ∃ q : ℚ, 0 < q ∧
    (∀ d : ℕ, (d : ℚ) * (10 : ℚ) ^ p = (d * (factors i p).1 : ℕ) / q) ∧
    ∀ t : ℕ, (t : ℚ) * (2 : ℚ) ^ i.scale = (t * (factors i p).2 : ℕ) / q := by
  refine ⟨10 ^ (-p).toNat * 2 ^ (-i.scale).toNat, by positivity, fun d => ?_, fun t => ?_⟩
  · rw [zpow_eq_div 10 p, factors]
    simp only [Nat.pow_eq]
    push_cast
    field_simp
  · rw [zpow_eq_div 2 i.scale, factors]
    simp only [Nat.pow_eq]
    push_cast
    field_simp

/-- The factors compare a point of the grid with a number of quarters. -/
theorem mul_grid_le_iff :
    d * (factors i p).1 ≤ t * (factors i p).2 ↔
      (d : ℚ) * (10 : ℚ) ^ p ≤ t * (2 : ℚ) ^ i.scale := by
  obtain ⟨q, hq, hgrid, hquarter⟩ := exists_denominator i p
  rw [hgrid, hquarter, div_le_div_iff_of_pos_right hq, Nat.cast_le]

theorem mul_quarter_le_iff :
    t * (factors i p).2 ≤ d * (factors i p).1 ↔
      t * (2 : ℚ) ^ i.scale ≤ (d : ℚ) * (10 : ℚ) ^ p := by
  obtain ⟨q, hq, hgrid, hquarter⟩ := exists_denominator i p
  rw [hgrid, hquarter, div_le_div_iff_of_pos_right hq, Nat.cast_le]

/-- The test of `onGrid?` for a point of the grid. -/
def inside : Bool :=
  if i.closed then
    i.low * (factors i p).2 ≤ d * (factors i p).1 && d * (factors i p).1 ≤ i.high * (factors i p).2
  else
    i.low * (factors i p).2 < d * (factors i p).1 && d * (factors i p).1 < i.high * (factors i p).2

theorem inside_iff : inside i p d = true ↔ i.Contains (d * (10 : ℚ) ^ p) := by
  unfold inside Interval.Contains
  split_ifs
  · rw [Bool.and_eq_true, decide_eq_true_eq, decide_eq_true_eq, mul_quarter_le_iff,
      mul_grid_le_iff]
  · rw [Bool.and_eq_true, decide_eq_true_eq, decide_eq_true_eq, ← not_le, mul_grid_le_iff,
      ← not_le, mul_quarter_le_iff, not_le, not_le]

/-- The search on one grid gives a point in the interval. It finds one if the point below the middle
is in the interval. -/
theorem onGrid?_spec :
    (∀ e, onGrid? i p = some e → inside i p e = true) ∧
      (inside i p (i.middle * (factors i p).2 / (factors i p).1) = true →
        onGrid? i p ≠ none) := by
  unfold onGrid?
  split
  next grid quarter hfactors =>
  have hinside : ∀ e, inside i p e =
      if i.closed then i.low * quarter ≤ e * grid && e * grid ≤ i.high * quarter
      else i.low * quarter < e * grid && e * grid < i.high * quarter := by
    intro e
    rw [inside, hfactors]
  dsimp only
  rw [hfactors]
  simp only [← hinside]
  split
  next hlow hhigh =>
    refine ⟨fun e he => ?_, fun _ => by split_ifs <;> simp⟩
    split_ifs at he <;> cases he
    · exact hlow
    · exact hhigh
    · rcases Nat.mod_two_eq_zero_or_one (i.middle * quarter / grid) with heven | hodd
      · rwa [heven, Nat.add_zero]
      · rwa [hodd]
  next hlow _ =>
    refine ⟨fun e he => ?_, fun _ => by simp⟩
    cases he
    exact hlow
  next _ hhigh =>
    refine ⟨fun e he => ?_, fun _ => by simp⟩
    cases he
    exact hhigh
  next hlow _ =>
    refine ⟨fun e he => ?_, fun h => ?_⟩
    · cases he
    · rw [hlow] at h
      cases h

end Grid

section Search
variable {i : Interval} {p : ℤ}

/-- A grid as fine as a quarter has a point below the middle and in the interval. -/
theorem onGrid?_ne_none (hlow : i.low < i.middle) (hhigh : i.middle < i.high)
    (hfine : (factors i p).1 ≤ (factors i p).2) : onGrid? i p ≠ none := by
  have hpos : 0 < (factors i p).1 := by
    simp only [factors, Nat.pow_eq]
    positivity
  have hquarter : 0 < (factors i p).2 := lt_of_lt_of_le hpos hfine
  refine (onGrid?_spec i p).2 ?_
  obtain ⟨d, hd⟩ : ∃ d, d = i.middle * (factors i p).2 / (factors i p).1 := ⟨_, rfl⟩
  have hle : d * (factors i p).1 ≤ i.middle * (factors i p).2 := by
    rw [hd]
    exact Nat.div_mul_le_self _ _
  have hlt : i.middle * (factors i p).2 < d * (factors i p).1 + (factors i p).1 := by
    rw [hd]
    exact Nat.lt_div_mul_add hpos
  have hbelow : i.low * (factors i p).2 < d * (factors i p).1 := by
    have hstep : (i.low + 1) * (factors i p).2 ≤ i.middle * (factors i p).2 :=
      Nat.mul_le_mul_right _ hlow
    rw [Nat.add_mul, Nat.one_mul] at hstep
    omega
  have habove : d * (factors i p).1 < i.high * (factors i p).2 :=
    lt_of_le_of_lt hle (Nat.mul_lt_mul_of_pos_right hhigh hquarter)
  rw [← hd]
  unfold inside
  split_ifs <;> simp only [Bool.and_eq_true, decide_eq_true_eq] <;> omega

/-- The search ends with a number in the interval if one of its grids has a point there. -/
theorem contains_search : ∀ (grids : ℕ) (p : ℤ), (∃ j < grids, onGrid? i (p - j) ≠ none) →
    i.Contains (search i grids p).value
  | 0, p, ⟨j, hj, _⟩ => absurd hj (Nat.not_lt_zero j)
  | grids + 1, p, ⟨j, hj, hhit⟩ => by
    rw [search]
    cases hgrid : onGrid? i p with
    | some d => exact (inside_iff i p d).1 ((onGrid?_spec i p).1 d hgrid)
    | none =>
      refine contains_search grids (p - 1) ⟨j - 1, ?_, ?_⟩
      · cases j with
        | zero => exact absurd (by simpa using hgrid) hhit
        | succ j => omega
      · cases j with
        | zero => exact absurd (by simpa using hgrid) hhit
        | succ j =>
          have hp : p - 1 - ((j + 1 - 1 : ℕ) : ℤ) = p - ((j + 1 : ℕ) : ℤ) := by
            push_cast
            omega
          rwa [hp]

end Search

/-! ### The search reaches a fine grid -/

/-- For the scales from `8 * j - 1076` on, up to the next multiple of eight. -/
theorem factors_fine : ∀ j : ℕ, j < 256 →
    (factors ⟨0, 0, 0, 8 * j - 1076, false⟩ ((8 * j - 1014) * 30103 / 100000 - 22)).1 ≤
      (factors ⟨0, 0, 0, 8 * j - 1076, false⟩ ((8 * j - 1014) * 30103 / 100000 - 22)).2 := by
  decide +kernel

theorem grid_le_quarter_iff (i : Interval) (p : ℤ) :
    (factors i p).1 ≤ (factors i p).2 ↔ (10 : ℚ) ^ p ≤ (2 : ℚ) ^ i.scale := by
  have h := mul_grid_le_iff i p 1 1
  rwa [Nat.one_mul, Nat.one_mul, Nat.cast_one, one_mul, one_mul] at h

/-- The last grid that is searched for a significand of 53 bits is as fine as a quarter. -/
theorem zpow_le_zpow_of_scale {s p : ℤ} (hlow : -1076 ≤ s) (hhigh : s ≤ 969)
    (hp : p ≤ (s + 55) * 30103 / 100000 - 22) : (10 : ℚ) ^ p ≤ (2 : ℚ) ^ s := by
  obtain ⟨j, hj⟩ : ∃ j : ℕ, 8 * (j : ℤ) - 1076 ≤ s ∧ s ≤ 8 * j - 1069 :=
    ⟨((s + 1076) / 8).toNat, by omega, by omega⟩
  have hfine := (grid_le_quarter_iff _ _).1 (factors_fine j (by omega))
  calc (10 : ℚ) ^ p ≤ (10 : ℚ) ^ ((8 * (j : ℤ) - 1014) * 30103 / 100000 - 22) :=
        zpow_le_zpow_right₀ (by norm_num) (by omega)
    _ ≤ (2 : ℚ) ^ (8 * (j : ℤ) - 1076) := hfine
    _ ≤ (2 : ℚ) ^ s := zpow_le_zpow_right₀ (by norm_num) hj.1

theorem significand_lt (x : Binary64) : x.significand < 2 ^ 53 := by
  have hfraction : x.fraction.val < 2 ^ 52 := x.fraction.isLt
  have hcases : x.significand = x.fraction.val ∨ x.significand = 2 ^ 52 + x.fraction.val := by
    unfold Binary64.significand
    split_ifs
    · exact .inl rfl
    · exact .inr rfl
  omega

theorem scale_bounds {x : Binary64} (hx : x.isFinite = true) :
    -1074 ≤ x.scale ∧ x.scale ≤ 971 := by
  have hexponent : x.exponent.val < 2047 := by simpa [Binary64.isFinite] using hx
  unfold Binary64.scale
  omega

/-- **The shortest decimal of a value reads back as the value.** -/
theorem contains_decimal {x : Binary64} (hx : x.isFinite = true) (hpos : x.significand ≠ 0) :
    (Interval.of x).Contains (decimal x).value := by
  have hbits : Nat.log2 x.significand < 53 := (Nat.log2_lt hpos).2 (significand_lt x)
  obtain ⟨hlow, hhigh⟩ := scale_bounds hx
  rw [decimal, if_neg hpos]
  refine contains_search 24 _ ⟨23, by omega, onGrid?_ne_none ?_ ?_ ?_⟩
  · simp only [Interval.of]
    split_ifs <;> omega
  · simp only [Interval.of]
    omega
  · rw [grid_le_quarter_iff]
    refine zpow_le_zpow_of_scale ?_ ?_ ?_ <;> simp only [Interval.of, above] <;> omega

/-! ### Intervals of neighbours -/

/-- The exponent and fraction fields of a value, read as one number. -/
def magnitude (x : Binary64) : ℕ := x.exponent.val * 2 ^ 52 + x.fraction.val

/-- The interval of the value with given exponent and fraction fields. -/
def Interval.ofFields (e f : ℕ) : Interval :=
  let m := if e = 0 then f else 2 ^ 52 + f
  { low := 4 * m - (if f = 0 && 1 < e then 1 else 2)
    middle := 4 * m
    high := 4 * m + 2
    scale := max 1 (e : ℤ) - 1075 - 2
    closed := m % 2 == 0 }

/-- The interval of the value with a given magnitude. -/
def Interval.ofMagnitude (n : ℕ) : Interval := .ofFields (n / 2 ^ 52) (n % 2 ^ 52)

theorem magnitude_div (x : Binary64) : magnitude x / 2 ^ 52 = x.exponent.val := by
  have hfraction : x.fraction.val < 2 ^ 52 := x.fraction.isLt
  unfold magnitude
  omega

theorem magnitude_mod (x : Binary64) : magnitude x % 2 ^ 52 = x.fraction.val := by
  have hfraction : x.fraction.val < 2 ^ 52 := x.fraction.isLt
  unfold magnitude
  omega

theorem of_eq_ofMagnitude (x : Binary64) :
    Interval.of x = Interval.ofMagnitude (magnitude x) := by
  rw [Interval.ofMagnitude, magnitude_div, magnitude_mod]
  rfl

namespace Interval

/-- The lower end of the interval. -/
def lower (i : Interval) : ℚ := i.low * (2 : ℚ) ^ i.scale

/-- The upper end of the interval. -/
def upper (i : Interval) : ℚ := i.high * (2 : ℚ) ^ i.scale

/-- The next value has the next fraction. -/
theorem lower_next (e f : ℕ) : (ofFields e (f + 1)).lower = (ofFields e f).upper := by
  have hlow : (ofFields e (f + 1)).low = (ofFields e f).high := by
    simp only [ofFields, Nat.succ_ne_zero, decide_false, Bool.false_and, Bool.false_eq_true,
      if_false]
    split_ifs <;> omega
  rw [lower, upper, hlow]
  rfl

/-- The next value has the next exponent; behind the values without a leading bit the unit is the
same, and else it doubles. -/
theorem lower_carry (e : ℕ) : (ofFields (e + 1) 0).lower = (ofFields e (2 ^ 52 - 1)).upper := by
  cases e with
  | zero =>
    have hlow : (ofFields (0 + 1) 0).low = (ofFields 0 (2 ^ 52 - 1)).high := by decide
    rw [lower, upper, hlow]
    rfl
  | succ e =>
    have hhigh : (ofFields (e + 1) (2 ^ 52 - 1)).high = 2 * (ofFields (e + 1 + 1) 0).low := by
      simp [ofFields]
    have hscale : (ofFields (e + 1 + 1) 0).scale = (ofFields (e + 1) (2 ^ 52 - 1)).scale + 1 := by
      simp only [ofFields]
      omega
    rw [lower, upper, hhigh, hscale, zpow_add_one₀ (by norm_num)]
    push_cast
    ring

/-- **The interval of a value starts where that of the value below it ends.** -/
theorem lower_succ (n : ℕ) : (ofMagnitude (n + 1)).lower = (ofMagnitude n).upper := by
  rw [ofMagnitude, ofMagnitude]
  rcases Nat.lt_or_ge (n % 2 ^ 52 + 1) (2 ^ 52) with hnext | hlast
  · have hdiv : (n + 1) / 2 ^ 52 = n / 2 ^ 52 := by omega
    have hmod : (n + 1) % 2 ^ 52 = n % 2 ^ 52 + 1 := by omega
    rw [hdiv, hmod]
    exact lower_next _ _
  · have hdiv : (n + 1) / 2 ^ 52 = n / 2 ^ 52 + 1 := by omega
    have hmod : (n + 1) % 2 ^ 52 = 0 := by omega
    have hend : n % 2 ^ 52 = 2 ^ 52 - 1 := by omega
    rw [hdiv, hmod, hend]
    exact lower_carry _

theorem lower_lt_upper (n : ℕ) : (ofMagnitude n).lower < (ofMagnitude n).upper := by
  have hlt : (ofMagnitude n).low < (ofMagnitude n).high := by
    simp only [ofMagnitude, ofFields]
    split_ifs <;> omega
  have hpos : (0 : ℚ) < 2 ^ (ofMagnitude n).scale := by positivity
  exact mul_lt_mul_of_pos_right (by exact_mod_cast hlt) hpos

theorem upper_strictMono : StrictMono fun n => (ofMagnitude n).upper :=
  strictMono_nat_of_lt_succ fun n => lower_succ n ▸ lower_lt_upper (n + 1)

/-- The ends belong to the interval of every second value. -/
theorem closed_iff (n : ℕ) : (ofMagnitude n).closed = true ↔ n % 2 = 0 := by
  simp only [ofMagnitude, ofFields, beq_iff_eq]
  split_ifs <;> omega

/-- Of two magnitudes, a number in both intervals belongs to the smaller one only. -/
theorem not_contains_of_lt {n n' : ℕ} (hlt : n < n') {r : ℚ} (h : (ofMagnitude n).Contains r)
    (h' : (ofMagnitude n').Contains r) : False := by
  obtain ⟨k, rfl⟩ : ∃ k, n' = k + 1 := ⟨n' - 1, by omega⟩
  have hupper : r ≤ (ofMagnitude n).upper := h.bounds.2
  have hlower : (ofMagnitude k).upper ≤ r := lower_succ k ▸ h'.bounds.1
  have hk : k = n := by
    have hle := upper_strictMono.le_iff_le.1 (hlower.trans hupper)
    omega
  subst hk
  -- the number is the end that both share, so both significands would be even
  have hend : r = (ofMagnitude k).upper := le_antisymm hupper hlower
  have hclosed : (ofMagnitude k).closed = true := by
    by_contra hopen
    rw [Contains, if_neg hopen] at h
    exact absurd hend h.2.ne
  have hclosed' : (ofMagnitude (k + 1)).closed = true := by
    by_contra hopen
    rw [Contains, if_neg hopen] at h'
    exact absurd (hend.trans (lower_succ k).symm) h'.1.ne'
  rw [closed_iff] at hclosed hclosed'
  omega

/-- **Numbers are in the order of the values that they read back as.** -/
theorem lt_of_contains {n n' : ℕ} (hlt : n < n') {r r' : ℚ} (h : (ofMagnitude n).Contains r)
    (h' : (ofMagnitude n').Contains r') : r < r' := by
  obtain ⟨k, rfl⟩ : ∃ k, n' = k + 1 := ⟨n' - 1, by omega⟩
  have hle : r ≤ r' :=
    calc r ≤ (ofMagnitude n).upper := h.bounds.2
      _ ≤ (ofMagnitude k).upper := upper_strictMono.le_iff_le.2 (by omega)
      _ = (ofMagnitude (k + 1)).lower := (lower_succ k).symm
      _ ≤ r' := h'.bounds.1
  refine lt_of_le_of_ne hle ?_
  rintro rfl
  exact not_contains_of_lt hlt h h'

/-- **The intervals of different magnitudes have no number in common.** -/
theorem eq_of_contains {n n' : ℕ} {r : ℚ} (h : (ofMagnitude n).Contains r)
    (h' : (ofMagnitude n').Contains r) : n = n' := by
  rcases Nat.lt_trichotomy n n' with hlt | heq | hlt
  · exact absurd (lt_of_contains hlt h h') (lt_irrefl r)
  · exact heq
  · exact absurd (lt_of_contains hlt h' h) (lt_irrefl r)

end Interval

theorem magnitude_eq_of_contains {x y : Binary64} {r : ℚ} (hx : (Interval.of x).Contains r)
    (hy : (Interval.of y).Contains r) : magnitude x = magnitude y := by
  rw [of_eq_ofMagnitude] at hx hy
  exact Interval.eq_of_contains hx hy

theorem eq_of_magnitude {x y : Binary64} (hsign : x.negative = y.negative)
    (h : magnitude x = magnitude y) : x = y := by
  have hx : x.fraction.val < 2 ^ 52 := x.fraction.isLt
  have hy : y.fraction.val < 2 ^ 52 := y.fraction.isLt
  unfold magnitude at h
  have hexponent : x.exponent = y.exponent := Fin.ext (by omega)
  have hfraction : x.fraction = y.fraction := Fin.ext (by omega)
  cases x
  cases y
  simp_all

/-- The decimal of a value is zero for zero only. -/
theorem decimal_value_pos {x : Binary64} (hx : x.isFinite = true) (hpos : x.significand ≠ 0) :
    0 < (decimal x).value := by
  have hlow : 0 < (Interval.of x).low := by
    simp only [Interval.of]
    split_ifs <;> omega
  have hbelow := (contains_decimal hx hpos).bounds.1
  have hlower : (0 : ℚ) < (Interval.of x).low * (2 : ℚ) ^ (Interval.of x).scale :=
    mul_pos (by exact_mod_cast hlow) (by positivity)
  exact lt_of_lt_of_le hlower hbelow

theorem magnitude_eq_zero {x : Binary64} (h : x.significand = 0) : magnitude x = 0 := by
  have hpow : 0 < Nat.pow 2 52 := by decide
  unfold Binary64.significand at h
  unfold magnitude
  split_ifs at h with he
  · rw [he, h, Nat.zero_mul]
  · omega

/-- **A value is determined by its sign and its shortest decimal.** -/
theorem eq_of_decimal {x y : Binary64} (hx : x.isFinite = true) (hy : y.isFinite = true)
    (hsign : x.negative = y.negative) (h : (decimal x).value = (decimal y).value) : x = y := by
  have hzero : ∀ z : Binary64, z.significand = 0 → (decimal z).value = 0 := by
    intro z hz
    rw [decimal, if_pos hz, Decimal.value, Nat.cast_zero, zero_mul]
  refine eq_of_magnitude hsign ?_
  by_cases hx₀ : x.significand = 0 <;> by_cases hy₀ : y.significand = 0
  · rw [magnitude_eq_zero hx₀, magnitude_eq_zero hy₀]
  · exact absurd (h.symm.trans (hzero x hx₀)) (decimal_value_pos hy hy₀).ne'
  · exact absurd (h.trans (hzero y hy₀)) (decimal_value_pos hx hx₀).ne'
  · exact magnitude_eq_of_contains (contains_decimal hx hx₀) (h ▸ contains_decimal hy hy₀)

end Shortest

end MiniC
