import MiniC.Proofs.Number.Rounding
import MiniC.Proofs.Storage.Initialization

/-!
# What a store leaves in memory

`put_value`: a finite value, taken as a rational number, is stored as its integer part modulo the
width of the type, lowest byte first; NaN and the infinities are stored as zero. No other byte
changes, and the sign of the type makes no difference. The integer part goes toward zero
(`truncate_eq_towardZero`), also for values far beyond the range of any word.
-/

namespace MiniC

/-! ### Integer parts -/

/-- A rational number without its fraction. -/
def towardZero (q : ℚ) : ℤ := if 0 ≤ q then ⌊q⌋ else ⌈q⌉

theorem towardZero_of_nonneg {q : ℚ} (h : 0 ≤ q) : towardZero q = ⌊q⌋ := if_pos h

theorem towardZero_neg (q : ℚ) : towardZero (-q) = -towardZero q := by
  unfold towardZero
  rcases lt_trichotomy q 0 with h | rfl | h
  · rw [if_pos (by linarith), if_neg (by linarith), Int.floor_neg]
  · simp
  · rw [if_neg (by linarith), if_pos h.le, Int.ceil_neg]

namespace Binary64

theorem truncate_eq_towardZero (x : Binary64) : x.truncate = towardZero x.value := by
  have hfloor : towardZero (x.significand * (2 : ℚ) ^ x.scale) =
      ((x.significand * Nat.pow 2 x.scale.toNat / Nat.pow 2 (-x.scale).toNat : ℕ) : ℤ) := by
    rw [towardZero_of_nonneg (by positivity), Shortest.zpow_eq_div 2 x.scale, ← mul_div_assoc,
      Nat.pow_eq, Nat.pow_eq, Int.natCast_ediv, ← Rat.floor_natCast_div_natCast]
    push_cast
    rfl
  unfold truncate value
  cases x.negative with
  | false => rw [if_neg Bool.false_ne_true, if_neg Bool.false_ne_true, one_mul, hfloor]
  | true => rw [if_pos rfl, if_pos rfl, neg_one_mul, towardZero_neg, hfloor]

theorem isFinite_of_isNaN {x : Binary64} (h : x.isNaN = true) : x.isFinite = false := by
  rw [isNaN, Bool.and_eq_true, beq_iff_eq] at h
  simp [isFinite, h.1]

theorem isFinite_of_isInfinite {x : Binary64} (h : x.isInfinite = true) : x.isFinite = false := by
  rw [isInfinite, Bool.and_eq_true, beq_iff_eq] at h
  simp [isFinite, h.1]

end Binary64

/-! ### Bytes as digits -/

theorem ofDigits_littleEndian (width n : ℕ) :
    Nat.ofDigits 256 ((littleEndian width n).map UInt8.toNat) = n % 256 ^ width := by
  induction width generalizing n with
  | zero => rw [Nat.pow_zero, Nat.mod_one]; rfl
  | succ width ih =>
    have hbyte : (n % 256).toUInt8.toNat = n % 256 := by
      rw [Nat.toUInt8, UInt8.toNat_ofNat', Nat.mod_mod]
    rw [littleEndian, List.map_cons, Nat.ofDigits_cons, ih, hbyte, Nat.pow_succ', Nat.mod_mul]

namespace Storage

variable {n : ℕ}

/-- The bytes from an address on. -/
def Buffer.slice (m : Buffer n) (address width : ℕ) : Bytes := (m.toList.drop address).take width

theorem slice_put (m : Buffer n) {address : ℕ} (t : IntType) (x : Binary64)
    (h : address + t.width ≤ n) : (m.put address t x).slice address t.width = t.encode x := by
  have hsize : m.toList.length = n := Vector.length_toList
  have hparts : m.toList = m.toList.take address ++
      (m.slice address t.width ++ (m.toList.drop address).drop t.width) := by
    rw [Buffer.slice, List.take_append_drop, List.take_append_drop]
  have hfront : (m.toList.take address).length = address :=
    List.length_take_of_le (by omega)
  have hold : (m.slice address t.width).length = (t.encode x).length := by
    rw [Buffer.slice, t.length_encode, List.length_take_of_le]
    rw [List.length_drop]
    omega
  have hstore := toList_store hparts hold
  rw [hfront] at hstore
  rw [Buffer.slice, Buffer.put, hstore, List.drop_left' hfront, List.take_left' (t.length_encode x)]

/-- **What is stored.** The bytes written are the digits of the value to base 256, lowest one first,
once its fraction is cut off and it is reduced modulo the width; zeros stand for what is not finite.
All other bytes stay, and types of one width write the same. -/
theorem put_value (m : Buffer n) {address : ℕ} (t : IntType) (x : Binary64)
    (h : address + t.width ≤ n) :
    (x.isFinite = true →
      ((Nat.ofDigits 256 (((m.put address t x).slice address t.width).map UInt8.toNat) : ℕ) : ℤ) =
        towardZero x.value % 2 ^ (8 * t.width)) ∧
    (x.isNaN = true ∨ x.isInfinite = true →
      (m.put address t x).slice address t.width = List.replicate t.width 0) ∧
    (∀ a < n, a < address ∨ address + t.width ≤ a → (m.put address t x)[a]? = m[a]?) ∧
    ∀ t' : IntType, t'.width = t.width → m.put address t' x = m.put address t x := by
  have hwritten := (slice_put m t x h).trans (t.encode_eq x)
  refine ⟨?_, ?_, ?_, ?_⟩
  · intro hfinite
    -- the modulus of the type divides the one of the first reduction
    have hdvd : (256 ^ t.width : ℤ) ∣ 4294967296 := pow_dvd_pow 256 t.width_le
    rw [hwritten, ofDigits_littleEndian, toNat_storedBits, if_pos hfinite,
      ← x.truncate_eq_towardZero, pow_mul]
    push_cast
    rw [Int.toNat_of_nonneg (Int.emod_nonneg _ (by norm_num)), Int.emod_emod_of_dvd _ hdvd]
  · intro hspecial
    have hnot : x.isFinite = false :=
      hspecial.elim Binary64.isFinite_of_isNaN Binary64.isFinite_of_isInfinite
    rw [hwritten, toNat_storedBits, hnot]
    exact littleEndian_zero t.width
  · intro a ha hout
    rw [getElem?_put m address t x ha, if_neg (by omega)]
  · intro t' hwidth
    rw [Buffer.put, Buffer.put, t'.encode_eq, t.encode_eq, hwidth]

/-- The value -2.5 in the middle of five bytes. -/
theorem put_value_negative :
    let m : Buffer 5 := Vector.replicate 5 0xaa
    let x : Binary64 := ⟨true, ⟨1024, by decide⟩, ⟨1125899906842624, by decide⟩⟩
    1 + IntType.int16.width ≤ 5 ∧ x.isFinite = true ∧ x.value = -5 / 2 ∧
      Nat.ofDigits 256 (((m.put 1 .int16 x).slice 1 2).map UInt8.toNat) = 65534 ∧
      (m.put 1 .int16 x)[0]? = m[0]? ∧ (m.put 1 .int16 x)[3]? = m[3]? ∧
      m.put 1 .uint16 x = m.put 1 .int16 x := by
  intro m x
  have hfit : 1 + IntType.int16.width ≤ 5 := by decide
  have hvalue : x.value = -5 / 2 := by
    norm_num [Binary64.value, Binary64.significand, Binary64.scale, x, Nat.pow_eq]
  have hpart : towardZero (-5 / 2) = -2 := by norm_num [towardZero]
  obtain ⟨hfinite, -, hother, hsign⟩ := put_value m .int16 x hfit
  have hdigits := hfinite rfl
  rw [hvalue, hpart, show (-2 : ℤ) % 2 ^ (8 * IntType.int16.width) = (65534 : ℕ) by decide]
    at hdigits
  exact ⟨hfit, rfl, hvalue, Int.natCast_inj.mp hdigits, hother 0 (by decide) (by decide),
    hother 3 (by decide) (by decide), hsign .uint16 rfl⟩

end Storage

end MiniC
