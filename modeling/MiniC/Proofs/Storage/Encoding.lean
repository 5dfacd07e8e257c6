import MiniC.Proofs.Number.Exact
import MiniC.Storage.Image

/-!
# The bytes of a value

A value is wrapped in stages: its integer part is reduced modulo `2 ^ 32` with the sign it has, the
remainder is kept as a signed word, the word is taken without its sign, and its lowest bytes are
written. All stages together are one reduction (`toNat_storedBits`), and since a byte is not touched
by the reduction modulo a higher power of 256, the bytes in memory are the lowest ones of the
integer part (`IntType.encode_eq`, `IntType.getElem?_encode`).
-/

namespace MiniC

/-! ### Bytes of a number -/

theorem length_littleEndian : ∀ width n, (littleEndian width n).length = width
  | 0, _ => rfl
  | width + 1, n => by rw [littleEndian, List.length_cons, length_littleEndian width]

theorem littleEndian_zero : ∀ width, littleEndian width 0 = List.replicate width 0
  | 0 => rfl
  | width + 1 => by rw [littleEndian, Nat.zero_div, littleEndian_zero width]; rfl

/-- The lowest bytes of a number do not depend on the higher ones. -/
theorem littleEndian_mod : ∀ {width more : Nat} (n : Nat), width ≤ more →
    littleEndian width (n % 256 ^ more) = littleEndian width n
  | 0, _, _, _ => rfl
  | width + 1, 0, _, h => by omega
  | width + 1, more + 1, n, h => by
    have hlow : n % 256 ^ (more + 1) % 256 = n % 256 := by
      rw [Nat.pow_succ', Nat.mod_mul_right_mod]
    have hhigh : n % 256 ^ (more + 1) / 256 = n / 256 % 256 ^ more := by
      rw [Nat.pow_succ', Nat.mod_mul_right_div_self]
    rw [littleEndian, littleEndian, hlow, hhigh, littleEndian_mod _ (by omega)]

theorem getElem?_littleEndian : ∀ (width n k : Nat), (littleEndian width n)[k]? =
    if k < width then some (n / 256 ^ k % 256).toUInt8 else none
  | 0, _, k => by simp [littleEndian]
  | width + 1, n, 0 => by simp [littleEndian]
  | width + 1, n, k + 1 => by
    have hpow : n / 256 / 256 ^ k = n / 256 ^ (k + 1) := by
      rw [Nat.div_div_eq_div_mul, Nat.pow_succ']
    rw [littleEndian, List.getElem?_cons_succ, getElem?_littleEndian width, hpow]
    simp

/-! ### Wrapping -/

/-- A signed remainder and a wrap to 32 bits are a reduction modulo `2 ^ 32`. -/
theorem toNat_wrapped (z : Int) :
    ((Int64.ofInt (z.tmod 4294967296)).toUInt64.toUInt32).toNat = (z % 4294967296).toNat := by
  have hword : (Int64.ofInt (z.tmod 4294967296)).toUInt64.toNat =
      (z.tmod 4294967296 % 18446744073709551616).toNat := by
    change (Int64.ofInt (z.tmod 4294967296)).toBitVec.toNat = _
    rw [Int64.toBitVec_ofInt, BitVec.toNat_ofInt]
    rfl
  -- the signed remainder differs from the number by a multiple of the modulus
  have hz := Int.mul_tdiv_add_tmod z 4294967296
  rw [UInt64.toNat_toUInt32, hword]
  generalize z.tmod 4294967296 = r at hz ⊢
  omega

/-- **The stages of a store are one reduction.** -/
theorem toNat_storedBits (x : Binary64) : (storedBits x).toNat =
    if x.isFinite then (x.truncate % 4294967296).toNat else 0 := by
  unfold storedBits
  split
  · exact toNat_wrapped x.truncate
  · rfl

namespace IntType

theorem width_le (t : IntType) : t.width ≤ 4 := by
  rw [width]
  cases t.size <;> decide

/-- The second wrap, to the width of the type, drops bytes that are not written. -/
theorem encode_eq (t : IntType) (x : Binary64) :
    t.encode x = littleEndian t.width (storedBits x).toNat := by
  obtain ⟨size, sign⟩ := t
  cases size with
  | i8 => exact congrArg (fun b => [b]) UInt8.ofNat_mod_size'.symm
  | i16 =>
    rw [encode, UInt32.toNat_toUInt16]
    exact littleEndian_mod _ (Nat.le_refl 2)
  | i32 => rfl

/-- The bytes of an exact value are those of the number. -/
theorem encode_of_exact (t : IntType) {x : Binary64} {n : Nat} (h : x.Exact n) :
    t.encode x = littleEndian t.width n := by
  have hbits : (storedBits x).toNat = n % 256 ^ 4 := by
    rw [toNat_storedBits, if_pos h.isFinite, h.truncate]
    norm_cast
  rw [encode_eq, hbits, littleEndian_mod n t.width_le]

theorem length_encode (t : IntType) (x : Binary64) : (t.encode x).length = t.width := by
  rw [encode_eq, length_littleEndian]

end IntType

/-- The byte of weight `256 ^ k` of the integer part of a value, in two's complement; zero if the
value is not finite. -/
def Binary64.byte (x : Binary64) (k : Nat) : UInt8 :=
  if x.isFinite then (x.truncate / 256 ^ k % 256).toNat.toUInt8 else 0

/-- The low bytes of an integer are not touched by the reduction modulo `2 ^ 32`. -/
theorem toNat_emod_div (z : Int) {k : Nat} (h : k < 4) :
    (z % 4294967296).toNat / 256 ^ k % 256 = (z / 256 ^ k % 256).toNat := by
  interval_cases k <;> norm_num <;> omega

theorem IntType.getElem?_encode (t : IntType) (x : Binary64) {k : Nat} (h : k < t.width) :
    (t.encode x)[k]? = some (x.byte k) := by
  have h4 : k < 4 := Nat.lt_of_lt_of_le h t.width_le
  rw [encode_eq, getElem?_littleEndian, if_pos h, toNat_storedBits, Binary64.byte]
  split
  · rw [toNat_emod_div _ h4]
  · simp

end MiniC
