import MiniC.Proofs.Text.ByteClass
import MiniC.Proofs.Text.Utf8
import MiniC.Text.Quoted

/-!
# Digits and quoted text stay in one line

The digits of a number are digits, in base ten and in base sixteen (`isDigit_of_mem_ofNat`,
`isHexDigit_of_mem_hexOfNat`), and stand for the number (`digitsValue_ofNat`,
`hexDigitsValue_hexPadded`). Text in quotes holds no newline, whatever it quotes
(`Quoted.newline_notMem_text`): a newline is written by its letter, and bytes of longer encodings
lie above the ASCII range.
-/

namespace MiniC

/-! ### Digits -/

namespace Bytes

theorem forall_mem_toDigitsCore {base : Nat} {P : Char → Prop} (hbase : 0 < base)
    (h : ∀ d < base, P d.digitChar) : ∀ (fuel n : Nat) (done : List Char), (∀ c ∈ done, P c) →
      ∀ c ∈ Nat.toDigitsCore base fuel n done, P c
  | 0, _, _, hdone => hdone
  | fuel + 1, n, done, hdone => by
    have hcons : ∀ c ∈ (n % base).digitChar :: done, P c :=
      List.forall_mem_cons.2 ⟨h _ (Nat.mod_lt n hbase), hdone⟩
    rw [Nat.toDigitsCore]
    split_ifs
    · exact hcons
    · exact forall_mem_toDigitsCore hbase h fuel (n / base) _ hcons

theorem isDigit_of_mem_ofNat {n : Nat} {b : UInt8} (h : b ∈ ofNat n) : isDigit b = true := by
  obtain ⟨c, hc, rfl⟩ := List.mem_map.1 h
  exact forall_mem_toDigitsCore (P := fun c => isDigit c.toUInt8 = true) (by decide) (by decide)
    (n + 1) n [] (by simp) c hc

theorem isHexDigit_of_mem_hexOfNat {n : Nat} {b : UInt8} (h : b ∈ hexOfNat n) :
    isHexDigit b = true := by
  obtain ⟨c, hc, rfl⟩ := List.mem_map.1 h
  exact forall_mem_toDigitsCore (P := fun c => isHexDigit c.toUInt8 = true) (by decide) (by decide)
    (n + 1) n [] (by simp) c hc

theorem isHexDigit_of_mem_hexPadded {width n : Nat} {b : UInt8} (h : b ∈ hexPadded width n) :
    isHexDigit b = true := by
  rcases List.mem_append.1 h with hb | hb
  · rw [List.eq_of_mem_replicate hb]
    decide
  · exact isHexDigit_of_mem_hexOfNat hb

/-- The digits of a number, in any base, add up to it. -/
theorem foldl_toDigits {base : Nat} (hbase : 1 < base) {value : UInt8 → Nat}
    (hvalue : ∀ d < base, value d.digitChar.toUInt8 = d) (n : Nat) :
    ((Nat.toDigits base n).map Char.toUInt8).foldl (fun m b => base * m + value b) 0 = n := by
  induction n using Nat.strongRecOn with
  | _ n ih =>
    by_cases hn : n < base
    · rw [Nat.toDigits_of_lt_base hn, List.map_singleton, List.foldl_cons, List.foldl_nil,
        hvalue n hn, Nat.mul_zero, Nat.zero_add]
    · have hfront := ih (n / base) (Nat.div_lt_self (by omega) hbase)
      have hlast := hvalue (n % base) (Nat.mod_lt n (by omega))
      rw [Nat.toDigits_of_base_le hbase (by omega), List.map_append, List.map_singleton,
        List.foldl_append, hfront, List.foldl_cons, List.foldl_nil, hlast, Nat.div_add_mod]

/-- The digits of a number stand for it. -/
theorem digitsValue_ofNat (n : Nat) : digitsValue (ofNat n) = n :=
  foldl_toDigits (by decide) (by decide) n

theorem hexDigitsValue_hexOfNat (n : Nat) : hexDigitsValue (hexOfNat n) = n :=
  foldl_toDigits (by decide) (by decide) n

/-- Zeros in front do not count. -/
theorem hexDigitsValue_replicate_append (k : Nat) (s : Bytes) :
    hexDigitsValue (List.replicate k (ch '0') ++ s) = hexDigitsValue s := by
  induction k with
  | zero => rfl
  | succ k ih => exact ih

/-- The hexadecimal digits of a number stand for it, however many zeros are in front. -/
theorem hexDigitsValue_hexPadded (width n : Nat) : hexDigitsValue (hexPadded width n) = n := by
  rw [hexPadded, padLeft, hexDigitsValue_replicate_append, hexDigitsValue_hexOfNat]

theorem ofNat_ne_nil (n : Nat) : ofNat n ≠ [] := by
  rw [ofNat, Nat.toDigits_eq_if (by omega)]
  split_ifs <;> simp

theorem newline_notMem_ofNat (n : Nat) : (0x0a : UInt8) ∉ ofNat n :=
  fun h => absurd (isDigit_of_mem_ofNat h) (by decide)

theorem newline_notMem_ofInt (n : Int) : (0x0a : UInt8) ∉ ofInt n := by
  cases n with
  | ofNat n => exact newline_notMem_ofNat n
  | negSucc n =>
    rw [ofInt, List.mem_cons, not_or]
    exact ⟨by decide, newline_notMem_ofNat (n + 1)⟩

theorem newline_notMem_hexPadded (width n : Nat) : (0x0a : UInt8) ∉ hexPadded width n :=
  fun h => absurd (isHexDigit_of_mem_hexPadded h) (by decide)

end Bytes

/-! ### Quotes -/

namespace Quoted

theorem ne_newline_of_letter? {n : Nat} {b : UInt8} (h : letter? n = some b) : b ≠ 0x0a := by
  unfold letter? at h
  split at h <;> cases h <;> decide

theorem newline_notMem_escapedByte (b : UInt8) : (0x0a : UInt8) ∉ escapedByte b := by
  rw [escapedByte, List.mem_append, not_or]
  exact ⟨by decide, Bytes.newline_notMem_hexPadded 2 _⟩

theorem newline_notMem_escapedCode {n : Nat} (h : n < 0x110000) :
    (0x0a : UInt8) ∉ escapedCode (ch '"') n := by
  unfold escapedCode
  by_cases hquote : n = (ch '"').toNat ∨ n = (ch '\\').toNat
  · rw [if_pos (by simpa using hquote)]
    rcases hquote with rfl | rfl <;> decide
  rw [if_neg (by simpa using hquote)]
  by_cases hprint : Printable.isPrintable n = true
  · rw [if_pos hprint]
    intro hmem
    obtain rfl : (0x0a : UInt8).toNat = n :=
      (Utf8.toNat_of_mem_encodeNat h hmem).resolve_right (by decide)
    revert hprint
    decide +kernel
  rw [if_neg hprint]
  cases hletter : letter? n with
  | some b =>
    have hne := ne_newline_of_letter? hletter
    simp only [List.mem_cons, List.not_mem_nil, or_false, not_or]
    exact ⟨by decide, hne.symm⟩
  | none =>
    dsimp only
    split_ifs
    · exact newline_notMem_escapedByte _
    · rw [List.mem_append, not_or]
      exact ⟨by decide, Bytes.newline_notMem_hexPadded 4 n⟩
    · rw [List.mem_append, not_or]
      exact ⟨by decide, Bytes.newline_notMem_hexPadded 8 n⟩

/-- **Quoted text holds no newline.** -/
theorem newline_notMem_text (s : Bytes) : (0x0a : UInt8) ∉ text s := by
  have hpiece : ∀ p : Utf8.Piece, (0x0a : UInt8) ∉ escapedPiece p := by
    intro p
    cases p with
    | char c =>
      have hvalid := Utf8.toNat_bounds c
      exact newline_notMem_escapedCode (by omega)
    | stray b => exact newline_notMem_escapedByte b
  intro h
  simp only [text, List.cons_append, List.mem_cons, List.mem_append, List.mem_flatMap,
    List.not_mem_nil, or_false] at h
  rcases h with h | ⟨p, -, hp⟩ | h
  · revert h
    decide
  · exact hpiece p hp
  · revert h
    decide

end Quoted

end MiniC
