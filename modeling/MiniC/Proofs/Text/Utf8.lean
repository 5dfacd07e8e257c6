import Mathlib.Data.List.Basic
import MiniC.Proofs.Text.Gather
import MiniC.Text.Utf8

/-!
# The pieces of a text give it back

`Utf8.next?` cuts the bytes of one piece off a text (`bytes_append_of_next?`), so that the pieces of
a text give the text back (`encode_pieces`), and it cuts off a character where the encoding of one
stands (`next?_encodeChar`). Trimming drops pieces at both ends; what it leaves is a
contiguous part of the text (`Trim.both_infix`).
-/

namespace MiniC

namespace Utf8

/-! ### One character -/

/-- A character is below or above the surrogates. -/
theorem toNat_bounds (c : Char) :
    c.toNat < 0xD800 ∨ 0xDFFF < c.toNat ∧ c.toNat < 0x110000 := c.valid

theorem toNat_ofNat_of_isValidChar {n : Nat} (h : n.isValidChar) : (Char.ofNat n).toNat = n := by
  unfold Char.ofNat
  rw [dif_pos h]
  rfl

theorem toUInt8_eq {n : Nat} {b : UInt8} (h : n = b.toNat) : n.toUInt8 = b := by
  rw [h]
  exact UInt8.ofNat_toNat

theorem within_iff {low high b : UInt8} :
    within low high b = true ↔ low.toNat ≤ b.toNat ∧ b.toNat ≤ high.toNat := by
  simp [within, UInt8.le_iff_toNat_le]

/-- The second byte carries payload, and keeps out overlong forms, surrogates and what lies above
U+10FFFF. -/
theorem isSecond_bounds {b c : UInt8} (h : isSecond b c = true) :
    0x80 ≤ c.toNat ∧ c.toNat ≤ 0xBF ∧ (b.toNat = 0xE0 → 0xA0 ≤ c.toNat) ∧
      (b.toNat = 0xED → c.toNat ≤ 0x9F) ∧ (b.toNat = 0xF0 → 0x90 ≤ c.toNat) ∧
      (b.toNat = 0xF4 → c.toNat ≤ 0x8F) := by
  have hb : ∀ n : Nat, n < 256 → (b.toNat = n ↔ b = UInt8.ofNat n) := by
    intro n hn
    rw [← UInt8.toNat_inj, UInt8.toNat_ofNat_of_lt' hn]
  rw [hb _ (by decide), hb _ (by decide), hb _ (by decide), hb _ (by decide)]
  unfold isSecond secondRange at h
  split_ifs at h with h₁ h₂ h₃ h₄ <;> rw [within_iff] at h <;> simp_all <;> omega

theorem encodeChar_one {b : UInt8} (h : b < 0x80) : encodeChar (Char.ofNat b.toNat) = [b] := by
  have hb : b.toNat < 0x80 := UInt8.lt_iff_toNat_lt.1 h
  have hvalid : b.toNat.isValidChar := .inl (by omega)
  rw [encodeChar, toNat_ofNat_of_isValidChar hvalid, encodeNat, if_pos hb, toUInt8_eq rfl]

theorem encodeChar_two {b c : UInt8} (hb : within 0xC2 0xDF b = true) (hc : isSecond b c = true) :
    encodeChar (Char.ofNat (b.toNat % 32 * 64 + payload c)) = [b, c] := by
  have hlead : 0xC2 ≤ b.toNat ∧ b.toNat ≤ 0xDF := within_iff.1 hb
  obtain ⟨hlow, hhigh, -⟩ := isSecond_bounds hc
  unfold payload
  set n := b.toNat % 32 * 64 + c.toNat % 64 with hn
  have hvalid : n.isValidChar := .inl (by omega)
  rw [encodeChar, toNat_ofNat_of_isValidChar hvalid, encodeNat, if_neg (by omega),
    if_pos (by omega), toUInt8_eq (b := b) (by omega), toUInt8_eq (b := c) (by omega)]

theorem encodeChar_three {b c d : UInt8} (hb : within 0xE0 0xEF b = true)
    (hc : isSecond b c = true) (hd : isTail d = true) :
    encodeChar (Char.ofNat (b.toNat % 16 * 4096 + payload c * 64 + payload d)) = [b, c, d] := by
  have hlead : 0xE0 ≤ b.toNat ∧ b.toNat ≤ 0xEF := within_iff.1 hb
  have hlast : 0x80 ≤ d.toNat ∧ d.toNat ≤ 0xBF := within_iff.1 hd
  obtain ⟨hlow, hhigh, hoverlong, hsurrogate, -⟩ := isSecond_bounds hc
  unfold payload
  set n := b.toNat % 16 * 4096 + c.toNat % 64 * 64 + d.toNat % 64 with hn
  have hvalid : n.isValidChar := by
    unfold Nat.isValidChar
    omega
  rw [encodeChar, toNat_ofNat_of_isValidChar hvalid, encodeNat, if_neg (by omega),
    if_neg (by omega), if_pos (by omega), toUInt8_eq (b := b) (by omega),
    toUInt8_eq (b := c) (by omega), toUInt8_eq (b := d) (by omega)]

theorem encodeChar_four {b c d e : UInt8} (hb : within 0xF0 0xF4 b = true)
    (hc : isSecond b c = true) (hd : isTail d = true) (he : isTail e = true) :
    encodeChar (Char.ofNat (b.toNat % 8 * 262144 + payload c * 4096 + payload d * 64 + payload e)) =
      [b, c, d, e] := by
  have hlead : 0xF0 ≤ b.toNat ∧ b.toNat ≤ 0xF4 := within_iff.1 hb
  have hthird : 0x80 ≤ d.toNat ∧ d.toNat ≤ 0xBF := within_iff.1 hd
  have hlast : 0x80 ≤ e.toNat ∧ e.toNat ≤ 0xBF := within_iff.1 he
  obtain ⟨hlow, hhigh, -, -, hoverlong, hlarge⟩ := isSecond_bounds hc
  unfold payload
  set n := b.toNat % 8 * 262144 + c.toNat % 64 * 4096 + d.toNat % 64 * 64 + e.toNat % 64 with hn
  have hvalid : n.isValidChar := by
    unfold Nat.isValidChar
    omega
  rw [encodeChar, toNat_ofNat_of_isValidChar hvalid, encodeNat, if_neg (by omega),
    if_neg (by omega), if_neg (by omega), toUInt8_eq (b := b) (by omega),
    toUInt8_eq (b := c) (by omega), toUInt8_eq (b := d) (by omega), toUInt8_eq (b := e) (by omega)]

/-- The bytes of a longer encoding lie above the ASCII range. -/
theorem toNat_of_mem_encodeNat {n : Nat} (h : n < 0x110000) {b : UInt8} (hb : b ∈ encodeNat n) :
    b.toNat = n ∨ 0x80 ≤ b.toNat := by
  have hbyte : ∀ m : Nat, m < 256 → m.toUInt8.toNat = m := fun _ => UInt8.toNat_ofNat_of_lt'
  unfold encodeNat at hb
  split_ifs at hb <;> simp only [List.mem_cons, List.not_mem_nil, or_false] at hb
  · left
    rw [hb, hbyte n (by omega)]
  all_goals right
  · rcases hb with rfl | rfl <;> rw [hbyte _ (by omega)] <;> omega
  · rcases hb with rfl | rfl | rfl <;> rw [hbyte _ (by omega)] <;> omega
  · rcases hb with rfl | rfl | rfl | rfl <;> rw [hbyte _ (by omega)] <;> omega

theorem toNat_of_mem_encodeChar {c : Char} {b : UInt8} (hb : b ∈ encodeChar c) :
    b.toNat = c.toNat ∨ 0x80 ≤ b.toNat := by
  have hvalid := toNat_bounds c
  exact toNat_of_mem_encodeNat (by omega) hb

theorem isSecond_of_bounds {b c : UInt8} (hlow : 0x80 ≤ c.toNat) (hhigh : c.toNat ≤ 0xBF)
    (hoverlong : b.toNat = 0xE0 → 0xA0 ≤ c.toNat) (hsurrogate : b.toNat = 0xED → c.toNat ≤ 0x9F)
    (hoverlong' : b.toNat = 0xF0 → 0x90 ≤ c.toNat) (hlarge : b.toNat = 0xF4 → c.toNat ≤ 0x8F) :
    isSecond b c = true := by
  unfold isSecond secondRange
  split_ifs with h₁ h₂ h₃ h₄ <;> rw [within_iff]
  · exact ⟨hoverlong (congrArg UInt8.toNat h₁), hhigh⟩
  · exact ⟨hlow, hsurrogate (congrArg UInt8.toNat h₂)⟩
  · exact ⟨hoverlong' (congrArg UInt8.toNat h₃), hhigh⟩
  · exact ⟨hlow, hlarge (congrArg UInt8.toNat h₄)⟩
  · exact ⟨hlow, hhigh⟩

theorem isTail_of_bounds {b : UInt8} (hlow : 0x80 ≤ b.toNat) (hhigh : b.toNat ≤ 0xBF) :
    isTail b = true := within_iff.2 ⟨hlow, hhigh⟩

section Leads

variable {b : UInt8}

theorem not_lt_of_le (h : 0x80 ≤ b.toNat) : ¬ b < 0x80 := fun hlt =>
  absurd (UInt8.lt_iff_toNat_lt.1 hlt) (Nat.not_lt.2 h)

theorem within_of_bounds {low high : UInt8} (hlow : low.toNat ≤ b.toNat)
    (hhigh : b.toNat ≤ high.toNat) : within low high b = true := within_iff.2 ⟨hlow, hhigh⟩

theorem not_within_of_lt {low high : UInt8} (h : high.toNat < b.toNat) :
    ¬ within low high b = true := fun hb => absurd (within_iff.1 hb).2 (Nat.not_le.2 h)

end Leads

section OneCharacter

variable {c : Char} {b₀ b₁ b₂ b₃ : UInt8} (r : Bytes)

theorem ofNat_eq {n : Nat} (h : n = c.toNat) : Char.ofNat n = c := h ▸ Char.ofNat_toNat c

theorem next?_one (h : c.toNat < 0x80) (h₀ : b₀.toNat = c.toNat) :
    next? (b₀ :: r) = some (.char c, r) := by
  have hascii : b₀ < 0x80 := UInt8.lt_iff_toNat_lt.2 (h₀ ▸ h)
  unfold next?
  dsimp only
  rw [if_pos hascii, ofNat_eq h₀]

theorem next?_two (hlow : 0x80 ≤ c.toNat) (h : c.toNat < 0x800)
    (h₀ : b₀.toNat = 0xC0 + c.toNat / 64) (h₁ : b₁.toNat = 0x80 + c.toNat % 64) :
    next? (b₀ :: b₁ :: r) = some (.char c, r) := by
  have hascii : ¬ b₀ < 0x80 := not_lt_of_le (by omega)
  have hlead : within 0xC2 0xDF b₀ = true :=
    within_of_bounds (show 0xC2 ≤ _ by omega) (show _ ≤ 0xDF by omega)
  have hsecond : isSecond b₀ b₁ = true := by
    apply isSecond_of_bounds <;> omega
  unfold next? payload
  dsimp only
  rw [if_neg hascii, if_pos hlead, if_pos hsecond, ofNat_eq (c := c) (by omega)]

theorem next?_three (hlow : 0x800 ≤ c.toNat) (h : c.toNat < 0x10000)
    (h₀ : b₀.toNat = 0xE0 + c.toNat / 4096) (h₁ : b₁.toNat = 0x80 + c.toNat / 64 % 64)
    (h₂ : b₂.toNat = 0x80 + c.toNat % 64) :
    next? (b₀ :: b₁ :: b₂ :: r) = some (.char c, r) := by
  have hvalid := toNat_bounds c
  have hascii : ¬ b₀ < 0x80 := not_lt_of_le (by omega)
  have htwo : ¬ within 0xC2 0xDF b₀ = true := not_within_of_lt (show 0xDF < _ by omega)
  have hlead : within 0xE0 0xEF b₀ = true :=
    within_of_bounds (show 0xE0 ≤ _ by omega) (show _ ≤ 0xEF by omega)
  have hsecond : isSecond b₀ b₁ = true := by
    apply isSecond_of_bounds <;> omega
  have htail : isTail b₂ = true := isTail_of_bounds (by omega) (by omega)
  unfold next? payload
  dsimp only
  rw [if_neg hascii, if_neg htwo, if_pos hlead, if_pos (Bool.and_eq_true_iff.2 ⟨hsecond, htail⟩),
    ofNat_eq (c := c) (by omega)]

theorem next?_four (hlow : 0x10000 ≤ c.toNat)
    (h₀ : b₀.toNat = 0xF0 + c.toNat / 262144) (h₁ : b₁.toNat = 0x80 + c.toNat / 4096 % 64)
    (h₂ : b₂.toNat = 0x80 + c.toNat / 64 % 64) (h₃ : b₃.toNat = 0x80 + c.toNat % 64) :
    next? (b₀ :: b₁ :: b₂ :: b₃ :: r) = some (.char c, r) := by
  have hvalid := toNat_bounds c
  have hascii : ¬ b₀ < 0x80 := not_lt_of_le (by omega)
  have htwo : ¬ within 0xC2 0xDF b₀ = true := not_within_of_lt (show 0xDF < _ by omega)
  have hthree : ¬ within 0xE0 0xEF b₀ = true := not_within_of_lt (show 0xEF < _ by omega)
  have hlead : within 0xF0 0xF4 b₀ = true :=
    within_of_bounds (show 0xF0 ≤ _ by omega) (show _ ≤ 0xF4 by omega)
  have hsecond : isSecond b₀ b₁ = true := by
    apply isSecond_of_bounds <;> omega
  have htail : isTail b₂ = true := isTail_of_bounds (by omega) (by omega)
  have hlast : isTail b₃ = true := isTail_of_bounds (by omega) (by omega)
  unfold next? payload
  dsimp only
  rw [if_neg hascii, if_neg htwo, if_neg hthree, if_pos hlead, hsecond, htail, hlast,
    ofNat_eq (c := c) (by omega)]
  rfl

/-- **The encoding of a character is cut off as this character.** -/
theorem next?_encodeChar (c : Char) (r : Bytes) :
    next? (encodeChar c ++ r) = some (.char c, r) := by
  have hvalid := toNat_bounds c
  have hbyte : ∀ m : Nat, m < 256 → m.toUInt8.toNat = m := fun _ => UInt8.toNat_ofNat_of_lt'
  rw [encodeChar, encodeNat]
  split_ifs with h₁ h₂ h₃
  · exact next?_one r h₁ (hbyte _ (by omega))
  · exact next?_two r (by omega) h₂ (hbyte _ (by omega)) (hbyte _ (by omega))
  · exact next?_three r (by omega) h₃ (hbyte _ (by omega)) (hbyte _ (by omega))
      (hbyte _ (by omega))
  · exact next?_four r (by omega) (hbyte _ (by omega)) (hbyte _ (by omega)) (hbyte _ (by omega))
      (hbyte _ (by omega))

end OneCharacter

/-! ### A whole text -/

/-- **A piece is cut off with its own bytes.** -/
theorem bytes_append_of_next? {s rest : Bytes} {p : Piece} (h : next? s = some (p, rest)) :
    p.bytes ++ rest = s := by
  cases s with
  | nil => cases h
  | cons b s =>
    unfold next? at h
    dsimp only at h
    split_ifs at h with h₁ h₂ h₃ h₄
    · cases h
      exact congrArg (· ++ rest) (encodeChar_one h₁)
    · split at h
      · next c after =>
        split_ifs at h with hc
        · cases h
          exact congrArg (· ++ rest) (encodeChar_two h₂ hc)
        · cases h
          rfl
      · cases h
        rfl
    · split at h
      · next c d after =>
        split_ifs at h with hc
        · cases h
          rw [Bool.and_eq_true] at hc
          exact congrArg (· ++ rest) (encodeChar_three h₃ hc.1 hc.2)
        · cases h
          rfl
      · cases h
        rfl
    · split at h
      · next c d e after =>
        split_ifs at h with hc
        · cases h
          rw [Bool.and_eq_true, Bool.and_eq_true] at hc
          exact congrArg (· ++ rest) (encodeChar_four h₄ hc.1.1 hc.1.2 hc.2)
        · cases h
          rfl
      · cases h
        rfl
    · cases h
      rfl

theorem bytes_ne_nil (p : Piece) : p.bytes ≠ [] := by
  cases p with
  | stray b => exact List.cons_ne_nil b []
  | char c =>
    rw [Piece.bytes, encodeChar, encodeNat]
    split_ifs <;> exact List.cons_ne_nil _ _

theorem exists_next? (b : UInt8) (s : Bytes) : ∃ r, next? (b :: s) = some r := by
  unfold next?
  dsimp only
  split_ifs
  · exact ⟨_, rfl⟩
  · split
    · split_ifs <;> exact ⟨_, rfl⟩
    · exact ⟨_, rfl⟩
  · split
    · split_ifs <;> exact ⟨_, rfl⟩
    · exact ⟨_, rfl⟩
  · split
    · split_ifs <;> exact ⟨_, rfl⟩
    · exact ⟨_, rfl⟩
  · exact ⟨_, rfl⟩

theorem length_next?_lt (s : Bytes) (p : Piece) (rest : Bytes) (h : next? s = some (p, rest)) :
    rest.length < s.length := by
  have hpos := List.length_pos_iff.2 (bytes_ne_nil p)
  rw [← bytes_append_of_next? h, List.length_append]
  omega

theorem encode_gathered {s stop : Bytes} {ps : List Piece} (h : Gathered next? s ps stop) :
    encode ps ++ stop = s := by
  induction h with
  | stop _ => rfl
  | take hnext _ ih => rw [encode, List.flatMap_cons, List.append_assoc, ← encode, ih,
      bytes_append_of_next? hnext]

/-- **The pieces of a text give it back.** -/
theorem encode_pieces (s : Bytes) : encode (pieces s) = s := by
  obtain ⟨ps, stop, h⟩ := exists_gathered length_next?_lt s
  have hstop : stop = [] := by
    cases stop with
    | nil => rfl
    | cons b stop =>
      obtain ⟨r, hnext⟩ := exists_next? b stop
      cases hnext.symm.trans h.next?_stop
  have hencode := encode_gathered h
  rw [hstop, List.append_nil] at hencode
  rw [pieces, h.gather_eq length_next?_lt (Nat.le_refl _), hencode]

end Utf8

/-- What trimming leaves is a part of the text. -/
theorem Trim.both_infix (s : Bytes) : Trim.both s <:+: s := by
  unfold Trim.both
  dsimp only
  set front := (Utf8.pieces s).dropWhile isWhitePiece with hfront
  have hsuffix : front <:+ Utf8.pieces s := List.dropWhile_suffix _
  have hprefix : (front.reverse.dropWhile isWhitePiece).reverse <+: front := by
    rw [← List.reverse_suffix, List.reverse_reverse]
    exact List.dropWhile_suffix _
  obtain ⟨before, hbefore⟩ := hsuffix
  obtain ⟨behind, hbehind⟩ := hprefix
  refine ⟨Utf8.encode before, Utf8.encode behind, ?_⟩
  set kept := (front.reverse.dropWhile isWhitePiece).reverse
  calc Utf8.encode before ++ Utf8.encode kept ++ Utf8.encode behind
      = Utf8.encode (before ++ (kept ++ behind)) := by simp [Utf8.encode]
    _ = s := by rw [hbehind, hbefore, Utf8.encode_pieces]

end MiniC
