import MiniC.Proofs.Text.Quoted

/-!
# Reading quoted text back

What is written between quotes says what was quoted. Between double quotes each piece of a text is
read back by `decodeNext?`, whatever follows it (`decodeNext?_escapedPiece`), so the text is read
back up to the closing quote (`unquoted_text`). A character between single quotes differs in the
two quotes only (`characterNext?_escapedCode`).
-/

namespace MiniC

theorem Bytes.length_hexPadded {width n : Nat} (hwidth : 0 < width) (h : n < Nat.pow 16 width) :
    (hexPadded width n).length = width := by
  have hle : (Nat.toDigits 16 n).length ≤ width :=
    (Nat.length_toDigits_le_iff (by decide) hwidth).2 h
  simp only [hexPadded, padLeft, hexOfNat, List.length_append, List.length_replicate,
    List.length_map]
  omega

namespace Quoted

/-! ### One piece -/

theorem fixedDigits?_hexPadded {width n : Nat} (hwidth : 0 < width) (h : n < Nat.pow 16 width)
    (r : Bytes) : fixedDigits? isHexDigit width (Bytes.hexPadded width n ++ r) =
      some (Bytes.hexPadded width n, r) := by
  have hlength := Bytes.length_hexPadded hwidth h
  have htake : (Bytes.hexPadded width n ++ r).take width = Bytes.hexPadded width n := by
    rw [List.take_append_of_le_length (by omega), List.take_of_length_le (by omega)]
  have hdrop : (Bytes.hexPadded width n ++ r).drop width = r := List.drop_left' hlength
  have hall : (Bytes.hexPadded width n).all isHexDigit = true :=
    List.all_eq_true.2 fun _ => Bytes.isHexDigit_of_mem_hexPadded
  rw [fixedDigits?, htake, hdrop, hlength, hall]
  simp

theorem characterEscape?_hexPadded {width : Nat} (hwidth : 0 < width) (c : Char)
    (h : c.toNat < Nat.pow 16 width) (r : Bytes) :
    characterEscape? width (Bytes.hexPadded width c.toNat ++ r) =
      some (Utf8.encodeChar c, r) := by
  have hvalid : c.toNat.isValidChar := c.valid
  simp [characterEscape?, fixedDigits?_hexPadded hwidth h, Bytes.hexDigitsValue_hexPadded, hvalid,
    Utf8.encodeChar]

theorem decodeNext?_escapedByte (b : UInt8) (r : Bytes) :
    decodeNext? (escapedByte b ++ r) = some ([b], r) := by
  have hdigits := fixedDigits?_hexPadded (show 0 < 2 by decide) b.toNat_lt r
  have hstep : decodeNext? (escapedByte b ++ r) =
      (fixedDigits? isHexDigit 2 (Bytes.hexPadded 2 b.toNat ++ r)).map fun d =>
        ([(hexDigitsValue d.1).toUInt8], d.2) := rfl
  rw [hstep, hdigits, Option.map_some, Bytes.hexDigitsValue_hexPadded, Utf8.toUInt8_eq rfl]

/-- An encoding starts with the character itself or above the ASCII range. -/
theorem exists_encodeChar_eq_cons (c : Char) : ∃ b rest, Utf8.encodeChar c = b :: rest ∧
    (b.toNat = c.toNat ∨ 0x80 ≤ b.toNat) := by
  obtain ⟨b, rest, hcons⟩ := List.exists_cons_of_ne_nil (Utf8.bytes_ne_nil (.char c))
  have hmem : b ∈ (Utf8.Piece.char c).bytes := hcons ▸ List.mem_cons_self
  exact ⟨b, rest, hcons, Utf8.toNat_of_mem_encodeChar hmem⟩

theorem decodeNext?_encodeChar {c : Char} (hquote : c.toNat ≠ (ch '"').toNat)
    (hslash : c.toNat ≠ (ch '\\').toNat) (hnewline : c.toNat ≠ 0x0a) (r : Bytes) :
    decodeNext? (Utf8.encodeChar c ++ r) = some (Utf8.encodeChar c, r) := by
  obtain ⟨b, rest, hcons, hb⟩ := exists_encodeChar_eq_cons c
  have hnext := Utf8.next?_encodeChar c r
  have hne : ∀ d : UInt8, d.toNat < 0x80 → c.toNat ≠ d.toNat → b ≠ d := by
    rintro d hd hcd rfl
    omega
  have h₁ := hne (ch '\\') (by decide) hslash
  have h₂ := hne (ch '"') (by decide) hquote
  have h₃ := hne 0x0a (by decide) hnewline
  rw [hcons, List.cons_append] at hnext ⊢
  simp [decodeNext?, h₁, h₂, h₃, hnext, hcons]

/-- **What a character is written as between double quotes is read as this character.** -/
theorem decodeNext?_escapedCode (c : Char) (r : Bytes) :
    decodeNext? (escapedCode (ch '"') c.toNat ++ r) = some (Utf8.encodeChar c, r) := by
  have hvalid := Utf8.toNat_bounds c
  unfold escapedCode
  by_cases hquote : c.toNat = (ch '"').toNat ∨ c.toNat = (ch '\\').toNat
  · rw [if_pos (by simpa using hquote), Utf8.encodeChar]
    rcases hquote with hc | hc <;> rw [hc] <;> rfl
  rw [if_neg (by simpa using hquote)]
  obtain ⟨hne, hslash⟩ := not_or.1 hquote
  by_cases hprint : Printable.isPrintable c.toNat = true
  · have hnewline : c.toNat ≠ 0x0a := by
      intro hc
      rw [hc] at hprint
      revert hprint
      decide +kernel
    rw [if_pos hprint]
    exact decodeNext?_encodeChar hne hslash hnewline r
  rw [if_neg hprint]
  cases hletter : letter? c.toNat with
  | some b =>
    rw [Utf8.encodeChar]
    unfold letter? at hletter
    split at hletter <;> cases hletter <;> rw [‹c.toNat = _›] <;> rfl
  | none =>
    dsimp only
    split_ifs with h₁ h₂
    · rw [decodeNext?_escapedByte, Utf8.encodeChar, Utf8.encodeNat, if_pos h₁]
    · exact characterEscape?_hexPadded (show 0 < 4 by decide) c h₂ r
    · exact characterEscape?_hexPadded (show 0 < 8 by decide) c (show _ < 4294967296 by omega) r

theorem decodeNext?_escapedPiece (p : Utf8.Piece) (r : Bytes) :
    decodeNext? (escapedPiece p ++ r) = some (p.bytes, r) := by
  cases p with
  | char c => exact decodeNext?_escapedCode c r
  | stray b => exact decodeNext?_escapedByte b r

/-! ### Text between double quotes -/

/-- The text in front of a closing double quote, and the quote with what follows it. -/
def unquoted (s : Bytes) : Bytes × Bytes :=
  let (parts, rest) := gather decodeNext? s [] s
  (parts.flatten, rest)

theorem gathered_decodeNext? (k : Bytes) (ps : List Utf8.Piece) :
    Gathered decodeNext? (ps.flatMap escapedPiece ++ ch '"' :: k) (ps.map Utf8.Piece.bytes)
      (ch '"' :: k) := by
  induction ps with
  | nil => exact .stop rfl
  | cons p ps ih =>
    have hnext := decodeNext?_escapedPiece p (ps.flatMap escapedPiece ++ ch '"' :: k)
    rw [List.flatMap_cons, List.append_assoc]
    exact .take hnext ih

theorem length_le_flatMap_escapedPiece (ps : List Utf8.Piece) :
    ps.length ≤ (ps.flatMap escapedPiece).length := by
  have hpos : ∀ p, 0 < (escapedPiece p).length := by
    intro p
    refine List.length_pos_iff.2 fun hnil => ?_
    have hnext := decodeNext?_escapedPiece p []
    rw [hnil] at hnext
    cases hnext
  induction ps with
  | nil => exact Nat.le_refl 0
  | cons p ps ih =>
    have := hpos p
    rw [List.flatMap_cons, List.length_append, List.length_cons]
    omega

/-- **Text in double quotes is read back.** -/
theorem unquoted_text (s k : Bytes) :
    unquoted ((Utf8.pieces s).flatMap escapedPiece ++ ch '"' :: k) = (s, ch '"' :: k) := by
  have hlength := length_le_flatMap_escapedPiece (Utf8.pieces s)
  have hgather := (gathered_decodeNext? k (Utf8.pieces s)).gather_of_length_le
    ((Utf8.pieces s).flatMap escapedPiece ++ ch '"' :: k) []
    (by rw [List.length_map, List.length_append]; omega)
  have hbytes : ((Utf8.pieces s).map Utf8.Piece.bytes).flatten = Utf8.encode (Utf8.pieces s) :=
    (List.flatMap_def).symm
  rw [unquoted, hgather]
  simp [hbytes, Utf8.encode_pieces]

/-! ### A character between single quotes -/

/-- The code of the character that an encoding stands for. -/
def codeOf (bytes : Bytes) : UInt8 :=
  match Utf8.next? bytes with
  | some (.char c, _) => c.toNat.toUInt8
  | _ => 0

/-- The character that the text starts with, read between single quotes, and the text after it. -/
def characterNext? (s : Bytes) : Option (UInt8 × Bytes) :=
  if (ascii "\"").isPrefixOf s then some (ch '"', s.drop 1)
  else if (ascii "\\'").isPrefixOf s then some (ch '\'', s.drop 2)
  else (decodeNext? s).map fun d => (codeOf d.1, d.2)

theorem codeOf_encodeChar (c : UInt8) : codeOf (Utf8.encodeChar (Char.ofNat c.toNat)) = c := by
  have hlt := c.toNat_lt
  have hvalid : c.toNat.isValidChar := .inl (by omega)
  have hnext := Utf8.next?_encodeChar (Char.ofNat c.toNat) []
  rw [List.append_nil] at hnext
  rw [codeOf, hnext]
  exact Utf8.toUInt8_eq (Utf8.toNat_ofNat_of_isValidChar hvalid)

/-- Where no quote is concerned the kind of the quotes does not matter. -/
theorem escapedCode_of_ne {p q : UInt8} {n : Nat} (h : n ≠ p.toNat) (h' : n ≠ q.toNat) :
    escapedCode p n = escapedCode q n := by
  unfold escapedCode
  simp only [h, h', decide_false]

theorem decodeNext?_escapedQuote (s : Bytes) : decodeNext? (ch '\\' :: ch '\'' :: s) = none := by
  have hdigit : fixedDigits? isOctalDigit 3 (ch '\'' :: s) = none := by
    have hoctal : isOctalDigit (ch '\'') = false := rfl
    simp [fixedDigits?, hoctal]
  obtain ⟨f, hstep⟩ : ∃ f, decodeNext? (ch '\\' :: ch '\'' :: s) =
      (fixedDigits? isOctalDigit 3 (ch '\'' :: s)).bind f := ⟨_, rfl⟩
  rw [hstep, hdigit, Option.bind_none]

/-- **A character in single quotes is read back.** -/
theorem characterNext?_escapedCode (c : UInt8) (r : Bytes) :
    characterNext? (escapedCode (ch '\'') c.toNat ++ r) = some (c, r) := by
  by_cases hdouble : c = ch '"'
  · subst hdouble
    have htext : escapedCode (ch '\'') (ch '"').toNat = [ch '"'] := by decide +kernel
    rw [htext]
    rfl
  by_cases hsingle : c = ch '\''
  · subst hsingle
    rfl
  have hvalid : c.toNat.isValidChar := .inl (by have := c.toNat_lt; omega)
  have hnext := decodeNext?_escapedCode (Char.ofNat c.toNat) r
  rw [Utf8.toNat_ofNat_of_isValidChar hvalid] at hnext
  rw [escapedCode_of_ne (q := ch '"') (fun h => hsingle (UInt8.toNat_inj.1 h))
    (fun h => hdouble (UInt8.toNat_inj.1 h))]
  generalize escapedCode (ch '"') c.toNat ++ r = s at hnext
  have h₁ : ¬ (ascii "\"").isPrefixOf s = true := by
    intro h
    obtain ⟨t, rfl⟩ := List.isPrefixOf_iff_prefix.1 h
    cases hnext
  have h₂ : ¬ (ascii "\\'").isPrefixOf s = true := by
    intro h
    obtain ⟨t, rfl⟩ := List.isPrefixOf_iff_prefix.1 h
    exact absurd ((decodeNext?_escapedQuote t).symm.trans hnext) (by simp)
  rw [characterNext?, if_neg h₁, if_neg h₂, hnext, Option.map_some, codeOf_encodeChar]

end Quoted

end MiniC
