import MiniC.Proofs.Scan.Escaping
import MiniC.Proofs.Text.Unquoted
import MiniC.Syntax.Printer

/-!
# Which printed strings are read back

Printed text in quotes is not made for the scanner. A character that is neither ASCII nor printable
is printed by its code (`\u`, `\U`), an escape sequence the scanner does not know. A stray byte, or
a control character without a letter, is printed by two hexadecimal digits, and the scanner takes
further digits behind them for the same number. Everything else is a spelling of itself
(`Utf8.Piece.Form`).

* `readString_printed`: a printed string is read back exactly if neither of the two occurs.
-/

namespace MiniC

namespace Utf8.Piece

/-- A character that is neither ASCII nor printable. -/
def isCoded : Piece → Bool
  | .char c => 0x80 ≤ c.toNat && !Printable.isPrintable c.toNat
  | .stray _ => false

/-- A stray byte, or an ASCII control character that has no letter. -/
def isByte : Piece → Bool
  | .char c => c.toNat < 0x07 || (0x0d < c.toNat && c.toNat < 0x20) || c.toNat == 0x7f
  | .stray _ => true

/-- An ASCII character that is a hexadecimal digit. -/
def isHexDigit : Piece → Bool
  | .char c => c.toNat < 0x80 && MiniC.isHexDigit c.toNat.toUInt8
  | .stray _ => false

end Utf8.Piece

/-- What is read back when it was printed. -/
structure Readable (ps : List Utf8.Piece) : Prop where
  known : ∀ p ∈ ps, p.isCoded = false
  apart : ps.IsChain fun p q => p.isByte = true → q.isHexDigit = false

theorem readable_nil : Readable [] := ⟨List.forall_mem_nil _, List.isChain_nil⟩

theorem readable_cons {p : Utf8.Piece} {ps : List Utf8.Piece} : Readable (p :: ps) ↔
    p.isCoded = false ∧ (p.isByte = true → ps.head?.any Utf8.Piece.isHexDigit = false) ∧
      Readable ps := by
  have hhead : (∀ q ∈ ps.head?, p.isByte = true → q.isHexDigit = false) ↔
      (p.isByte = true → ps.head?.any Utf8.Piece.isHexDigit = false) := by
    cases ps <;> simp
  constructor
  · rintro ⟨hknown, hapart⟩
    rw [List.forall_mem_cons] at hknown
    rw [List.isChain_cons, hhead] at hapart
    exact ⟨hknown.1, hapart.1, hknown.2, hapart.2⟩
  · rintro ⟨hcoded, hnext, hknown, hapart⟩
    exact ⟨List.forall_mem_cons.2 ⟨hcoded, hknown⟩, List.isChain_cons.2 ⟨hhead.2 hnext, hapart⟩⟩

/-! ### How a piece is printed -/

namespace Utf8.Piece

open Quoted Scan

/-- The forms in which pieces are printed. -/
inductive Form (p : Piece) : Prop
  | raw : p.isCoded = false → p.isByte = false →
      (∀ b ∈ p.bytes, b ≠ ch '"' ∧ b ≠ ch '\\') → escapedPiece p = p.bytes → Form p
  | letter {c b : UInt8} : p.isCoded = false → p.isByte = false → (c, b) ∈ letterEscapes →
      p.bytes = [b] → escapedPiece p = [ch '\\', c] → Form p
  | byte {b : UInt8} : p.isCoded = false → p.isByte = true → p.bytes = [b] →
      escapedPiece p = escapedByte b → Form p
  | coded {c : UInt8} {w : Bytes} : p.isCoded = true → c = ch 'u' ∨ c = ch 'U' →
      escapedPiece p = ch '\\' :: c :: w → Form p

/-- Of the ranges of printable characters, only the first is in ASCII. -/
theorem isPrintable_ascii {n : Nat} (h : n < 0x80) :
    Printable.isPrintable n = true ↔ 0x20 ≤ n ∧ n < 0x7f := by
  have hfirst : Printable.ranges = (0x20, 0x7e) :: Printable.ranges.tail := rfl
  have hstart : Printable.ranges.tail.all (fun r => 0x80 ≤ r.1) = true := by decide +kernel
  have hothers : Printable.ranges.tail.any (fun r => r.1 ≤ n && n ≤ r.2) = false := by
    refine List.any_eq_false.2 fun r hr hn => ?_
    have hlow : 0x80 ≤ r.1 := of_decide_eq_true (List.all_eq_true.1 hstart r hr)
    simp only [Bool.and_eq_true, decide_eq_true_eq] at hn
    omega
  rw [Printable.isPrintable, hfirst, List.any_cons, hothers, Bool.or_false]
  simp only [Bool.and_eq_true, decide_eq_true_eq]
  omega

theorem exists_letter? {n : Nat} (hlow : 0x07 ≤ n) (hhigh : n ≤ 0x0d) :
    ∃ c, letter? n = some c ∧ (c, n.toUInt8) ∈ letterEscapes := by
  interval_cases n <;> exact ⟨_, rfl, by decide +kernel⟩

theorem letter?_eq_none {n : Nat} (h : n < 0x07 ∨ 0x0d < n) : letter? n = none := by
  unfold letter?
  split <;> first | rfl | omega

theorem bytes_char {c : Char} (h : c.toNat < 0x80) : (char c).bytes = [c.toNat.toUInt8] := by
  rw [bytes, encodeChar, encodeNat, if_pos h]

theorem isCoded_char {c : Char} : (char c).isCoded = true ↔
    0x80 ≤ c.toNat ∧ Printable.isPrintable c.toNat = false := by
  simp [isCoded]

theorem isByte_char {c : Char} : (char c).isByte = true ↔
    c.toNat < 0x07 ∨ 0x0d < c.toNat ∧ c.toNat < 0x20 ∨ c.toNat = 0x7f := by
  simp [isByte, or_assoc]

theorem form_quoted {c : Char} (h : c.toNat = (ch '"').toNat ∨ c.toNat = (ch '\\').toNat) :
    Form (.char c) := by
  have hmem : (c.toNat.toUInt8, c.toNat.toUInt8) ∈ letterEscapes := by
    rcases h with h | h <;> rw [h] <;> decide +kernel
  have hcode : escapedPiece (char c) = [ch '\\', c.toNat.toUInt8] := by
    rw [escapedPiece, escapedCode, if_pos (by simpa using h)]
  have hplain : (char c).isCoded = false ∧ (char c).isByte = false := by
    rcases h with h | h <;> simp only [isCoded, isByte, h] <;> decide
  have hascii : c.toNat < 0x80 := by
    rcases h with h | h <;> rw [h] <;> decide
  exact .letter hplain.1 hplain.2 hmem (bytes_char hascii) hcode

section Unquoted

variable {c : Char} (hquote : c.toNat ≠ (ch '"').toNat) (hslash : c.toNat ≠ (ch '\\').toNat)
include hquote hslash

theorem form_printable (h : Printable.isPrintable c.toNat = true) : Form (.char c) := by
  have hcode : escapedPiece (char c) = (char c).bytes := by
    rw [escapedPiece, escapedCode, if_neg (by simp [hquote, hslash]), if_pos h]
    rfl
  have hbyte : (char c).isByte = false := by
    have hascii := fun hc => (isPrintable_ascii (n := c.toNat) hc).1 h
    rw [← Bool.not_eq_true, isByte_char]
    omega
  refine .raw (by simp [isCoded, h]) hbyte (fun b hb => ?_) hcode
  -- the bytes of longer encodings are not ASCII
  have hb := toNat_of_mem_encodeChar hb
  constructor <;> rintro rfl
  · exact hb.elim (hquote ·.symm) (by decide)
  · exact hb.elim (hslash ·.symm) (by decide)

theorem form_control (h : Printable.isPrintable c.toNat = false) (hascii : c.toNat < 0x80) :
    Form (.char c) := by
  have hcode : escapedPiece (char c) = escapedCode (ch '"') c.toNat := rfl
  have hcoded : (char c).isCoded = false := by
    rw [← Bool.not_eq_true, isCoded_char]
    omega
  by_cases hletter : 0x07 ≤ c.toNat ∧ c.toNat ≤ 0x0d
  · obtain ⟨b, hb, hmem⟩ := exists_letter? hletter.1 hletter.2
    have hbyte : (char c).isByte = false := by
      rw [← Bool.not_eq_true, isByte_char]
      omega
    refine .letter hcoded hbyte hmem (bytes_char hascii) ?_
    simp [hcode, escapedCode, hquote, hslash, h, hb]
  · have hnone := letter?_eq_none (n := c.toNat) (by omega)
    have hcontrol : ¬ (0x20 ≤ c.toNat ∧ c.toNat < 0x7f) := by
      rw [← isPrintable_ascii hascii, h]
      decide
    refine .byte hcoded (isByte_char.2 (by omega)) (bytes_char hascii) ?_
    simp [hcode, escapedCode, hquote, hslash, h, hnone, hascii]

theorem form_coded (h : Printable.isPrintable c.toNat = false) (hascii : ¬ c.toNat < 0x80) :
    Form (.char c) := by
  have hcode : escapedPiece (char c) = escapedCode (ch '"') c.toNat := rfl
  have hcoded : (char c).isCoded = true := isCoded_char.2 ⟨by omega, h⟩
  have hnone := letter?_eq_none (n := c.toNat) (by omega)
  by_cases hn : c.toNat < 0x10000
  · have hshort : escapedPiece (char c) = ascii "\\u" ++ Bytes.hexPadded 4 c.toNat := by
      simp [hcode, escapedCode, hquote, hslash, h, hnone, hascii, hn]
    exact .coded hcoded (.inl rfl) hshort
  · have hlong : escapedPiece (char c) = ascii "\\U" ++ Bytes.hexPadded 8 c.toNat := by
      simp [hcode, escapedCode, hquote, hslash, h, hnone, hascii, hn]
    exact .coded hcoded (.inr rfl) hlong

end Unquoted

theorem form_char (c : Char) : Form (.char c) := by
  by_cases hquote : c.toNat = (ch '"').toNat ∨ c.toNat = (ch '\\').toNat
  · exact form_quoted hquote
  · obtain ⟨hquote, hslash⟩ := not_or.1 hquote
    cases h : Printable.isPrintable c.toNat with
    | true => exact form_printable hquote hslash h
    | false =>
      by_cases hascii : c.toNat < 0x80
      · exact form_control hquote hslash h hascii
      · exact form_coded hquote hslash h hascii

theorem form : ∀ p : Piece, Form p
  | .char c => form_char c
  | .stray _ => .byte rfl rfl rfl rfl

theorem escapedCode_of_isHexDigit :
    ∀ d : UInt8, MiniC.isHexDigit d = true → escapedCode (ch '"') d.toNat = [d] :=
  forall_byte (by decide +kernel)

theorem toNat_lt_of_isHexDigit : ∀ d : UInt8, MiniC.isHexDigit d = true → d.toNat < 0x80 :=
  forall_byte (by decide +kernel)

/-- A hexadecimal digit is printed as it is. -/
theorem exists_digit {p : Piece} (h : p.isHexDigit = true) :
    ∃ d, MiniC.isHexDigit d = true ∧ p.bytes = [d] ∧ escapedPiece p = [d] := by
  cases p with
  | stray b => cases h
  | char c =>
    simp only [isHexDigit, Bool.and_eq_true, decide_eq_true_eq] at h
    have hcode := escapedCode_of_isHexDigit _ h.2
    have htoNat : c.toNat.toUInt8.toNat = c.toNat :=
      UInt8.toNat_ofNat_of_lt' (Nat.lt_trans h.1 (by decide))
    rw [htoNat] at hcode
    exact ⟨c.toNat.toUInt8, h.2, bytes_char h.1, hcode⟩

theorem isHexDigit_of_head {c : Char} {b : UInt8} {w : Bytes} (h : encodeChar c = b :: w)
    (hb : MiniC.isHexDigit b = true) : (char c).isHexDigit = true := by
  have hlt := toNat_lt_of_isHexDigit b hb
  have hmem : b ∈ encodeChar c := by simp [h]
  have hc : c.toNat = b.toNat := ((toNat_of_mem_encodeChar hmem).resolve_right (by omega)).symm
  simp [isHexDigit, hc, hb, hlt]

/-- Only a hexadecimal digit is printed with one in front. -/
theorem exists_escapedPiece_eq_cons (p : Piece) :
    ∃ b w, escapedPiece p = b :: w ∧ MiniC.isHexDigit b = p.isHexDigit := by
  cases hp : p.isHexDigit with
  | true =>
    obtain ⟨d, hd, -, hcode⟩ := exists_digit hp
    exact ⟨d, [], hcode, hd⟩
  | false =>
    cases p.form with
    | raw _ hbyte _ hcode =>
      cases p with
      | stray b => cases hbyte
      | char c =>
        obtain ⟨b, w, hcons, -⟩ := exists_encodeChar_eq_cons c
        refine ⟨b, w, hcode.trans hcons, ?_⟩
        rw [← Bool.not_eq_true]
        intro hb
        cases hp.symm.trans (isHexDigit_of_head hcons hb)
    | letter _ _ _ _ hcode => exact ⟨_, _, hcode, rfl⟩
    | byte _ _ _ hcode => exact ⟨_, _, hcode, rfl⟩
    | coded _ _ hcode => exact ⟨_, _, hcode, rfl⟩

end Utf8.Piece

/-! ### Reading what was printed -/

namespace Scan

open Quoted Utf8

theorem exists_digitsOf {digits : Bytes} (h : ∀ d ∈ digits, isHexDigit d = true) :
    ∃ b, DigitsOf 16 isHexDigit b digits :=
  ⟨(Nat.ofDigits 16 (digits.reverse.map hexValue)).toUInt8, h, (Nat.mod_modEq _ 256).symm⟩

theorem hexPadded_ne_nil (b : UInt8) : Bytes.hexPadded 2 b.toNat ≠ [] := by
  have hlength := Bytes.length_hexPadded (show 0 < 2 by decide) b.toNat_lt
  exact List.ne_nil_of_length_pos (by omega)

theorem digitsOf_hexPadded (b : UInt8) : DigitsOf 16 isHexDigit b (Bytes.hexPadded 2 b.toNat) := by
  refine ⟨fun d => Bytes.isHexDigit_of_mem_hexPadded, ?_⟩
  rw [← hexDigitsValue_eq_ofDigits, Bytes.hexDigitsValue_hexPadded]

/-- The pieces that are printed as spellings. -/
theorem spelling_piece {p : Piece} (rest : Bytes) (hcoded : p.isCoded = false)
    (hrest : p.isByte = true → rest.head?.any isHexDigit = false) :
    Spelling rest p.bytes (escapedPiece p) := by
  cases p.form with
  | raw _ _ hplain hcode =>
    rw [hcode]
    exact spelling_raw rest hplain
  | letter _ _ hmem hbytes hcode =>
    rw [hbytes, hcode]
    exact spelling_single (.letter hmem)
  | @byte b _ hbyte hbytes hcode =>
    rw [hbytes, hcode]
    exact spelling_single (.hex (hexPadded_ne_nil b) (digitsOf_hexPadded b) (hrest hbyte))
  | coded h => cases hcoded.symm.trans h

theorem head_printed {k : Bytes} (hk : k.head?.any isHexDigit = false) (ps : List Piece) :
    (ps.flatMap escapedPiece ++ k).head?.any isHexDigit = ps.head?.any Piece.isHexDigit := by
  cases ps with
  | nil => exact hk
  | cons p ps =>
    obtain ⟨b, w, hcode, hb⟩ := p.exists_escapedPiece_eq_cons
    simp [hcode, hb]

theorem spelling_printed {k : Bytes} (hk : k.head?.any isHexDigit = false) {ps : List Piece}
    (h : Readable ps) : Spelling k (encode ps) (ps.flatMap escapedPiece) := by
  induction ps with
  | nil => exact .nil
  | cons p ps ih =>
    obtain ⟨hcoded, hnext, hps⟩ := readable_cons.1 h
    rw [List.flatMap_cons]
    refine Spelling.append (spelling_piece _ hcoded fun hbyte => ?_) (ih hps)
    rw [head_printed hk, hnext hbyte]

/-- An escape sequence by code stops the scanner. -/
theorem not_gathered_coded {n m : Nat} {c : UInt8} {w k text : Bytes}
    (hc : c = ch 'u' ∨ c = ch 'U') :
    ¬ Gathered Lexeme.stringNext? (n, ch '\\' :: c :: w) text (m, ch '"' :: k) := by
  have hnone : Lexeme.stringNext? (n, ch '\\' :: c :: w) = none := by
    rcases hc with rfl | rfl <;> rfl
  intro h
  cases h with
  | take hnext => cases hnone.symm.trans hnext

/-- The hexadecimal digits at the front. -/
theorem exists_digits (ps : List Piece) : ∃ ds ps', ps = ds ++ ps' ∧
    (∀ p ∈ ds, p.isHexDigit = true) ∧ ps'.head?.any Piece.isHexDigit = false :=
  ⟨_, _, List.takeWhile_append_dropWhile.symm, fun _ => List.mem_takeWhile_imp, head_dropWhile ps⟩

/-- Hexadecimal digits behind a byte that is printed by its digits. -/
theorem printed_digits {ds : List Piece} (h : ∀ p ∈ ds, p.isHexDigit = true) :
    (∀ d ∈ ds.flatMap escapedPiece, isHexDigit d = true) ∧ (encode ds).length = ds.length := by
  induction ds with
  | nil => exact ⟨List.forall_mem_nil _, rfl⟩
  | cons p ds ih =>
    obtain ⟨hp, hds⟩ := List.forall_mem_cons.1 h
    obtain ⟨d, hd, hbytes, hcode⟩ := Piece.exists_digit hp
    obtain ⟨hdigits, hlength⟩ := ih hds
    rw [List.flatMap_cons, hcode]
    refine ⟨List.forall_mem_cons.2 ⟨hd, hdigits⟩, ?_⟩
    rw [encode, List.flatMap_cons, hbytes, ← encode]
    simp [hlength]

/-- A byte printed by its digits is read as one byte, together with all digits behind it. -/
theorem gathered_byte {n : Nat} {b : UInt8} {ds ps : List Piece} {k text : Bytes}
    {stop : Nat × Bytes} (hk : k.head?.any isHexDigit = false)
    (hds : ∀ p ∈ ds, p.isHexDigit = true) (hps : ps.head?.any Piece.isHexDigit = false)
    (h : Gathered Lexeme.stringNext? (n, escapedByte b ++ ((ds ++ ps).flatMap escapedPiece ++ k))
      text stop) :
    ∃ x text' n', text = x :: text' ∧
      Gathered Lexeme.stringNext? (n', ps.flatMap escapedPiece ++ k) text' stop := by
  set digits := Bytes.hexPadded 2 b.toNat ++ ds.flatMap escapedPiece with hdigits
  have hall : ∀ d ∈ digits, isHexDigit d = true := fun d hd =>
    (List.mem_append.1 hd).elim Bytes.isHexDigit_of_mem_hexPadded ((printed_digits hds).1 d)
  obtain ⟨x, hx⟩ := exists_digitsOf hall
  have hspelling : Spelling (ps.flatMap escapedPiece ++ k) [x] (ch '\\' :: ch 'x' :: digits) :=
    spelling_single (.hex (by simp [hdigits, hexPadded_ne_nil]) hx (by rw [head_printed hk, hps]))
  have htext : escapedByte b ++ ((ds ++ ps).flatMap escapedPiece ++ k) =
      (ch '\\' :: ch 'x' :: digits) ++ (ps.flatMap escapedPiece ++ k) := by
    simp [hdigits, escapedByte, ascii]
  rw [htext] at h
  obtain ⟨text', rfl, hrest⟩ := (Lexeme.gathered_spelling hspelling).1 h
  exact ⟨x, text', _, rfl, hrest⟩

/-- `text` is no longer than what the pieces make up, and as long only if they are readable. -/
structure Bounds (ps : List Piece) (text : Bytes) : Prop where
  le : text.length ≤ (encode ps).length
  readable : text.length = (encode ps).length → Readable ps

theorem Bounds.plain {p : Piece} {ps : List Piece} {text : Bytes} (hcoded : p.isCoded = false)
    (hbyte : p.isByte = false) (h : Bounds ps text) : Bounds (p :: ps) (p.bytes ++ text) := by
  have hlength : (encode (p :: ps)).length = p.bytes.length + (encode ps).length := by
    simp [encode]
  have hle := h.le
  constructor
  · rw [hlength, List.length_append]
    omega
  · intro heq
    rw [hlength, List.length_append] at heq
    refine readable_cons.2 ⟨hcoded, fun htrue => ?_, h.readable (by omega)⟩
    cases hbyte.symm.trans htrue

/-- The digits that were taken for a part of the byte are missing in the text. -/
theorem Bounds.byte {p : Piece} {ds ps : List Piece} {b x : UInt8} {text : Bytes}
    (hcoded : p.isCoded = false) (hbytes : p.bytes = [b]) (hds : ∀ q ∈ ds, q.isHexDigit = true)
    (hps : ps.head?.any Piece.isHexDigit = false) (h : Bounds ps text) :
    Bounds (p :: (ds ++ ps)) (x :: text) := by
  have hlength : (encode (p :: (ds ++ ps))).length = 1 + ds.length + (encode ps).length := by
    have hdigits := (printed_digits hds).2
    simp only [encode, List.flatMap_cons, List.flatMap_append, List.length_append, hbytes,
      List.length_cons, List.length_nil] at hdigits ⊢
    omega
  have hle := h.le
  constructor
  · rw [hlength, List.length_cons]
    omega
  · intro heq
    rw [hlength, List.length_cons] at heq
    obtain rfl : ds = [] := List.eq_nil_of_length_eq_zero (by omega)
    rw [List.length_nil] at heq
    exact readable_cons.2 ⟨hcoded, fun _ => hps, h.readable (by omega)⟩

/-- **Reading never makes a printed text longer, and keeps its length only if it is readable.** -/
theorem bounds_of_gathered {k k' : Bytes} {m : Nat} (ps : List Piece) : ∀ {n : Nat} {text : Bytes},
    Gathered Lexeme.stringNext? (n, ps.flatMap escapedPiece ++ ch '"' :: k) text
      (m, ch '"' :: k') → Bounds ps text := by
  -- the digits behind a byte are several pieces at once, so the induction is on the length
  induction hlength : ps.length using Nat.strongRecOn generalizing ps with
  | ind length ih =>
    intro n text hrun
    cases ps with
    | nil =>
      cases hrun with
      | stop _ => exact ⟨Nat.le_refl _, fun _ => readable_nil⟩
      | take hnext => cases hnext
    | cons p ps =>
      have hshorter : ∀ ps' : List Piece, ps'.length ≤ ps.length → ps'.length < length := by
        intro ps' hle
        rw [← hlength, List.length_cons]
        omega
      rw [List.flatMap_cons, List.append_assoc] at hrun
      have hplain : p.isCoded = false → p.isByte = false → Bounds (p :: ps) text := by
        intro hcoded hbyte
        have hspelling := spelling_piece (p := p) (ps.flatMap escapedPiece ++ ch '"' :: k) hcoded
          (by simp [hbyte])
        obtain ⟨text', rfl, hrest⟩ := (Lexeme.gathered_spelling hspelling).1 hrun
        exact .plain hcoded hbyte (ih _ (hshorter ps (Nat.le_refl _)) ps rfl hrest)
      cases p.form with
      | raw hcoded hbyte _ _ => exact hplain hcoded hbyte
      | letter hcoded hbyte _ _ _ => exact hplain hcoded hbyte
      | byte hcoded _ hbytes hcode =>
        rw [hcode] at hrun
        obtain ⟨ds, ps', rfl, hds, hps'⟩ := exists_digits ps
        obtain ⟨x, text', n', rfl, hrest⟩ := gathered_byte rfl hds hps' hrun
        exact .byte hcoded hbytes hds hps' (ih _ (hshorter ps' (by simp)) ps' rfl hrest)
      | coded _ hc hcode =>
        rw [hcode] at hrun
        exact absurd hrun (not_gathered_coded hc)

theorem exists_readString_iff {t file text : Bytes} {keep : Bool} :
    (∃ stop, (Scanner.ofText (ch '"' :: t) file).readString keep = (.ok text, stop)) ↔
      ∃ n, Lexeme.string (ch '"' :: t) = ⟨n, .ok text⟩ := by
  have hrest : (Scanner.ofText (ch '"' :: t) file).cursor.rest = ch '"' :: t := by
    rw [Scanner.ofText_quote]
    rfl
  constructor
  · rintro ⟨stop, h⟩
    obtain ⟨k, hreads⟩ := Scanner.exists_readsString hrest h
    exact ⟨k + 1, hrest ▸ hreads.taken⟩
  · rintro ⟨n, h⟩
    exact ⟨_, Scanner.read_ok (by rw [hrest, h]) _⟩

/-- **Which printed strings are read back.** Every string can be read. Its printed form is read back
as that string exactly if it has no character that is neither ASCII nor printable, and no stray byte
or control character without a letter stands in front of a hexadecimal digit. -/
theorem readString_printed (s file : Bytes) (position : Position) (keep : Bool) :
    (∃ t stop, (Scanner.ofText t file).readString keep = (.ok s, stop)) ∧
    ((∃ stop, (Scanner.ofText (Printer.expr (.string s position)) file).readString keep =
      (.ok s, stop)) ↔ Readable (pieces s)) := by
  constructor
  · obtain ⟨r, hr⟩ := exists_spelling [ch '"'] s
    exact ⟨_, exists_readString_iff.2 ⟨_, Lexeme.string_spelling hr⟩⟩
  have hprinted : Printer.expr (.string s position) =
      ch '"' :: ((pieces s).flatMap escapedPiece ++ [ch '"']) := rfl
  rw [hprinted, exists_readString_iff]
  constructor
  · rintro ⟨n, h⟩
    obtain ⟨m, k, hrun⟩ := Lexeme.exists_gathered_of_string h
    exact (bounds_of_gathered (pieces s) hrun).readable (by rw [encode_pieces])
  · intro h
    have hspelling : Spelling [ch '"'] (encode (pieces s)) ((pieces s).flatMap escapedPiece) :=
      spelling_printed rfl h
    rw [encode_pieces] at hspelling
    exact ⟨_, Lexeme.string_spelling hspelling⟩

/-- A delete character and an `a` are printed as one number of three digits; U+0080 is printed by
its code. -/
theorem readString_printed_changed :
    let read := fun t => ((Scanner.ofText t []).readString true).1
    let print := fun s => Printer.expr (.string s ⟨[], 1⟩)
    read (ascii "\"\\177a\"") = .ok [0x7f, ch 'a'] ∧ print [0x7f, ch 'a'] = ascii "\"\\x7fa\"" ∧
      read (ascii "\"\\x7fa\"") = .ok [0xfa] ∧
    read (ascii "\"\\302\\200\"") = .ok [0xc2, 0x80] ∧ print [0xc2, 0x80] = ascii "\"\\u0080\"" ∧
      ∃ e, read (ascii "\"\\u0080\"") = .error e :=
  ⟨rfl, by decide +kernel, rfl, rfl, by decide +kernel, _, rfl⟩

end Scan

end MiniC
