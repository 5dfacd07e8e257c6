import Mathlib
import MiniC.Proofs.Scan.Extension
import MiniC.Proofs.Scan.StringLiteral

/-!
# Spellings of a string

A byte can be written in a string literal as it is, by a letter, by three octal digits or by any
number of hexadecimal digits (`ByteSpelling`). Only the last spelling depends on what follows it:
hexadecimal digits are read as long as there are any. A spelling of a string spells its bytes one
after another (`Spelling`), and is read back as that string.

* `readString_spelling`: the string, and the scanner right behind the closing quote.

The number of an escape sequence has no bound in `Lexeme.escape`. Kept in a register of 64 bits,
into which the digits are shifted, it gives the same byte (`Lexeme.escape_register`).
-/

namespace MiniC.Scan

/-! ### Spellings -/

/-- The escape sequences of one letter, and the bytes they stand for. -/
def letterEscapes : List (UInt8 × UInt8) :=
  [(ch 'a', 0x07), (ch 'b', 0x08), (ch 't', 0x09), (ch 'n', 0x0a), (ch 'v', 0x0b), (ch 'f', 0x0c),
    (ch 'r', 0x0d), (ch '\\', ch '\\'), (ch '\'', ch '\''), (ch '"', ch '"'), (ch '?', ch '?')]

/-- Digits of the given class whose value in the base is the byte, modulo 256. -/
structure DigitsOf (base : Nat) (isDigit : UInt8 → Bool) (b : UInt8) (digits : Bytes) : Prop where
  isDigit : ∀ d ∈ digits, isDigit d = true
  value : Nat.ofDigits base (digits.reverse.map hexValue) ≡ b.toNat [MOD 256]

/-- Ways to write the byte `b` in a string, in front of `rest`. -/
inductive ByteSpelling (rest : Bytes) (b : UInt8) : Bytes → Prop
  | raw : b ≠ ch '"' → b ≠ ch '\\' → ByteSpelling rest b [b]
  | letter {c : UInt8} : (c, b) ∈ letterEscapes → ByteSpelling rest b [ch '\\', c]
  | octal {digits : Bytes} : digits.length = 3 → DigitsOf 8 isOctalDigit b digits →
      ByteSpelling rest b (ch '\\' :: digits)
  | hex {digits : Bytes} : digits ≠ [] → DigitsOf 16 isHexDigit b digits →
      rest.head?.any isHexDigit = false → ByteSpelling rest b (ch '\\' :: ch 'x' :: digits)

/-- Ways to write a string in front of `rest`: its bytes are spelled one after another. -/
inductive Spelling (rest : Bytes) : Bytes → Bytes → Prop
  | nil : Spelling rest [] []
  | cons {b : UInt8} {s w r : Bytes} : ByteSpelling (r ++ rest) b w → Spelling rest s r →
      Spelling rest (b :: s) (w ++ r)

theorem Spelling.append {rest s s' r r' : Bytes} (h : Spelling (r' ++ rest) s r)
    (h' : Spelling rest s' r') : Spelling rest (s ++ s') (r ++ r') := by
  induction h with
  | nil => exact h'
  | @cons b s w r hw _ ih =>
    rw [List.append_assoc]
    exact .cons (by rwa [List.append_assoc]) ih

theorem spelling_raw (rest : Bytes) {s : Bytes} (h : ∀ b ∈ s, b ≠ ch '"' ∧ b ≠ ch '\\') :
    Spelling rest s s := by
  induction s with
  | nil => exact .nil
  | cons b s ih =>
    obtain ⟨⟨hquote, hslash⟩, hs⟩ := List.forall_mem_cons.1 h
    exact .cons (w := [b]) (.raw hquote hslash) (ih hs)

theorem spelling_single {rest w : Bytes} {b : UInt8} (h : ByteSpelling rest b w) :
    Spelling rest [b] w := by
  have hsingle : Spelling rest [b] (w ++ []) := .cons h .nil
  rwa [List.append_nil] at hsingle

/-! ### Digits -/

theorem foldl_eq_ofDigits (base : Nat) (value : UInt8 → Nat) (digits : Bytes) :
    digits.foldl (fun n b => base * n + value b) 0 =
      Nat.ofDigits base (digits.reverse.map value) := by
  rw [Nat.ofDigits_eq_foldr, List.foldr_map, List.foldr_reverse]
  congr 1
  funext n b
  exact Nat.add_comm _ _

theorem hexDigitsValue_eq_ofDigits (digits : Bytes) :
    hexDigitsValue digits = Nat.ofDigits 16 (digits.reverse.map hexValue) :=
  foldl_eq_ofDigits 16 hexValue digits

theorem hexValue_of_isOctalDigit :
    ∀ d : UInt8, isOctalDigit d = true → d.toNat - 48 = hexValue d :=
  forall_byte (by decide +kernel)

theorem octalValue_eq_ofDigits {digits : Bytes} (h : ∀ d ∈ digits, isOctalDigit d = true) :
    Lexeme.octalValue digits = Nat.ofDigits 8 (digits.reverse.map hexValue) := by
  have hvalues : digits.reverse.map (fun d => d.toNat - 48) = digits.reverse.map hexValue :=
    List.map_congr_left fun d hd => hexValue_of_isOctalDigit d (h d (List.mem_reverse.1 hd))
  rw [← hvalues]
  exact foldl_eq_ofDigits 8 (fun d => d.toNat - 48) digits

/-- Numbers count modulo 256 when they become bytes. -/
theorem toUInt8_of_modEq {n : Nat} {b : UInt8} (h : n ≡ b.toNat [MOD 256]) : n.toUInt8 = b := by
  apply UInt8.toNat.inj
  have hn : n.toUInt8.toNat = n % 256 := rfl
  rw [hn, h, Nat.mod_eq_of_lt b.toNat_lt]

/-! ### Digits in a register -/

/-- Digits of `k` bits each, shifted one after another into a register of 64 bits. -/
def register (k : Nat) (value : UInt8 → Nat) (digits : Bytes) : BitVec 64 :=
  digits.foldl (fun v b => v <<< k ||| BitVec.ofNat 64 (value b)) 0

/-- The low byte of a register. -/
def lowByte (v : BitVec 64) : UInt8 := .ofBitVec (v.setWidth 8)

theorem toNat_shiftIn {k d : Nat} (hd : d < 2 ^ k) (v : BitVec 64) :
    (v <<< k ||| BitVec.ofNat 64 d).toNat = (2 ^ k * v.toNat + d) % 2 ^ 64 := by
  rw [BitVec.toNat_or, BitVec.toNat_shiftLeft, BitVec.toNat_ofNat, ← Nat.or_mod_two_pow,
    ← Nat.shiftLeft_add_eq_or_of_lt hd, Nat.shiftLeft_eq, Nat.mul_comm]

/-- The register holds the number modulo its size. -/
theorem toNat_register {k : Nat} {value : UInt8 → Nat} {digits : Bytes}
    (h : ∀ b ∈ digits, value b < 2 ^ k) : (register k value digits).toNat =
      digits.foldl (fun n b => 2 ^ k * n + value b) 0 % 2 ^ 64 := by
  have hfold : ∀ (v : BitVec 64) (n : Nat), v.toNat = n % 2 ^ 64 →
      (digits.foldl (fun (v : BitVec 64) b => v <<< k ||| BitVec.ofNat 64 (value b)) v).toNat =
        digits.foldl (fun n b => 2 ^ k * n + value b) n % 2 ^ 64 := by
    induction digits with
    | nil => exact fun v n hv => hv
    | cons b digits ih =>
      obtain ⟨hb, hdigits⟩ := List.forall_mem_cons.1 h
      intro v n hv
      refine ih hdigits _ _ ?_
      rw [toNat_shiftIn hb, hv, Nat.add_mod, Nat.mul_mod_mod, ← Nat.add_mod]
  exact hfold 0 0 rfl

/-- **The low byte of the register is that of the number.** -/
theorem lowByte_register {k : Nat} {value : UInt8 → Nat} {digits : Bytes}
    (h : ∀ b ∈ digits, value b < 2 ^ k) :
    lowByte (register k value digits) =
      (digits.foldl (fun n b => 2 ^ k * n + value b) 0).toUInt8 := by
  apply UInt8.toNat.inj
  have hlow : (lowByte (register k value digits)).toNat =
      (register k value digits).toNat % 2 ^ 8 := BitVec.toNat_setWidth _ _
  have hdvd : 2 ^ 8 ∣ 2 ^ 64 := Nat.pow_dvd_pow 2 (by decide)
  rw [hlow, toNat_register h, Nat.mod_mod_of_dvd _ hdvd]
  rfl

/-! ### Reading a spelling -/

namespace Lexeme

theorem simpleEscape?_letters : letterEscapes.all (fun p =>
    p.1 ≠ ch 'x' ∧ isOctalDigit p.1 = false ∧ simpleEscape? p.1 = some p.2) = true := by
  decide +kernel

theorem escape_letter {c b : UInt8} (h : (c, b) ∈ letterEscapes) (k : Bytes) :
    escape (c :: k) = ⟨1, .ok b⟩ := by
  obtain ⟨hx, hoctal, hsimple⟩ := of_decide_eq_true (List.all_eq_true.1 simpleEscape?_letters _ h)
  simp [escape, hx, hoctal, hsimple]

theorem ne_x_of_isOctalDigit : ∀ d : UInt8, isOctalDigit d = true → d ≠ ch 'x' :=
  forall_byte (by decide +kernel)

/-- Three octal digits are read, and no more. -/
theorem escape_octal {b : UInt8} {digits : Bytes} (hlength : digits.length = 3)
    (h : DigitsOf 8 isOctalDigit b digits) (k : Bytes) : escape (digits ++ k) = ⟨3, .ok b⟩ := by
  have htaken : ((digits ++ k).take 3).takeWhile isOctalDigit = digits := by
    rw [List.take_append_of_le_length (by omega), List.take_of_length_le (by omega),
      List.takeWhile_eq_self_iff.2 h.isDigit]
  have hvalue : (octalValue digits).toUInt8 = b := by
    rw [octalValue_eq_ofDigits h.isDigit]
    exact toUInt8_of_modEq h.value
  cases digits with
  | nil => cases hlength
  | cons d digits =>
    have hd : isOctalDigit d = true := h.isDigit d List.mem_cons_self
    rw [List.cons_append] at htaken ⊢
    rw [escape, if_neg (ne_x_of_isOctalDigit d hd), if_pos hd]
    simp only [htaken, hvalue, hlength]

/-- Hexadecimal digits are read up to a byte that is none. -/
theorem escape_hex {b : UInt8} {digits : Bytes} (h : DigitsOf 16 isHexDigit b digits) {k : Bytes}
    (hk : k.head?.any isHexDigit = false) :
    escape (ch 'x' :: digits ++ k) = ⟨1 + digits.length, .ok b⟩ := by
  have hvalue : (hexDigitsValue digits).toUInt8 = b := by
    rw [hexDigitsValue_eq_ofDigits]
    exact toUInt8_of_modEq h.value
  rw [List.cons_append, escape, if_pos rfl]
  simp only [takeWhile_append_stop h.isDigit hk, hvalue]

/-- **The number of an escape sequence may be kept in a register of 64 bits.** -/
theorem escape_register (b : UInt8) (rest : Bytes) :
    let hex := rest.takeWhile isHexDigit
    let octal := ((b :: rest).take 3).takeWhile isOctalDigit
    (b = ch 'x' →
      escape (b :: rest) = ⟨1 + hex.length, .ok (lowByte (register 4 hexValue hex))⟩) ∧
    (isOctalDigit b = true → escape (b :: rest) =
      ⟨octal.length, .ok (lowByte (register 3 (fun d => d.toNat - 48) octal))⟩) := by
  intro hex octal
  have hhex : ∀ d : UInt8, isHexDigit d = true → hexValue d < 2 ^ 4 :=
    forall_byte (by decide +kernel)
  have hoctal : ∀ d : UInt8, isOctalDigit d = true → d.toNat - 48 < 2 ^ 3 :=
    forall_byte (by decide +kernel)
  constructor
  · rintro rfl
    have hbyte : lowByte (register 4 hexValue hex) = (hexDigitsValue hex).toUInt8 :=
      lowByte_register fun d hd => hhex d (List.mem_takeWhile_imp hd)
    rw [escape, if_pos rfl, hbyte]
  · intro hb
    have hbyte : lowByte (register 3 (fun d => d.toNat - 48) octal) = (octalValue octal).toUInt8 :=
      lowByte_register fun d hd => hoctal d (List.mem_takeWhile_imp hd)
    rw [escape, if_neg (ne_x_of_isOctalDigit b hb), if_pos hb, hbyte]

theorem character_escape {s : Bytes} {n : Nat} {b : UInt8} (h : escape s = ⟨n, .ok b⟩) :
    character (ch '\\' :: s) = ⟨n + 1, .ok b⟩ := by
  rw [character, if_pos rfl, h, Nat.add_comm]

/-- A spelling of a byte is read as that byte, in front of the text it was made for. -/
theorem character_spelling {rest w : Bytes} {b : UInt8} (h : ByteSpelling rest b w) :
    (w ++ rest).head? ≠ some (ch '"') ∧ character (w ++ rest) = ⟨w.length, .ok b⟩ := by
  have hslash : some (ch '\\') ≠ some (ch '"') := by decide
  cases h with
  | raw hquote hbackslash =>
    refine ⟨fun hb => hquote (Option.some.inj hb), ?_⟩
    rw [List.cons_append, character, if_neg hbackslash]
    rfl
  | letter hc => exact ⟨hslash, character_escape (escape_letter hc _)⟩
  | octal hlength hdigits =>
    refine ⟨hslash, ?_⟩
    rw [List.length_cons, hlength]
    exact character_escape (escape_octal hlength hdigits _)
  | hex _ hdigits hrest =>
    refine ⟨hslash, ?_⟩
    have hread := character_escape (escape_hex hdigits hrest)
    rw [Nat.add_comm 1] at hread
    exact hread

/-- The bytes of a string are read from its spelling, and then what follows. -/
theorem gathered_spelling {rest s r : Bytes} (h : Spelling rest s r) {stop : Nat × Bytes} :
    ∀ {n : Nat} {text : Bytes}, Gathered stringNext? (n, r ++ rest) text stop ↔
      ∃ text', text = s ++ text' ∧ Gathered stringNext? (n + r.length, rest) text' stop := by
  induction h with
  | nil => simp
  | @cons b s w r hw _ ih =>
    intro n text
    obtain ⟨hhead, hread⟩ := character_spelling hw
    have hnext := stringNext?_of_character hhead hread n
    rw [List.drop_left] at hnext
    rw [List.append_assoc, Gathered.take_iff hnext, List.length_append, ← Nat.add_assoc]
    constructor
    · rintro ⟨text', rfl, hrun⟩
      obtain ⟨text'', rfl, hrest⟩ := ih.1 hrun
      exact ⟨text'', rfl, hrest⟩
    · rintro ⟨text', rfl, hrun⟩
      exact ⟨s ++ text', rfl, ih.2 ⟨text', rfl, hrun⟩⟩

/-- **A spelling is read as what it spells.** -/
theorem string_spelling {k s r : Bytes} (h : Spelling (ch '"' :: k) s r) :
    string (ch '"' :: (r ++ ch '"' :: k)) = ⟨r.length + 1 + 1, .ok s⟩ := by
  have hrun : Gathered stringNext? (1, r ++ ch '"' :: k) (s ++ []) (1 + r.length, ch '"' :: k) :=
    (gathered_spelling h).2 ⟨[], rfl, .stop rfl⟩
  rw [string_of_gathered hrun, List.append_nil, Nat.add_comm 1]
  simp [stringEnd]

end Lexeme

/-- The three octal digits of a byte. -/
def octalDigits (b : UInt8) : Bytes := [48 + b / 64, 48 + b / 8 % 8, 48 + b % 8]

theorem digitsOf_octalDigits (b : UInt8) : DigitsOf 8 isOctalDigit b (octalDigits b) := by
  have hdigits : (octalDigits b).all isOctalDigit = true ∧
      Lexeme.octalValue (octalDigits b) = b.toNat :=
    forall_byte (p := fun b => (octalDigits b).all isOctalDigit = true ∧
      Lexeme.octalValue (octalDigits b) = b.toNat) (by decide +kernel) b
  have hclass := List.all_eq_true.1 hdigits.1
  refine ⟨hclass, ?_⟩
  rw [← octalValue_eq_ofDigits hclass, hdigits.2]

/-- Every string has a spelling. -/
theorem exists_spelling (rest s : Bytes) : ∃ r, Spelling rest s r := by
  induction s with
  | nil => exact ⟨[], .nil⟩
  | cons b s ih =>
    obtain ⟨r, hr⟩ := ih
    exact ⟨_, .cons (.octal rfl (digitsOf_octalDigits b)) hr⟩

/-- **Spelling and reading.** Write each byte of a string in any of its spellings, and put the whole
between quotes. Reading gives the string, leaves the scanner right behind the closing quote, and
reports no fault. -/
theorem readString_spelling {s r : Bytes} (h : Spelling [ch '"'] s r) (file : Bytes) (keep : Bool) :
    let literal := ch '"' :: (r ++ [ch '"'])
    ∃ stop, (Scanner.ofText literal file).readString keep = (.ok s, stop) ∧
      stop.cursor.before = literal.reverse ∧ stop.cursor.rest = [] ∧ stop.fault = none := by
  intro literal
  have hstart : Scanner.ofText literal file = ⟨Cursor.ofText literal file, none⟩ :=
    Scanner.ofText_quote _ file
  have hread := Scanner.readsString_of_string (s := Scanner.ofText literal file)
    (by rw [hstart]; rfl) keep (Lexeme.string_spelling h)
  have hlength : r.length + 1 + 1 = literal.length := by simp [literal]
  have hrest : (Cursor.advanceBy literal.length (Cursor.ofText literal file)).rest = [] := by
    simp [Cursor.ofText]
  have hend : (Scanner.advanceBy literal.length (Scanner.ofText literal file)).skip keep =
      ⟨Cursor.advanceBy literal.length (Cursor.ofText literal file), none⟩ := by
    rw [hstart]
    exact Scanner.skip_of_none (Cursor.blank?_of_rest_nil keep hrest)
  have hbefore : (Cursor.advanceBy literal.length (Cursor.ofText literal file)).before =
      literal.reverse := by
    have hall : literal.length ≤ (Cursor.ofText literal file).rest.length := Nat.le_refl _
    rw [Cursor.before_advanceBy hall]
    simp [Cursor.ofText]
  exact ⟨_, by rw [hread.result, hlength, hend], hbefore, hrest, rfl⟩

/-- A newline and a NUL as they are, a quote by its letter, `0xff` by the octal digits of 511, an
`A` by more digits than fit a machine word, and what would start a comment elsewhere. -/
theorem readString_spelling_mixed :
    let s : Bytes := [0x0a, 0x00, ch '"', 0xff, ch 'A', ch '/', ch '*']
    let r := [0x0a] ++ ([0x00] ++ ([ch '\\', ch '"'] ++ (ch '\\' :: ascii "777" ++
      (ch '\\' :: ch 'x' :: ascii "100000000000000000041" ++ ([ch '/'] ++ ([ch '*'] ++ []))))))
    Spelling [ch '"'] s r ∧
    ∃ stop, (Scanner.ofText (ch '"' :: (r ++ [ch '"'])) []).readString true = (.ok s, stop) ∧
      stop.cursor.before = (ch '"' :: (r ++ [ch '"'])).reverse ∧ stop.cursor.rest = [] ∧
      stop.fault = none := by
  intro s r
  have hoctal : DigitsOf 8 isOctalDigit 0xff (ascii "777") :=
    ⟨List.all_eq_true.1 (by decide +kernel), by decide +kernel⟩
  have hhex : DigitsOf 16 isHexDigit (ch 'A') (ascii "100000000000000000041") :=
    ⟨List.all_eq_true.1 (by decide +kernel), by decide +kernel⟩
  have h : Spelling [ch '"'] s r :=
    .cons (.raw (by decide) (by decide)) <| .cons (.raw (by decide) (by decide)) <|
    .cons (.letter (by decide +kernel)) <| .cons (.octal rfl hoctal) <|
    .cons (.hex (by decide) hhex rfl) <| .cons (.raw (by decide) (by decide)) <|
    .cons (.raw (by decide) (by decide)) .nil
  exact ⟨h, readString_spelling h [] true⟩

end MiniC.Scan
