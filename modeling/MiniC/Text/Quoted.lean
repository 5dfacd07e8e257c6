import MiniC.Text.ByteClass
import MiniC.Text.Printable
import MiniC.Text.Utf8

/-!
# Quoted text

Text and characters in quotes, as messages, built-in macros and printed literals show them.
Printable characters stand for themselves, the quote and the backslash are escaped, seven control
characters have a letter (`\n`), and what remains is written by its code. `decode?` reads the same
escapes back; it serves file names in line markers.
-/

namespace MiniC.Quoted

/-- The letter of a control character that has one. -/
def letter? (n : Nat) : Option UInt8 :=
  match n with
  | 0x07 => some (ch 'a')
  | 0x08 => some (ch 'b')
  | 0x09 => some (ch 't')
  | 0x0a => some (ch 'n')
  | 0x0b => some (ch 'v')
  | 0x0c => some (ch 'f')
  | 0x0d => some (ch 'r')
  | _ => none

/-- A byte by its two hexadecimal digits. -/
def escapedByte (b : UInt8) : Bytes := ascii "\\x" ++ Bytes.hexPadded 2 b.toNat

/-- The code point `n` between quotes of the given kind. -/
def escapedCode (quote : UInt8) (n : Nat) : Bytes :=
  if n = quote.toNat || n = (ch '\\').toNat then [ch '\\', n.toUInt8]
  else if Printable.isPrintable n then Utf8.encodeNat n
  else
    match letter? n with
    | some b => [ch '\\', b]
    | none =>
      if n < 0x80 then escapedByte n.toUInt8
      else if n < 0x10000 then ascii "\\u" ++ Bytes.hexPadded 4 n
      else ascii "\\U" ++ Bytes.hexPadded 8 n

/-- A piece of text between double quotes. -/
def escapedPiece : Utf8.Piece → Bytes
  | .char c => escapedCode (ch '"') c.toNat
  | .stray b => escapedByte b

/-- The text in double quotes. -/
def text (s : Bytes) : Bytes :=
  ch '"' :: (Utf8.pieces s).flatMap escapedPiece ++ [ch '"']

/-- The code point `n` in single quotes. -/
def code (n : Nat) : Bytes := ch '\'' :: escapedCode (ch '\'') n ++ [ch '\'']

/-- `taken` and the length of the text up to and with the closing quote; a backslash hides the
byte after it. -/
def closedLength? (quote : UInt8) (taken : Nat) : Bytes → Option Nat
  | [] => none
  | [b] => if b = quote then some (taken + 1) else none
  | b :: c :: after =>
    if b = ch '\\' then closedLength? quote (taken + 2) after
    else if b = quote then some (taken + 1)
    else closedLength? quote (taken + 1) (c :: after)

/-! ### Reading escapes -/

/-- The first `n` bytes, if there are so many and all are in the class, and the rest. -/
def fixedDigits? (inClass : UInt8 → Bool) (n : Nat) (s : Bytes) : Option (Bytes × Bytes) :=
  let digits := s.take n
  if digits.length = n && digits.all inClass then some (digits, s.drop n) else none

/-- The character a hexadecimal escape of `n` digits names, in UTF-8. -/
def characterEscape? (n : Nat) (s : Bytes) : Option (Bytes × Bytes) := do
  let (digits, rest) ← fixedDigits? isHexDigit n s
  let value := hexDigitsValue digits
  if value.isValidChar then some (Utf8.encodeNat value, rest) else none

/-- What an escape stands for, and the text after it; `s` starts behind the backslash. -/
def escape? (s : Bytes) : Option (Bytes × Bytes) :=
  match s with
  | [] => none
  | b :: rest =>
    if b = ch 'a' then some ([0x07], rest)
    else if b = ch 'b' then some ([0x08], rest)
    else if b = ch 'f' then some ([0x0c], rest)
    else if b = ch 'n' then some ([0x0a], rest)
    else if b = ch 'r' then some ([0x0d], rest)
    else if b = ch 't' then some ([0x09], rest)
    else if b = ch 'v' then some ([0x0b], rest)
    else if b = ch '\\' || b = ch '"' then some ([b], rest)
    else if b = ch 'x' then
      (fixedDigits? isHexDigit 2 rest).map fun d => ([(hexDigitsValue d.1).toUInt8], d.2)
    else if b = ch 'u' then characterEscape? 4 rest
    else if b = ch 'U' then characterEscape? 8 rest
    else do
      let (digits, rest) ← fixedDigits? isOctalDigit 3 s
      let value := digits.foldl (fun n d => 8 * n + (d.toNat - 48)) 0
      if value < 256 then some ([value.toUInt8], rest) else none

/-- What the text starts with, read between double quotes, and the text after it. A stray byte is
read as the replacement character U+FFFD. -/
def decodeNext? (s : Bytes) : Option (Bytes × Bytes) :=
  match s with
  | [] => none
  | b :: rest =>
    if b = ch '\\' then escape? rest
    else if b = ch '"' || b = 0x0a then none
    else
      match Utf8.next? s with
      | some (.char c, after) => some (Utf8.encodeChar c, after)
      | _ => some (Utf8.encodeNat 0xFFFD, rest)

/-- The text that stands between double quotes as `s`, if every escape in it is known. -/
def decode? (s : Bytes) : Option Bytes :=
  match gather decodeNext? s [] s with
  | (parts, []) => some parts.flatten
  | _ => none

end MiniC.Quoted
