import MiniC.Number.Numeral
import MiniC.Text.Quoted

/-!
# Lexemes

Readers of identifiers, numbers, strings and characters at the front of a text. A reader says how
many bytes it took and what they stand for, or what it would have needed after them.
-/

namespace MiniC.Scan

/-- Why a lexeme cannot be read. -/
inductive Refusal where
  /-- Something else should stand behind the bytes taken. -/
  | expected (what : Bytes)
  /-- The digits do not make up a number; the text as it is reported. -/
  | malformedNumber (text : Bytes)
  deriving DecidableEq, Repr

/-- The number of bytes taken, and what was read. -/
structure Reading (α : Type) where
  length : Nat
  result : Except Refusal α

namespace Lexeme

/-- Nothing is taken, since something else should stand here. -/
def refuse {α : Type} (what : String) : Reading α := ⟨0, .error (.expected (ascii what))⟩

/-- A letter or underscore, then letters, digits and underscores. -/
def identifier (s : Bytes) : Reading Bytes :=
  if s.head?.any isIdentStart then
    let word := s.takeWhile isIdent
    ⟨word.length, .ok word⟩
  else refuse "Identifier"

/-! ### Numbers -/

/-- Letters that may follow the digits of a number and do not change it. -/
def isNumberSuffix (b : UInt8) : Bool :=
  b == ch 'u' || b == ch 'U' || b == ch 'l' || b == ch 'L'

/-- The value of hexadecimal digits; 64 bits at most. -/
def hexNumber? (digits : Bytes) : Option Binary64 :=
  if digits = [] || Nat.pow 2 64 ≤ hexDigitsValue digits then none
  else some (Binary64.ofNat (hexDigitsValue digits))

/-- The text starts with the mark of a hexadecimal number. -/
def isHexNumber : Bytes → Bool
  | b :: c :: _ => b == ch '0' && (c == ch 'x' || c == ch 'X')
  | _ => false

def isDecimalPart (b : UInt8) : Bool := isDigit b || b == ch '.'

/-- A number from its digits and what follows them. -/
def numberFrom (headLength : Nat) (reported digits after : Bytes) (value? : Option Binary64) :
    Reading Binary64 :=
  ⟨headLength + digits.length + (after.takeWhile isNumberSuffix).length,
    match value? with
    | some x => .ok x
    | none => .error (.malformedNumber reported)⟩

/-- A decimal or hexadecimal number and its suffix letters. -/
def number (s : Bytes) : Reading Binary64 :=
  if !s.head?.any isDigit then refuse "Number"
  else if isHexNumber s then
    let body := s.drop 2
    let digits := body.takeWhile isHexDigit
    numberFrom 2 (ascii "0x" ++ digits) digits (body.dropWhile isHexDigit) (hexNumber? digits)
  else
    let digits := s.takeWhile isDecimalPart
    numberFrom 0 digits digits (s.dropWhile isDecimalPart) (Numeral.finite? digits)

/-! ### Characters and strings -/

/-- The byte of a one-letter escape. -/
def simpleEscape? (b : UInt8) : Option UInt8 :=
  if b = ch 'a' then some 0x07
  else if b = ch 'b' then some 0x08
  else if b = ch 'f' then some 0x0c
  else if b = ch 'n' then some 0x0a
  else if b = ch 'r' then some 0x0d
  else if b = ch 't' then some 0x09
  else if b = ch 'v' then some 0x0b
  else if b = ch '\\' || b = ch '\'' || b = ch '"' || b = ch '?' then some b
  else none

/-- The number that octal digits stand for. -/
def octalValue (digits : Bytes) : Nat := digits.foldl (fun n b => 8 * n + (b.toNat - 48)) 0

/-- The byte of an escape sequence, from the text behind its backslash: `x` and any number of
hexadecimal digits, one to three octal digits, or a single letter. Codes count modulo 256. -/
def escape (s : Bytes) : Reading UInt8 :=
  match s with
  | [] => refuse "escape sequence"
  | b :: rest =>
    if b = ch 'x' then
      let digits := rest.takeWhile isHexDigit
      ⟨1 + digits.length, .ok (hexDigitsValue digits).toUInt8⟩
    else if isOctalDigit b then
      let digits := (s.take 3).takeWhile isOctalDigit
      ⟨digits.length, .ok (octalValue digits).toUInt8⟩
    else
      match simpleEscape? b with
      | some c => ⟨1, .ok c⟩
      | none => refuse "escape sequence"

/-- One character of a literal: a byte for itself, or an escape sequence. -/
def character (s : Bytes) : Reading UInt8 :=
  match s with
  | [] => refuse "character"
  | b :: rest =>
    if b = ch '\\' then ⟨1 + (escape rest).length, (escape rest).result⟩ else ⟨1, .ok b⟩

/-- One more character of a string; `taken` bytes were read before it. -/
def stringNext? (r : Nat × Bytes) : Option (UInt8 × (Nat × Bytes)) :=
  match r.2 with
  | [] => none
  | b :: _ =>
    if b = ch '"' then none
    else
      match (character r.2).result with
      | .ok c =>
        some (c, (r.1 + (character r.2).length, r.2.drop (character r.2).length))
      | .error _ => none

/-- What ends a string after its characters `text`: the closing quote, or a refusal. -/
def stringEnd (text : Bytes) (r : Nat × Bytes) : Reading Bytes :=
  match r.2 with
  | [] => ⟨r.1, .error (.expected [ch '"'])⟩
  | b :: _ =>
    if b = ch '"' then ⟨r.1 + 1, .ok text⟩
    else
      ⟨r.1 + (character r.2).length, .error (match (character r.2).result with
        | .error e => e
        | .ok _ => .expected [ch '"'])⟩

/-- A string in double quotes. -/
def string (s : Bytes) : Reading Bytes :=
  match s with
  | [] => refuse "\""
  | b :: rest =>
    if b = ch '"' then
      let (text, r) := gather stringNext? rest [] (1, rest)
      stringEnd text r
    else refuse "\""

end Lexeme

end MiniC.Scan
