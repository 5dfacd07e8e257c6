import MiniC.Text.Bytes

/-!
# Classes of bytes

The alphabet of the language is ASCII: blanks, digits, and the letters of identifiers. Both the
macro preprocessor and the parser classify bytes with these predicates.
-/

namespace MiniC

/-- Space, tab, newline, carriage return, form feed or vertical tab. -/
def isSpace (b : UInt8) : Bool :=
  b == ch ' ' || b == 0x09 || b == 0x0a || b == 0x0d || b == 0x0c || b == 0x0b

def isDigit (b : UInt8) : Bool := ch '0' ≤ b && b ≤ ch '9'

def isOctalDigit (b : UInt8) : Bool := ch '0' ≤ b && b ≤ ch '7'

def isHexDigit (b : UInt8) : Bool :=
  isDigit b || (ch 'a' ≤ b && b ≤ ch 'f') || (ch 'A' ≤ b && b ≤ ch 'F')

/-- The value of a hexadecimal digit. -/
def hexValue (b : UInt8) : Nat :=
  if isDigit b then b.toNat - 48
  else if ch 'a' ≤ b && b ≤ ch 'f' then b.toNat - 97 + 10
  else b.toNat - 65 + 10

/-- A letter or an underscore: what an identifier starts with. -/
def isIdentStart (b : UInt8) : Bool :=
  (ch 'a' ≤ b && b ≤ ch 'z') || (ch 'A' ≤ b && b ≤ ch 'Z') || b == ch '_'

/-- What an identifier goes on with. -/
def isIdent (b : UInt8) : Bool := isIdentStart b || isDigit b

/-- The text is an identifier. -/
def isWord : Bytes → Bool
  | [] => false
  | b :: rest => isIdentStart b && rest.all isIdent

/-- The number that a text of decimal digits stands for. -/
def digitsValue (s : Bytes) : Nat := s.foldl (fun n b => 10 * n + (b.toNat - 48)) 0

/-- The number that a text of hexadecimal digits stands for. -/
def hexDigitsValue (s : Bytes) : Nat := s.foldl (fun n b => 16 * n + hexValue b) 0

end MiniC
