import MiniC.Number.Numeral
import MiniC.Yaml.Timestamp

/-!
# Implicit values

Text that stands without quotes in a document may be read as a null, a boolean, a number or a
timestamp instead. `readsAsText` tells when it is read as itself. The numbers count in every
spelling that some reader may accept, among them `1_000`, `0o17` and `12:30:45`.
-/

namespace MiniC.Yaml

/-- Nulls, booleans and the special numbers. -/
def reservedWords : List Bytes :=
  ["", "~", "null", "Null", "NULL", "true", "True", "TRUE", "false", "False", "FALSE",
    ".nan", ".NaN", ".NAN", ".inf", ".Inf", ".INF", "+.inf", "+.Inf", "+.INF", "-.inf", "-.Inf",
    "-.INF"].map ascii

/-- Booleans of the former version of the format. -/
def formerBooleans : List Bytes :=
  ["y", "Y", "yes", "Yes", "YES", "on", "On", "ON", "n", "N", "no", "No", "NO", "off", "Off",
    "OFF"].map ascii

/-! ### Integers -/

/-- The value of digits in a base up to 16, at least `least` of them. -/
def natIn? (base least : Nat) (s : Bytes) : Option Nat :=
  if least ≤ s.length && s.all (fun b => isHexDigit b && hexValue b < base) then
    some (s.foldl (fun n b => base * n + hexValue b) 0)
  else none

/-- The base that a letter after a zero stands for. -/
def baseOf? (b : UInt8) : Option Nat :=
  if b == ch 'x' || b == ch 'X' then some 16
  else if b == ch 'o' || b == ch 'O' then some 8
  else if b == ch 'b' || b == ch 'B' then some 2
  else none

/-- The value of a numeral: decimal, octal after a zero, or in the base that a letter gives. -/
def natural? : Bytes → Option Nat
  | [] => none
  | z :: rest =>
    if z = ch '0' then
      match rest with
      | b :: d :: more =>
        match baseOf? b with
        | some base => natIn? base 1 (d :: more)
        | none => natIn? 8 0 rest
      | _ => natIn? 8 0 rest
    else natIn? 10 1 (z :: rest)

/-- A number after a sign fits into 64 bits. -/
def fitsSigned (negative : Bool) (n : Nat) : Bool :=
  if negative then n ≤ Nat.pow 2 63 else n < Nat.pow 2 63

def isSign (b : UInt8) : Bool := b == ch '+' || b == ch '-'

/-- The text is an integer of 64 bits; only without a sign may it take all of them. -/
def isInteger (s : Bytes) : Bool :=
  match s with
  | [] => false
  | b :: rest =>
    if isSign b then (natural? rest).any (fitsSigned (b == ch '-'))
    else (natural? s).any (· < Nat.pow 2 64)

/-- The text is `0b` or `0o` with a sign behind it. -/
def isInnerSigned (s : Bytes) : Bool :=
  match s with
  | z :: x :: b :: rest =>
    z == ch '0' && (x == ch 'b' || x == ch 'o') && isSign b &&
      (natIn? (if x == ch 'b' then 2 else 8) 1 rest).any (fitsSigned (b == ch '-'))
  | _ => false

/-! ### Other numbers -/

/-- The text without underscores. -/
def withoutUnderscores (s : Bytes) : Bytes := s.filter (· != ch '_')

/-- Every underscore stands between two digits. -/
def underscoresDivideDigits (s : Bytes) : Bool :=
  let padded := 0 :: s ++ [0]
  (padded.zip (padded.drop 1)).all fun (a, b) =>
    (a != ch '_' || isDigit b) && (b != ch '_' || isDigit a)

/-- The text is a finite decimal that starts with its point. -/
def isPointNumber (s : Bytes) : Bool :=
  underscoresDivideDigits s && (Numeral.finite? (withoutUnderscores s)).isSome

/-- One or two digits for a number below sixty. -/
def isSixtieth : Bytes → Bool
  | [a] => isDigit a
  | [a, b] => isDigit a && a < ch '6' && isDigit b
  | _ => false

def isDigitOrUnderscore (b : UInt8) : Bool := isDigit b || b == ch '_'

/-- The text is a number in base sixty, such as `12:30` or `-1:15.5`. -/
def isSexagesimal (s : Bytes) : Bool :=
  let s := (Numeral.sign s).2
  let whole := s.takeWhile (· != ch '.')
  let places := (s.dropWhile (· != ch '.')).drop 1
  match Bytes.fields (ch ':') whole with
  | first :: fields =>
    first.head?.any isDigit && first.all isDigitOrUnderscore && !fields.isEmpty &&
      fields.all isSixtieth && places.all isDigitOrUnderscore
  | [] => false

/-- The text, which starts with a digit or a sign, is a number or a timestamp. -/
def isNumberOrTime (s : Bytes) : Bool :=
  let digits := withoutUnderscores s
  Timestamp.isTimestamp s || isInteger digits || (Numeral.finite? digits).isSome ||
    isInnerSigned digits || isSexagesimal s

/-- The text without quotes is read as itself. -/
def readsAsText (s : Bytes) : Bool :=
  match s with
  | [] => false
  | b :: _ =>
    if reservedWords.contains s || formerBooleans.contains s then false
    else if b == ch '.' then !isPointNumber s
    else if isDigit b || isSign b then !isNumberOrTime s
    else true

end MiniC.Yaml
