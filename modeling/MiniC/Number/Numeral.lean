import MiniC.Number.Shortest
import MiniC.Text.ByteClass

/-!
# Numerals

The text of a floating-point value and the value of a decimal numeral. Values are written with the
shortest digits that read back: positionally while the decimal exponent is at least -4 and below
6, else as `d.ddde±XX` with an exponent of two digits at least.
-/

namespace MiniC

/-- Decisions of the number format. -/
structure NumeralFormat where
  /-- Least decimal exponent written positionally. -/
  least : Int
  /-- Least decimal exponent too large to be written positionally. -/
  limit : Int
  /-- Least number of exponent digits. -/
  exponentWidth : Nat
  nanText : Bytes
  positiveInfinity : Bytes
  negativeInfinity : Bytes

namespace Numeral

/-- The format of every number the compiler prints. -/
def format : NumeralFormat where
  least := -4
  limit := 6
  exponentWidth := 2
  nanText := ascii "NaN"
  positiveInfinity := ascii "+Inf"
  negativeInfinity := ascii "-Inf"

/-- Digits with a point behind the first, the point only if more digits follow. -/
def pointed (digits : Bytes) : Bytes :=
  match digits with
  | first :: second :: rest => first :: ch '.' :: second :: rest
  | _ => digits

/-- `digits * 10 ^ p` with the point in its place. -/
def positional (digits : Bytes) (p : Int) : Bytes :=
  if 0 ≤ p then digits ++ List.replicate p.toNat (ch '0')
  else
    let places := (-p).toNat
    if places < digits.length then
      digits.take (digits.length - places) ++ ch '.' :: digits.drop (digits.length - places)
    else ascii "0." ++ List.replicate (places - digits.length) (ch '0') ++ digits

/-- The exponent part, with its sign. -/
def exponentPart (f : NumeralFormat) (x : Int) : Bytes :=
  ch 'e' :: (if x < 0 then ch '-' else ch '+') ::
    Bytes.padLeft f.exponentWidth (ch '0') (Bytes.ofNat x.natAbs)

/-- The text of a decimal. -/
def ofDecimal (f : NumeralFormat) (d : Decimal) : Bytes :=
  let digits := Bytes.ofNat d.digits
  let x := d.exponent + (digits.length : Int) - 1
  if x < f.least || f.limit ≤ x then pointed digits ++ exponentPart f x
  else positional digits d.exponent

/-- The text of a value in the format `f`. -/
def write (f : NumeralFormat) (x : Binary64) : Bytes :=
  if x.isNaN then f.nanText
  else if x.isInfinite then if x.negative then f.negativeInfinity else f.positiveInfinity
  else (if x.negative then [ch '-'] else []) ++ ofDecimal f (Shortest.decimal x)

/-- The text of a value. -/
def text (x : Binary64) : Bytes := write format x

/-! ### Reading decimals -/

/-- The sign a text starts with, if any, and the text after it. -/
def sign (s : Bytes) : Bool × Bytes :=
  match s with
  | b :: rest =>
    if b = ch '-' then (true, rest) else if b = ch '+' then (false, rest) else (false, s)
  | [] => (false, [])

/-- From this size on an exponent is large: further digits of it do not count. -/
def largeExponent : Nat := 10000

/-- The size of an exponent. Its digits count up to the one that makes it large, so only numerals
with thousands of digits can tell it from the number that is written. -/
def exponentSize (digits : Bytes) : Nat :=
  digits.foldl (fun n b => if n < largeExponent then 10 * n + (b.toNat - 48) else n) 0

/-- The value of an exponent part that is the whole text; no text is the exponent zero. -/
def exponent? (s : Bytes) : Option Int :=
  match s with
  | [] => some 0
  | b :: rest =>
    if b = ch 'e' || b = ch 'E' then
      let (negative, digits) := sign rest
      if digits ≠ [] && digits.all isDigit then
        some (if negative then -(exponentSize digits : Int) else exponentSize digits)
      else none
    else none

/-- The nearest value to a decimal numeral: an optional sign, digits with at most one point, and
an optional exponent part. -/
def value? (s : Bytes) : Option Binary64 := do
  let (negative, s) := sign s
  let whole := s.takeWhile isDigit
  let s := s.dropWhile isDigit
  let (places, s) := match s with
    | b :: rest => if b = ch '.' then (rest.takeWhile isDigit, rest.dropWhile isDigit) else ([], s)
    | [] => ([], [])
  if whole = [] && places = [] then none
  let e ← exponent? s
  some (Binary64.ofDecimal negative (digitsValue (whole ++ places)) (e - places.length))

/-- The nearest value to a decimal numeral, unless it is too large for a finite value. -/
def finite? (s : Bytes) : Option Binary64 := (value? s).filter Binary64.isFinite

end Numeral

end MiniC
