import MiniC.Text.Bytes

/-!
# Floating-point values

A number of the language is a binary floating-point value of 64 bits: a sign, an exponent of 11
bits and a fraction of 52 bits. A finite value is `significand * 2 ^ scale`, exactly; `ofRatio`
rounds a quotient of natural numbers to the nearest value, a tie to the even significand.
-/

namespace MiniC

/-- A binary floating-point value of 64 bits by its three fields. -/
structure Binary64 where
  negative : Bool
  exponent : Fin 2048
  fraction : Fin (Nat.pow 2 52)
  deriving DecidableEq, Repr

namespace Binary64

/-- The value whose exponent and fraction fields, read as one number, are `magnitude`; infinity
if that number is too large for a finite value. -/
def ofMagnitude (negative : Bool) (magnitude : Nat) : Binary64 :=
  if h : magnitude / Nat.pow 2 52 < 2047 then
    ⟨negative, ⟨magnitude / Nat.pow 2 52, by omega⟩,
      ⟨magnitude % Nat.pow 2 52, Nat.mod_lt _ (by decide)⟩⟩
  else ⟨negative, ⟨2047, by decide⟩, ⟨0, by decide⟩⟩

def zero (negative : Bool) : Binary64 := ofMagnitude negative 0

def infinity (negative : Bool) : Binary64 := ⟨negative, ⟨2047, by decide⟩, ⟨0, by decide⟩⟩

/-- The value that is no number. -/
def nan : Binary64 := ⟨false, ⟨2047, by decide⟩, ⟨Nat.pow 2 51, by decide⟩⟩

def isFinite (x : Binary64) : Bool := x.exponent.val < 2047

def isNaN (x : Binary64) : Bool := x.exponent.val == 2047 && x.fraction.val != 0

def isInfinite (x : Binary64) : Bool := x.exponent.val == 2047 && x.fraction.val == 0

/-- The integer that, times a power of two, is the absolute value of a finite `x`. -/
def significand (x : Binary64) : Nat :=
  if x.exponent.val = 0 then x.fraction.val else Nat.pow 2 52 + x.fraction.val

/-- The exponent of that power of two. -/
def scale (x : Binary64) : Int := max 1 (x.exponent.val : Int) - 1075

/-- The quotient rounded to the nearest natural number, a tie to the even one. -/
def roundToEven (num den : Nat) : Nat :=
  let q := num / den
  let r := num % den
  if 2 * r < den then q else if den < 2 * r then q + 1 else q + q % 2

/-- `num / den` divided by `2 ^ s`, as a numerator and a denominator. -/
def scaledDown (num den : Nat) (s : Int) : Nat × Nat :=
  (num * Nat.pow 2 (-s).toNat, den * Nat.pow 2 s.toNat)

/-- The scale at which `num / den` has a significand of 53 bits, but at least the least scale
there is. -/
def scaleFor (num den : Nat) : Int :=
  let s := max (-1074) ((Nat.log2 num : Int) - (Nat.log2 den : Int) - 53)
  let (n, d) := scaledDown num den s
  if Nat.pow 2 53 ≤ n / d then s + 1 else s

/-- The value nearest to `num / den`, a tie to the even significand. -/
def ofRatio (negative : Bool) (num den : Nat) : Binary64 :=
  if num = 0 then zero negative
  else
    let s := scaleFor num den
    let (n, d) := scaledDown num den s
    ofMagnitude negative ((s + 1074).toNat * Nat.pow 2 52 + roundToEven n d)

/-- The value nearest to a natural number. -/
def ofNat (n : Nat) : Binary64 := ofRatio false n 1

/-- The value nearest to `digits * 10 ^ exponent`. Exponents far outside the range are decided
without computing the power. -/
def ofDecimal (negative : Bool) (digits : Nat) (exponent : Int) : Binary64 :=
  if digits = 0 then zero negative
  else if 400 < exponent then infinity negative
  else if (Nat.log2 digits : Int) + 3 * exponent < -1100 then zero negative
  else ofRatio negative (digits * Nat.pow 10 exponent.toNat) (Nat.pow 10 (-exponent).toNat)

/-- The integer part of a finite value: its fraction is cut off. -/
def truncate (x : Binary64) : Int :=
  let n := x.significand * Nat.pow 2 x.scale.toNat / Nat.pow 2 (-x.scale).toNat
  if x.negative then -(n : Int) else n

end Binary64

end MiniC
