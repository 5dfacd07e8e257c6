import MiniC.Number.Binary64

/-!
# Shortest decimals

The decimal numeral for a floating-point value has as few digits as possible: it is the number of
the coarsest decimal grid that still reads back as the value. The numbers that read back as
`m * 2 ^ q` form an interval around it, which contains its ends exactly when `m` is even. Of two
grid points in the interval the nearer one is taken, at a tie the one with the even last digit.
-/

namespace MiniC

/-- The number `digits * 10 ^ exponent`. -/
structure Decimal where
  digits : Nat
  exponent : Int
  deriving DecidableEq, Repr

namespace Shortest

/-- A positive value in quarters of a unit of its last binary place: it is `4 * m` quarters of
size `2 ^ scale`, and all numbers from `low` to `high` quarters read back as it. -/
structure Interval where
  low : Nat
  middle : Nat
  high : Nat
  scale : Int
  closed : Bool

/-- The interval of a positive finite value. Below a power of two the next value is nearer by
half. -/
def Interval.of (x : Binary64) : Interval :=
  let m := x.significand
  { low := 4 * m - (if x.fraction.val = 0 && 1 < x.exponent.val then 1 else 2)
    middle := 4 * m
    high := 4 * m + 2
    scale := x.scale - 2
    closed := m % 2 == 0 }

/-- Factors with which `d * 10 ^ p` and `t` quarters compare as `d * grid` and `t * quarter`. -/
def factors (i : Interval) (p : Int) : Nat × Nat :=
  (Nat.pow 10 p.toNat * Nat.pow 2 (-i.scale).toNat,
    Nat.pow 2 i.scale.toNat * Nat.pow 10 (-p).toNat)

/-- The point of the grid `10 ^ p` in the interval that is nearest to its middle, if any. -/
def onGrid? (i : Interval) (p : Int) : Option Nat :=
  let (grid, quarter) := factors i p
  let d := i.middle * quarter / grid
  let inside (e : Nat) : Bool :=
    if i.closed then i.low * quarter ≤ e * grid && e * grid ≤ i.high * quarter
    else i.low * quarter < e * grid && e * grid < i.high * quarter
  let twice := 2 * (i.middle * quarter)
  let half := (2 * d + 1) * grid
  match inside d, inside (d + 1) with
  | true, true =>
    if twice < half then some d else if half < twice then some (d + 1) else some (d + d % 2)
  | true, false => some d
  | false, true => some (d + 1)
  | false, false => none

/-- The first hit on the grids `10 ^ p`, `10 ^ (p - 1)`, … -/
def search (i : Interval) : (grids : Nat) → (p : Int) → Decimal
  | 0, p => ⟨i.middle, p⟩
  | grids + 1, p =>
    match onGrid? i p with
    | some d => ⟨d, p⟩
    | none => search i grids (p - 1)

/-- An exponent of ten above the value `m * 2 ^ q`. -/
def above (m : Nat) (q : Int) : Int := ((Nat.log2 m : Int) + 1 + q) * 30103 / 100000 + 1

/-- The shortest decimal for the absolute value of a finite `x`. -/
def decimal (x : Binary64) : Decimal :=
  if x.significand = 0 then ⟨0, 0⟩
  else search (Interval.of x) 24 (above x.significand x.scale)

end Shortest

end MiniC
