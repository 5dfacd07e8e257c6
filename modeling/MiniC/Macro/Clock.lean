import MiniC.Text.ByteClass

/-!
# The clock

The date and time of a compilation, as the built-in macros show them.
-/

namespace MiniC

/-- A moment of the calendar. -/
structure Clock where
  year : Nat
  month : Nat
  day : Nat
  hour : Nat
  minute : Nat
  second : Nat
  deriving DecidableEq, Repr

namespace Clock

/-- The abbreviations of the months. -/
def monthNames : List Bytes :=
  ["Jan", "Feb", "Mar", "Apr", "May", "Jun", "Jul", "Aug", "Sep", "Oct", "Nov", "Dec"].map ascii

/-- A number in two places, filled with `fill`. -/
def twoPlaces (fill : UInt8) (n : Nat) : Bytes := Bytes.padLeft 2 fill (Bytes.ofNat n)

/-- The date as in `Jan  2 2006`. -/
def date (c : Clock) : Bytes :=
  monthNames.getD (c.month - 1) [] ++ ch ' ' :: twoPlaces (ch ' ') c.day ++
    ch ' ' :: Bytes.padLeft 4 (ch '0') (Bytes.ofNat c.year)

/-- The time as in `15:04:05`. -/
def time (c : Clock) : Bytes :=
  twoPlaces (ch '0') c.hour ++ ch ':' :: twoPlaces (ch '0') c.minute ++
    ch ':' :: twoPlaces (ch '0') c.second

/-! ### The calendar -/

def isLeapYear (year : Nat) : Bool := year % 4 == 0 && (year % 100 != 0 || year % 400 == 0)

def daysInMonth (year month : Nat) : Nat :=
  if month = 2 then if isLeapYear year then 29 else 28
  else if month = 4 || month = 6 || month = 9 || month = 11 then 30
  else 31

/-- The fields name a day of the calendar and a time of the day. -/
def isValid (c : Clock) : Bool :=
  1 ≤ c.month && c.month ≤ 12 && 1 ≤ c.day && c.day ≤ daysInMonth c.year c.month &&
    c.hour < 24 && c.minute < 60 && c.second < 60

/-- The moment written as `YYYY-MM-DD HH:MM:SS`. -/
def parse? (s : Bytes) : Option Clock :=
  let digitsAt (start n : Nat) : Option Nat :=
    let d := (s.drop start).take n
    if d.length = n && d.all isDigit then some (digitsValue d) else none
  let marks := [4, 7, 10, 13, 16].map fun i => s.getD i 0
  if s.length = 19 && marks = ascii "-- ::" then do
    let c : Clock := ⟨← digitsAt 0 4, ← digitsAt 5 2, ← digitsAt 8 2, ← digitsAt 11 2,
      ← digitsAt 14 2, ← digitsAt 17 2⟩
    if c.isValid then some c else none
  else none

end Clock

end MiniC
