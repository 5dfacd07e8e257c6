import MiniC.Macro.Clock

/-!
# Timestamps

A date such as `2001-12-14`, alone, with a time behind one or more spaces, or with a time and a
zone behind the letter T. All fields but the year may have one digit or two.
-/

namespace MiniC.Yaml.Timestamp

/-- Reads from the start of a text. -/
abbrev Reader := StateT Bytes Option

/-- A byte of a class. -/
def byteOf (p : UInt8 → Bool) : Reader UInt8 := fun s =>
  match s with
  | [] => none
  | b :: rest => if p b then some (b, rest) else none

/-- A given byte. -/
def mark (b : UInt8) : Reader UInt8 := byteOf (· == b)

/-- A number of `least` to `most` digits. -/
def number (least most : Nat) : Reader Nat := fun s =>
  let d := (s.takeWhile isDigit).take most
  if least ≤ d.length then some (digitsValue d, s.drop d.length) else none

/-- Nothing is left. -/
def finish : Reader Unit := fun s => if s.isEmpty then some ((), []) else none

/-- A fraction of a second, if one is there. -/
def fraction : Reader Unit := fun s =>
  match s with
  | b :: d :: rest =>
    if (b == ch '.' || b == ch ',') && isDigit d then some ((), rest.dropWhile isDigit)
    else some ((), s)
  | _ => some ((), s)

/-- The letter Z, or a sign, hours and minutes. -/
def zone : Reader Unit := do
  let b ← byteOf fun b => b == ch 'Z' || b == ch '+' || b == ch '-'
  if b == ch 'Z' then return
  let hours ← number 2 2
  let _ ← mark (ch ':')
  let minutes ← number 2 2
  if hours ≤ 24 && minutes ≤ 60 then return else failure

/-- A time of the day behind a date. -/
def timeOn (year month day : Nat) : Reader Clock := do
  let hour ← number 1 2
  let _ ← mark (ch ':')
  let minute ← number 1 2
  let _ ← mark (ch ':')
  let second ← number 1 2
  fraction
  return ⟨year, month, day, hour, minute, second⟩

/-- A timestamp; whether its fields are in range is not checked. -/
def reader : Reader Clock := do
  let year ← number 4 4
  let _ ← mark (ch '-')
  let month ← number 1 2
  let _ ← mark (ch '-')
  let day ← number 1 2
  let s ← get
  if s.isEmpty then return ⟨year, month, day, 0, 0, 0⟩
  let divider ← byteOf fun b => b == ch 'T' || b == ch 't' || b == ch ' '
  if divider == ch ' ' then
    modify fun s => s.dropWhile (· == ch ' ')
    timeOn year month day
  else
    let c ← timeOn year month day
    zone
    return c

/-- The text is a timestamp. -/
def isTimestamp (s : Bytes) : Bool :=
  match (reader <* finish).run s with
  | some (c, _) => c.isValid
  | none => false

end MiniC.Yaml.Timestamp
