import MiniC.Source.Position
import MiniC.Text.Quoted

/-!
# Blanks

Between the words of a preprocessed text stand blanks: white space, comments, and line markers
such as `# 12 "file.c"`, which say where the next line came from. The functions here recognise the
blank at the front of a text and measure it.
-/

namespace MiniC.Scan

/-- A blank with the number of its bytes. -/
inductive Blank where
  | spaces (length : Nat)
  /-- `//` up to the end of its line, without the newline. -/
  | lineComment (length : Nat)
  | blockComment (length : Nat)
  /-- A block comment that is never closed: it runs to the end of the text. -/
  | openComment
  /-- A line marker without its newline. What follows the newline is the line after `position`. -/
  | marker (length : Nat) (position : Position)
  deriving DecidableEq, Repr

namespace Blank

/-- White space at the front of the text. -/
def spaces? (s : Bytes) : Option Blank :=
  let n := (s.takeWhile isSpace).length
  if n = 0 then none else some (.spaces n)

/-- `taken` and the length of the text up to and with the mark that closes a block comment. -/
def closingLength? (taken : Nat) : Bytes → Option Nat
  | [] => none
  | [_] => none
  | b :: c :: rest =>
    if b = ch '*' && c = ch '/' then some (taken + 2) else closingLength? (taken + 1) (c :: rest)

/-- A comment at the front of the text. -/
def comment? : Bytes → Option Blank
  | b :: c :: rest =>
    if b = ch '/' && c = ch '/' then some (.lineComment (2 + (rest.takeWhile (· != 0x0a)).length))
    else if b = ch '/' && c = ch '*' then
      some ((closingLength? 2 rest).elim .openComment .blockComment)
    else none
  | _ => none

def isTabOrSpace (b : UInt8) : Bool := b == ch ' ' || b == 0x09

/-- The largest line number. -/
def maxLine : Nat := Nat.pow 2 63 - 1

/-- The text in double quotes at the front, without the quotes. -/
def quotedBody? : Bytes → Option Bytes
  | b :: rest =>
    if b = ch '"' then (Quoted.closedLength? b 0 rest).map fun n => rest.take (n - 1) else none
  | [] => none

/-- Line number and file name of a marker, from its text after `#`. What comes behind the file
name does not matter. -/
def markerParts? (s : Bytes) : Option (Nat × Bytes) := do
  let s := s.dropWhile isTabOrSpace
  let digits := s.takeWhile isDigit
  let after := s.dropWhile isDigit
  if digits = [] || !after.head?.any isTabOrSpace || maxLine < digitsValue digits then none
  let body ← quotedBody? (after.dropWhile isTabOrSpace)
  some (digitsValue digits, (Quoted.decode? body).getD body)

/-- A line marker at the front of the text. -/
def marker? (s : Bytes) : Option Blank :=
  match s with
  | b :: _ =>
    if b = ch '#' then
      let line := s.takeWhile (· != 0x0a)
      (markerParts? line.tail).map fun p => .marker line.length ⟨p.2, Int64.ofNat p.1 - 1⟩
    else none
  | [] => none

end Blank

end MiniC.Scan
