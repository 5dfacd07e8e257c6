import MiniC.Scan.Blank

/-!
# The cursor

A cursor splits a text into the bytes before it and the rest, and knows the position of the
current byte. Moving over a newline leads to the next line, unless the newline is the last byte of
the text.
-/

namespace MiniC.Scan

/-- A place in a text: the bytes before it, last one first, and the rest of the text. -/
structure Cursor where
  before : Bytes
  rest : Bytes
  position : Position
  deriving DecidableEq, Repr

namespace Cursor

/-- The beginning of a text. -/
def ofText (text file : Bytes) : Cursor := ⟨[], text, ⟨file, 1⟩⟩

/-- The number of bytes before the cursor. -/
def index (c : Cursor) : Nat := c.before.length

/-- The whole text around the cursor. -/
def text (c : Cursor) : Bytes := c.before.reverse ++ c.rest

/-- The cursor is at the end of the text. -/
def atEnd (c : Cursor) : Bool := c.rest.isEmpty

/-- The byte at the cursor is in the class. -/
def at? (c : Cursor) (inClass : UInt8 → Bool) : Bool := c.rest.head?.any inClass

/-- Moves past one byte. -/
def advance (c : Cursor) : Cursor :=
  match c.rest with
  | [] => c
  | b :: rest =>
    ⟨b :: c.before, rest,
      if b = 0x0a && !rest.isEmpty then c.position.nextLine else c.position⟩

/-- Moves past `n` bytes. -/
def advanceBy : Nat → Cursor → Cursor
  | 0, c => c
  | n + 1, c => advanceBy n c.advance

/-- A line starts at the cursor. -/
def atLineStart (c : Cursor) : Bool :=
  match c.before with
  | [] => true
  | b :: _ => b == 0x0a && !c.atEnd

/-- The blank at the cursor: a comment, and unless spaces are kept also white space or, at the
start of a line, a line marker. -/
def blank? (keepSpaces : Bool) (c : Cursor) : Option Blank :=
  match Blank.comment? c.rest with
  | some b => some b
  | none =>
    if keepSpaces then none
    else
      match Blank.spaces? c.rest with
      | some b => some b
      | none => if c.atLineStart then Blank.marker? c.rest else none

/-- Moves past a blank. -/
def pass (c : Cursor) : Blank → Cursor
  | .spaces n => c.advanceBy n
  | .lineComment n => c.advanceBy n
  | .blockComment n => c.advanceBy n
  | .openComment => c.advanceBy c.rest.length
  | .marker n position => { c.advanceBy n with position }

/-- Moves past the bytes of `word` one after another, up to the first that does not stand at the
cursor, and tells whether all of them were there. -/
def follow : (word : Bytes) → Cursor → Bool × Cursor
  | [], c => (true, c)
  | b :: word, c => if c.at? (· == b) then follow word c.advance else (false, c)

end Cursor

end MiniC.Scan
