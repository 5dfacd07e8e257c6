import MiniC.Scan.Cursor
import MiniC.Scan.Lexeme

/-!
# The scanner

A scanner is a cursor that skips blanks after what it reads, together with the first comment it
found open at the end of the text. That fault stays even when the cursor is moved back: a text with
an open comment is never accepted. A syntax error says what was expected at a position and what was
found there.
-/

namespace MiniC

/-- The text at `position` is not what was expected. -/
structure SyntaxError where
  position : Position
  expected : Bytes
  found : Bytes
  deriving DecidableEq, Repr

/-- The error as one line. -/
def SyntaxError.message (e : SyntaxError) : Bytes :=
  e.position.text ++ ascii ": Expecting " ++ Quoted.text e.expected ++ ascii " got " ++
    Quoted.text e.found

namespace Scan

/-- A cursor and the first fault met while skipping blanks. -/
structure Scanner where
  cursor : Cursor
  fault : Option SyntaxError
  deriving DecidableEq, Repr

namespace Scanner

/-- The error that `expected` does not stand at the cursor. -/
def unexpected (s : Scanner) (expected : Bytes) : SyntaxError :=
  ⟨s.cursor.position, expected, match s.cursor.rest with
    | [] => ascii "EOF"
    | b :: _ => Utf8.encodeNat b.toNat⟩

/-- The same cursor, moved past `n` bytes. -/
def advanceBy (n : Nat) (s : Scanner) : Scanner := { s with cursor := s.cursor.advanceBy n }

/-- The fault that skipping a blank at the cursor leaves: the first one that was met. -/
def faultAfter (s : Scanner) : Blank → Option SyntaxError
  | .openComment =>
    match s.fault with
    | some e => some e
    | none => some ⟨s.cursor.position, ascii "*/", ascii "EOF"⟩
  | _ => s.fault

/-- Moves past a blank. -/
def pass (s : Scanner) (b : Blank) : Scanner := ⟨s.cursor.pass b, s.faultAfter b⟩

/-- Skips blanks, at most one for each byte of the budget. -/
def skipWithin (keepSpaces : Bool) : (budget : Bytes) → Scanner → Scanner
  | [], s => s
  | _ :: budget, s =>
    match s.cursor.blank? keepSpaces with
    | none => s
    | some b => skipWithin keepSpaces budget (s.pass b)

/-- Skips all blanks at the cursor, or all comments if spaces are kept. -/
def skip (keepSpaces : Bool) (s : Scanner) : Scanner := skipWithin keepSpaces s.cursor.rest s

/-- Skips white space, comments and line markers. -/
def skipBlanks (s : Scanner) : Scanner := s.skip false

/-- A scanner at the first word of a text. -/
def ofText (text file : Bytes) : Scanner := skipBlanks ⟨Cursor.ofText text file, none⟩

/-- Moves the cursor back to an earlier place; the fault stays. -/
def restore (s : Scanner) (c : Cursor) : Scanner := { s with cursor := c }

/-- Moves past `word` and the blanks after it, and tells whether `word` was there. An identifier has
to be there as a whole word. Where the match fails the cursor is moved back to where it was. With
`keepSpaces` only comments are skipped. -/
def lookahead (word : Bytes) (keepSpaces : Bool) (s : Scanner) : Bool × Scanner :=
  let (found, c) := s.cursor.follow word
  let moved : Scanner := { s with cursor := c }
  if !found then (false, moved.restore s.cursor)
  else if isWord word && c.at? isIdent then (false, moved.restore s.cursor)
  else (true, moved.skip keepSpaces)

/-- Tells whether the text goes on with `word`. The cursor stays; a comment left open right
behind the word is noted. -/
def peek (word : Bytes) (s : Scanner) : Bool × Scanner :=
  let (found, s') := s.lookahead word true
  (found, s'.restore s.cursor)

/-- Reads a lexeme and does `after` behind it. A malformed number is reported where it starts,
anything else behind the bytes that were taken. -/
def read {α : Type} (reader : Bytes → Reading α) (after : Scanner → Scanner) (s : Scanner) :
    Except SyntaxError α × Scanner :=
  let reading := reader s.cursor.rest
  let moved := s.advanceBy reading.length
  match reading.result with
  | .ok a => (.ok a, after moved)
  | .error (.expected what) => (.error (moved.unexpected what), moved)
  | .error (.malformedNumber text) =>
    (.error ⟨s.cursor.position, ascii "Number", text⟩, moved)

/-- Requires `word` at the cursor. -/
def consume (word : Bytes) (s : Scanner) : Except SyntaxError Unit × Scanner :=
  match s.lookahead word false with
  | (true, s') => (.ok (), s')
  | (false, s') => (.error (s'.unexpected word), s')

def readIdentifier (keepSpaces : Bool) (s : Scanner) : Except SyntaxError Bytes × Scanner :=
  s.read Lexeme.identifier (skip keepSpaces)

def readNumber (keepSpaces : Bool) (s : Scanner) : Except SyntaxError Binary64 × Scanner :=
  s.read Lexeme.number (skip keepSpaces)

def readString (keepSpaces : Bool) (s : Scanner) : Except SyntaxError Bytes × Scanner :=
  s.read Lexeme.string (skip keepSpaces)

/-- Reads one character of a character literal; blanks behind it stay. -/
def readCharacter (s : Scanner) : Except SyntaxError UInt8 × Scanner :=
  s.read Lexeme.character id

/-- Reads an escape sequence whose backslash is just before the cursor. -/
def readEscape (s : Scanner) : Except SyntaxError UInt8 × Scanner := s.read Lexeme.escape id

/-- An identifier starts at the cursor. -/
def atIdentifier (s : Scanner) : Bool := s.cursor.at? isIdentStart

/-- A number starts at the cursor. -/
def atNumber (s : Scanner) : Bool := s.cursor.at? isDigit

/-- A string starts at the cursor. -/
def atString (s : Scanner) : Bool := s.cursor.at? (· == ch '"')

end Scanner

end Scan

end MiniC
