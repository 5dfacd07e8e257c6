import MiniC.Scan.Scanner
import MiniC.Syntax.Vocabulary

/-!
# Parsers

A parser reads from a scanner, may enlarge the vocabulary, and yields a value or fails. Loops run
on a budget of one round for each byte left and one more, which is enough since every round takes
a byte; a loop that used it up would fail with `exhausted`.
-/

namespace MiniC

/-- Why a parser fails. -/
inductive Failure where
  /-- The text is not what was expected. -/
  | mismatch (error : SyntaxError)
  /-- A loop took more rounds than there are bytes. -/
  | exhausted
  deriving DecidableEq, Repr

/-- What a parser works on. -/
structure ParserState where
  scanner : Scan.Scanner
  vocabulary : Vocabulary

/-- A parser for values of a type. The state is there after a failure, too. -/
abbrev Parser := EStateM Failure ParserState

namespace Parser

/-- Runs an operation of the scanner. -/
def scan {α : Type} (f : Scan.Scanner → Except SyntaxError α × Scan.Scanner) : Parser α := fun st =>
  match f st.scanner with
  | (.ok a, s) => .ok a { st with scanner := s }
  | (.error e, s) => .error (.mismatch e) { st with scanner := s }

/-- The position of the cursor. -/
def here : Parser Position := return (← get).scanner.cursor.position

/-- The cursor is at the end of the text. -/
def atEnd : Parser Bool := return (← get).scanner.cursor.atEnd

/-- A test of the scanner. -/
def test (p : Scan.Scanner → Bool) : Parser Bool := return p (← get).scanner

/-- Fails because `what` does not stand at the cursor. -/
def unexpected {α : Type} (what : Bytes) : Parser α := fun st =>
  .error (.mismatch (st.scanner.unexpected what)) st

/-- Moves past `word` if the text goes on with it, and tells whether it did. -/
def acceptKeeping (keepSpaces : Bool) (word : Bytes) : Parser Bool := fun st =>
  let (found, s) := st.scanner.lookahead word keepSpaces
  .ok found { st with scanner := s }

/-- Moves past `word` and the blanks after it, if the text goes on with it. -/
def accept (word : Bytes) : Parser Bool := acceptKeeping false word

/-- Tells whether the text goes on with `word`. -/
def peek (word : Bytes) : Parser Bool := fun st =>
  let (found, s) := st.scanner.peek word
  .ok found { st with scanner := s }

/-- Requires `word`. -/
def expect (word : Bytes) : Parser Unit := scan (Scan.Scanner.consume word)

def identifier : Parser Bytes := scan (Scan.Scanner.readIdentifier false)

/-- The place of the cursor, for a later return. -/
def mark : Parser Scan.Cursor := return (← get).scanner.cursor

/-- Moves the cursor back. -/
def restore (c : Scan.Cursor) : Parser Unit :=
  modify fun st => { st with scanner := st.scanner.restore c }

/-- The first of the items whose word can be moved past. -/
def firstAccepted {α : Type} (word : α → Bytes) : List α → Parser (Option α)
  | [] => return none
  | a :: rest => do
    if ← accept (word a) then return some a else firstAccepted word rest

/-- The first of the items whose word stands at the cursor. -/
def firstPeeked {α : Type} (word : α → Bytes) : List α → Parser (Option α)
  | [] => return none
  | a :: rest => do
    if ← peek (word a) then return some a else firstPeeked word rest

/-! ### Loops -/

/-- One round for each byte left, and one more. -/
def budget : Parser Bytes := return 0 :: (← get).scanner.cursor.rest

/-- Repeats `step` until it ends with a result on the right, one round for each byte of the budget
at most. -/
def iterateWithin {α β : Type} (step : α → Parser (α ⊕ β)) : (budget : Bytes) → α → Parser β
  | [], _ => throw .exhausted
  | _ :: budget, a => do
    match ← step a with
    | .inl a' => iterateWithin step budget a'
    | .inr b => return b

/-- Repeats `step` until it ends with a result on the right. -/
def iterate {α β : Type} (step : α → Parser (α ⊕ β)) (a : α) : Parser β := do
  iterateWithin step (← budget) a

end Parser

end MiniC
