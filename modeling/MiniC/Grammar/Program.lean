import MiniC.Grammar.Statement

/-!
# Definitions and programs

A program is read definition by definition up to the end of the text. Structures, enumerations and
type definitions enlarge the vocabulary for what follows. A comment that is left open is reported
before any other error.
-/

namespace MiniC.Grammar

open MiniC.Parser

/-- Adds the name of a type to the vocabulary. -/
def declareType (name : Bytes) : Parser Unit :=
  modify fun st => { st with vocabulary := st.vocabulary.addType name }

/-- The members of a structure in braces, and an optional semicolon. The name of the structure is
known to its members. -/
def structBody (name : Bytes) (p : Position) : Parser Definition := do
  declareType name
  expect (ascii "\x7b")
  let members ← iterate (fun found => do
    if ← typeStarts then
      let q ← here
      let (type, member) ← declarator .named
      expect (ascii ";")
      return .inl (⟨member, type, q⟩ :: found)
    else return .inr (found : List Member).reverse) []
  expect (ascii "\x7d")
  let _ ← accept (ascii ";")
  return .struct name members p

/-- The value of an enumerator, if one is given. -/
def enumeratorValue : Parser (Option Expr) := do
  if ← accept (ascii "=") then return some (← requiredExpression) else return none

/-- The members of an enumeration in braces, and an optional semicolon. -/
def enumBody (name : Bytes) (p : Position) : Parser Definition := do
  expect (ascii "\x7b")
  let members ← iterate (fun found => do
    if ← test Scan.Scanner.atIdentifier then
      let member ← identifier
      let found : List Enumerator := ⟨member, ← enumeratorValue⟩ :: found
      if ← accept (ascii ",") then return .inl found else return .inr found.reverse
    else return .inr found.reverse) []
  expect (ascii "\x7d")
  let _ ← accept (ascii ";")
  declareType name
  return .enumeration name members p

/-- A type definition behind its keyword. -/
def typeDefinition (p : Position) : Parser Definition := do
  let (type, name) ← declarator .named
  expect (ascii ";")
  declareType name
  return .typeName name type p

/-- The parameters of a function behind the opening parenthesis. -/
def parameters : Parser (List Parameter) :=
  iterate (fun found => do
    if ← typeStarts then
      let (type, name) ← declarator .optional
      let found : List Parameter := ⟨name, type⟩ :: found
      if ← accept (ascii ")") then return .inr found.reverse
      else
        expect (ascii ",")
        return .inl found
    else
      expect (ascii ")")
      return .inr found.reverse) []

/-- A function or a global variable. -/
def declaration (p : Position) : Parser Definition := do
  if ← typeStarts then
    let (type, name) ← declarator .named
    if ← accept (ascii "(") then
      let params ← parameters
      if ← accept (ascii ";") then return .prototype name type params p
      else return .function name type params (← body) p
    else return .global name type (← initialValue) p
  else unexpected (ascii "struct, enum, typedef, FunctionDeclaration or VariableDeclaration")

/-- A definition with a keyword in front and a body in braces, or else, from `start` on, a
declaration. -/
def tagged (start : Scan.Cursor) (bodyOf : Bytes → Position → Parser Definition) (p : Position) :
    Parser Definition := do
  let name ← identifier
  if ← peek (ascii "\x7b") then bodyOf name p
  else
    restore start
    declaration p

/-- A definition. -/
def definition : Parser Definition := do
  let p ← here
  let start ← mark
  if ← accept (ascii "struct") then tagged start structBody p
  else if ← accept (ascii "enum") then tagged start enumBody p
  else if ← accept (ascii "typedef") then typeDefinition p
  else declaration p

/-- One definition behind those `found` before, last one first, or the end of the text. -/
def programStep (found : Program) : Parser (Program ⊕ Program) := do
  if ← atEnd then return .inr found.reverse else return .inl ((← definition) :: found)

/-- Definitions up to the end of the text. -/
def program : Parser Program := iterate programStep []

/-- An expression that is the whole text. -/
def wholeExpression : Parser Expr := do
  let e ← requiredExpression
  if ← atEnd then return e else unexpected (ascii "EOF")

/-- The error to report for a failure. -/
def Failure.report (s : Scan.Scanner) : Failure → SyntaxError
  | .mismatch e => e
  | .exhausted => s.unexpected (ascii "expression")

/-- The outcome of a parser; a comment left open counts before anything else. -/
def outcome {α : Type} (r : EStateM.Result Failure ParserState α) : Except SyntaxError α :=
  match r with
  | .ok a st =>
    match st.scanner.fault with
    | some e => .error e
    | none => .ok a
  | .error f st =>
    match st.scanner.fault with
    | some e => .error e
    | none => .error (Failure.report st.scanner f)

/-- The vocabulary that a parser leaves. -/
def vocabularyAfter {α : Type} : EStateM.Result Failure ParserState α → Vocabulary
  | .ok _ st => st.vocabulary
  | .error _ st => st.vocabulary

/-- The state at the start of a text. -/
def start (text file : Bytes) (v : Vocabulary) : ParserState := ⟨Scan.Scanner.ofText text file, v⟩

/-- Reads a program. The vocabulary is the one in force at the end or at the first error. -/
def parseProgram (text file : Bytes) (v : Vocabulary) : Except SyntaxError Program × Vocabulary :=
  let r := program.run (start text file v)
  (outcome r, vocabularyAfter r)

/-- Reads an expression that is the whole text. -/
def parseExpression (text file : Bytes) (v : Vocabulary) : Except SyntaxError Expr :=
  outcome (wholeExpression.run (start text file v))

end MiniC.Grammar
