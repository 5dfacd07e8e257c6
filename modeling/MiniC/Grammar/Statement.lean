import MiniC.Grammar.Expression

/-!
# Statements

Control statements, declarations and expressions. As with expressions, the parser of an inner
statement is a parameter up to `statementStep`, and `statement` ties the knot.
-/

namespace MiniC.Grammar

open MiniC.Parser

/-- An expression that may be empty, and the mark behind it. -/
def expressionUpTo (word : Bytes) : Parser (Option Expr) := do
  let e ← expression
  expect word
  return e

/-- A condition in parentheses. -/
def condition : Parser Expr := do
  expect (ascii "(")
  let e ← requiredExpression
  expect (ascii ")")
  return e

/-- The value behind `=` if there is one, and the semicolon. -/
def initialValue : Parser (Option Expr) := do
  if ← accept (ascii "=") then
    let e ← requiredExpression
    expect (ascii ";")
    return some e
  else
    expect (ascii ";")
    return none

/-- Statements in braces. -/
def bodyWith (statement : Parser Stmt) : Parser (List Stmt) := do
  expect (ascii "\x7b")
  let found ← iterate (fun found => do
    if ← atEnd then return .inr found.reverse
    else if ← peek (ascii "\x7d") then return .inr found.reverse
    else return .inl ((← statement) :: found)) []
  expect (ascii "\x7d")
  return found

/-- An `if` statement behind its keyword. -/
def ifWith (statement : Parser Stmt) (p : Position) : Parser Stmt := do
  let c ← condition
  let body ← bodyWith statement
  if ← accept (ascii "else") then return .ifElse c body (← bodyWith statement) p
  else return .ifThen c body p

/-- A `while` statement behind its keyword. -/
def whileWith (statement : Parser Stmt) (p : Position) : Parser Stmt := do
  let c ← condition
  return .whileLoop c (← bodyWith statement) p

/-- A `do` statement behind its keyword. -/
def doWith (statement : Parser Stmt) (p : Position) : Parser Stmt := do
  let body ← bodyWith statement
  expect (ascii "while")
  let c ← condition
  expect (ascii ";")
  return .doWhile body c p

/-- A `for` statement behind its keyword; its first part is a statement. -/
def forWith (statement : Parser Stmt) (p : Position) : Parser Stmt := do
  expect (ascii "(")
  let start ← statement
  let c ← expressionUpTo (ascii ";")
  let step ← expressionUpTo (ascii ")")
  return .forLoop start c step (← bodyWith statement) p

/-- A statement; the statements inside it are read by `statement`. -/
def statementStep (statement : Parser Stmt) : Parser Stmt := do
  let p ← here
  if ← accept (ascii "return") then return .ret (← expressionUpTo (ascii ";")) p
  else if ← accept (ascii "if") then ifWith statement p
  else if ← accept (ascii "while") then whileWith statement p
  else if ← accept (ascii "do") then doWith statement p
  else if ← accept (ascii "for") then forWith statement p
  else if ← typeStarts then
    let (type, name) ← declarator .named
    return .declaration name type (← initialValue) p
  else return .expression (← expressionUpTo (ascii ";")) p

/-- A statement with at most as many levels of nesting as the budget has bytes. -/
def statementWithin : (budget : Bytes) → Parser Stmt
  | [] => throw .exhausted
  | _ :: budget => statementStep (statementWithin budget)

def statement : Parser Stmt := do statementWithin (← budget)

/-- The body of a function. -/
def body : Parser (List Stmt) := bodyWith statement

end MiniC.Grammar
