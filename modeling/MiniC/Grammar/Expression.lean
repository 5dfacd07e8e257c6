import MiniC.Grammar.Declarator

/-!
# Expressions

Operands are joined by binary operators through precedence climbing. An operand is a chain of
prefix operators before a primary expression with its suffixes. The parsers up to `operandStep`
take the parser of an operand as a parameter; `operand` ties the knot, one level of nesting for
each byte left.
-/

namespace MiniC.Grammar

open MiniC.Parser

/-- A value that must be there. -/
def required (p : Parser (Option Expr)) : Parser Expr := do
  match ← p with
  | some e => return e
  | none => unexpected (ascii "expression")

/-- The binary operator at the cursor. -/
def binaryOp? : Parser (Option BinaryOp) := firstPeeked BinaryOp.spelling BinaryOp.longestFirst

/-- Goes on behind the left operand with operators of precedence `level` at least. -/
def climbWithin (operand : Parser (Option Expr)) : (budget : Bytes) → (level : Nat) →
    (left : Expr) → Parser Expr
  | [], _, _ => throw .exhausted
  | _ :: budget, level, left => do
    match ← binaryOp? with
    | none => return left
    | some op =>
      if op.precedence < level then return left
      else
        let p ← here
        let _ ← accept op.spelling
        let first ← required operand
        let right ← climbWithin operand budget op.rightLevel first
        climbWithin operand budget level (.binary op left right p)

/-- An expression that may be empty. -/
def expressionWith (operand : Parser (Option Expr)) : Parser (Option Expr) := do
  match ← operand with
  | some left => return some (← climbWithin operand (← budget) 0 left)
  | none =>
    match ← binaryOp? with
    | some _ => unexpected (ascii "expression")
    | none => return none

/-- An expression that must be there. -/
def requiredWith (operand : Parser (Option Expr)) : Parser Expr :=
  required (expressionWith operand)

/-- A type in parentheses behind its opening parenthesis. -/
def typeInParens (operand : Parser (Option Expr)) : Parser TypeDesc := do
  let (type, _) ← declaratorWith (requiredWith operand) .nameless
  expect (ascii ")")
  return type

/-- The items of a list in braces; empty ones are left out. -/
def listItems (operand : Parser (Option Expr)) : Parser (List Expr) :=
  iterate (fun found => do
    if ← atEnd then return .inr found.reverse
    else
      let item ← expressionWith operand
      let found := item.toList ++ found
      if ← accept (ascii ",") then return .inl found else return .inr found.reverse) []

/-- One argument of a call behind those `found` before, last one first. -/
def argumentStep (operand : Parser (Option Expr)) (found : List Expr) :
    Parser (List Expr ⊕ List Expr) := do
  let e ← requiredWith operand
  if ← accept (ascii ",") then return .inl (e :: found) else return .inr (e :: found).reverse

/-- The arguments of a call behind its opening parenthesis. -/
def arguments (operand : Parser (Option Expr)) : Parser (List Expr) := do
  if ← accept (ascii ")") then return []
  else
    let found ← iterate (argumentStep operand) []
    expect (ascii ")")
    return found

/-- A cast or an expression in parentheses, behind its opening parenthesis at `p`. -/
def parenthesized (operand : Parser (Option Expr)) (p : Position) : Parser Expr := do
  if ← typeStarts then
    let type ← typeInParens operand
    return .cast type (← required operand) p
  else
    let e ← requiredWith operand
    expect (ascii ")")
    return e

/-- A literal, a name, a cast, or an expression in parentheses, which starts at `p`. -/
def primary (operand : Parser (Option Expr)) (p : Position) : Parser (Option Expr) := do
  if ← accept (ascii "(") then return some (← parenthesized operand p)
  else if ← accept (ascii "\x7b") then
    let items ← listItems operand
    expect (ascii "\x7d")
    return some (.list items p)
  else if ← acceptKeeping true (ascii "'") then
    let code ← scan Scan.Scanner.readCharacter
    expect (ascii "'")
    return some (.char code p)
  else if ← test Scan.Scanner.atString then
    return some (.string (← scan (Scan.Scanner.readString false)) p)
  else if ← test Scan.Scanner.atNumber then
    return some (.number (← scan (Scan.Scanner.readNumber false)) p)
  else if ← test Scan.Scanner.atIdentifier then
    return some (.name (← identifier) p)
  else return none

/-- Applies one subscript, call or suffix operator to an expression, if one follows. -/
def suffixStep (operand : Parser (Option Expr)) (e : Expr) : Parser (Expr ⊕ Expr) := do
  let p ← here
  if ← accept (ascii "[") then
    let i ← requiredWith operand
    expect (ascii "]")
    return .inl (.index e i p)
  else if ← accept (ascii "(") then
    return .inl (.call e (← arguments operand) p)
  else if ← accept (ascii "++") then return .inl (.suffixed .inc e p)
  else if ← accept (ascii "--") then return .inl (.suffixed .dec e p)
  else return .inr e

/-- Applies subscripts, calls and suffix operators to an expression. -/
def suffixes (operand : Parser (Option Expr)) (e : Expr) : Parser Expr :=
  iterate (suffixStep operand) e

/-- A type in parentheses behind `sizeof`, if there is one. -/
def sizedType? (operand : Parser (Option Expr)) : Parser (Option TypeDesc) := do
  let start ← mark
  if ← accept (ascii "(") then
    if ← typeStarts then return some (← typeInParens operand)
    else
      restore start
      return none
  else return none

/-- What stands behind a prefix operator that starts at `p`. -/
def prefixedBy (operand : Parser (Option Expr)) (p : Position) (op : PrefixOp) : Parser Expr := do
  let type? ← if op = .sizeOf then sizedType? operand else pure none
  match type? with
  | some type => return .sizeOfType type p
  | none => return .prefixed op (← required operand) p

/-- An operand, if one starts at the cursor; the operands inside it are read by `operand`. -/
def operandStep (operand : Parser (Option Expr)) : Parser (Option Expr) := do
  let p ← here
  match ← firstAccepted PrefixOp.spelling PrefixOp.all with
  | some op => return some (← prefixedBy operand p op)
  | none =>
    match ← primary operand p with
    | some e => return some (← suffixes operand e)
    | none => return none

/-- An operand with at most as many levels of nesting as the budget has bytes. -/
def operandWithin : (budget : Bytes) → Parser (Option Expr)
  | [] => throw .exhausted
  | _ :: budget => operandStep (operandWithin budget)

/-- An operand of a binary operator, if one starts at the cursor. -/
def operand : Parser (Option Expr) := do operandWithin (← budget)

/-- An expression that may be empty. -/
def expression : Parser (Option Expr) := expressionWith operand

/-- An expression that must be there. -/
def requiredExpression : Parser Expr := requiredWith operand

/-- A type and the name that it is declared for. -/
def declarator (naming : Naming) : Parser (TypeDesc × Bytes) :=
  declaratorWith requiredExpression naming

end MiniC.Grammar
