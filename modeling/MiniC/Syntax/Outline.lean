import MiniC.Syntax.Tree

/-!
# Outlines

An outline is a tree in a general notation: records with named fields, lists, texts and numbers.
Fields that are absent or empty are left out; the order of the fields is fixed.
-/

namespace MiniC

/-- A structured value. -/
inductive Document where
  | text (s : Bytes)
  | number (x : Binary64)
  | list (items : List Document)
  | record (fields : List (String × Document))

namespace Outline

/-- A field that may be left out. -/
abbrev Field := Option (String × Document)

/-- A node: its kind, then the fields that are there. -/
def node (kind : String) (fields : List Field) : Document :=
  .record (("kind", .text (ascii kind)) :: fields.filterMap id)

def field (key : String) (value : Document) : Field := some (key, value)

/-- A text, left out if empty. -/
def textField (key : String) (s : Bytes) : Field :=
  if s = [] then none else some (key, .text s)

def positionField (p : Position) : Field := textField "pos" p.text

/-- A list, left out if empty. -/
def listField (key : String) (items : List Document) : Field :=
  if items.isEmpty then none else some (key, .list items)

mutual

/-- The outline of a type. -/
def type : TypeDesc → Document
  | .base modifiers name p =>
    node "Type" [positionField p, textField "name" name,
      listField "modifiers" (modifiers.map .text)]
  | .pointer target p => node "PointerType" [positionField p, field "target" (type target)]
  | .array target p => node "ArrayType" [positionField p, field "target" (type target)]
  | .sizedArray target length p =>
    node "ArrayType" [positionField p, field "target" (type target),
      field "length" (expr length)]

/-- The outline of an expression. -/
def expr : Expr → Document
  | .number value p => node "Literal" [positionField p, field "value" (.number value)]
  | .char code p =>
    node "Literal" [positionField p, field "value" (.number (Binary64.ofNat code.toNat))]
  | .string text p => node "Literal" [positionField p, field "text" (.text text)]
  | .list items p => node "Literal" [positionField p, listField "items" (exprs items)]
  | .name name p => node "Identifier" [positionField p, textField "name" name]
  | .prefixed op operand p =>
    node "PrefixExpression" [positionField p, textField "op" op.spelling,
      field "expr" (expr operand)]
  | .suffixed op operand p =>
    node "SuffixExpression" [positionField p, textField "op" op.spelling,
      field "expr" (expr operand)]
  | .binary op left right p =>
    node "BinaryExpression" [positionField p, textField "op" op.spelling,
      field "left" (expr left), field "right" (expr right)]
  | .cast target operand p =>
    node "CastExpression" [positionField p, field "type" (type target),
      field "expr" (expr operand)]
  | .sizeOfType target p => node "SizeofType" [positionField p, field "type" (type target)]
  | .index base index p =>
    node "IndexExpression" [positionField p, field "expr" (expr base), field "right" (expr index)]
  | .call callee arguments p =>
    node "CallExpression" [positionField p, field "expr" (expr callee),
      listField "items" (exprs arguments)]

/-- The outlines of expressions. -/
def exprs : List Expr → List Document
  | [] => []
  | e :: rest => expr e :: exprs rest

end

/-- An expression, left out if there is none. -/
def exprField (key : String) (e : Option Expr) : Field := e.map fun e => (key, expr e)

mutual

/-- The outline of a statement. -/
def stmt : Stmt → Document
  | .ret value p => node "ReturnStatement" [positionField p, exprField "expr" value]
  | .ifThen condition body p =>
    node "IfStatement" [positionField p, field "cond" (expr condition),
      listField "body" (stmts body)]
  | .ifElse condition body otherwise p =>
    node "IfStatement" [positionField p, field "cond" (expr condition),
      listField "body" (stmts body), field "else" (.list (stmts otherwise))]
  | .whileLoop condition body p =>
    node "WhileStatement" [positionField p, field "cond" (expr condition),
      listField "body" (stmts body)]
  | .doWhile body condition p =>
    node "DoWhileStatement" [positionField p, field "cond" (expr condition),
      listField "body" (stmts body)]
  | .forLoop start condition step body p =>
    node "ForStatement" [positionField p, field "init" (stmt start), exprField "cond" condition,
      exprField "step" step, listField "body" (stmts body)]
  | .declaration name target value p =>
    node "VariableDeclaration" [positionField p, textField "name" name,
      field "type" (type target), exprField "init" value]
  | .expression value p => node "ExpressionStatement" [positionField p, exprField "expr" value]

/-- The outlines of statements. -/
def stmts : List Stmt → List Document
  | [] => []
  | s :: rest => stmt s :: stmts rest

end

def member (m : Member) : Document :=
  node "Definition" [positionField m.position, textField "name" m.name, field "type" (type m.type)]

def enumerator (e : Enumerator) : Document :=
  node "Enumerator" [textField "name" e.name, exprField "init" e.value]

def parameter (p : Parameter) : Document :=
  node "Parameter" [textField "name" p.name, field "type" (type p.type)]

/-- The outline of a definition. -/
def definition : Definition → Document
  | .struct name members p =>
    node "StructDefinition" [positionField p, textField "name" name,
      listField "members" (members.map member)]
  | .enumeration name members p =>
    node "EnumDefinition" [positionField p, textField "name" name,
      listField "members" (members.map enumerator)]
  | .typeName name target p =>
    node "TypeDefStatement" [positionField p, textField "name" name, field "type" (type target)]
  | .prototype name result parameters p =>
    node "FunctionDeclaration" [positionField p, textField "name" name,
      field "type" (type result), listField "params" (parameters.map parameter)]
  | .function name result parameters body p =>
    node "FunctionDefinition" [positionField p, textField "name" name,
      field "type" (type result), listField "params" (parameters.map parameter),
      listField "body" (stmts body)]
  | .global name target value p =>
    node "GlobalVariableDeclaration" [positionField p, textField "name" name,
      field "type" (type target), exprField "init" value]

/-- The outline of a program. -/
def program (p : Program) : Document := .list (p.map definition)

end Outline

end MiniC
