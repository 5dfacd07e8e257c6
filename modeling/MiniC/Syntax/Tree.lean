import MiniC.Number.Binary64
import MiniC.Source.Position
import MiniC.Syntax.Operator

/-!
# Syntax trees

A program is a list of definitions; definitions hold types, expressions and statements. Every node
has the position where it was read.
-/

namespace MiniC

mutual

/-- A type: a base type with its modifiers, wrapped once for each `*` and each `[…]`. -/
inductive TypeDesc where
  | base (modifiers : List Bytes) (name : Bytes) (position : Position)
  | pointer (target : TypeDesc) (position : Position)
  | array (target : TypeDesc) (position : Position)
  | sizedArray (target : TypeDesc) (length : Expr) (position : Position)

/-- An expression. -/
inductive Expr where
  | number (value : Binary64) (position : Position)
  | char (code : UInt8) (position : Position)
  | string (text : Bytes) (position : Position)
  /-- A list in braces. -/
  | list (items : List Expr) (position : Position)
  | name (name : Bytes) (position : Position)
  | prefixed (op : PrefixOp) (operand : Expr) (position : Position)
  | suffixed (op : SuffixOp) (operand : Expr) (position : Position)
  | binary (op : BinaryOp) (left right : Expr) (position : Position)
  | cast (type : TypeDesc) (operand : Expr) (position : Position)
  | sizeOfType (type : TypeDesc) (position : Position)
  | index (base index : Expr) (position : Position)
  | call (callee : Expr) (arguments : List Expr) (position : Position)

end

/-- A statement. -/
inductive Stmt where
  | ret (value : Option Expr) (position : Position)
  | ifThen (condition : Expr) (body : List Stmt) (position : Position)
  | ifElse (condition : Expr) (body otherwise : List Stmt) (position : Position)
  | whileLoop (condition : Expr) (body : List Stmt) (position : Position)
  | doWhile (body : List Stmt) (condition : Expr) (position : Position)
  | forLoop (start : Stmt) (condition step : Option Expr) (body : List Stmt) (position : Position)
  | declaration (name : Bytes) (type : TypeDesc) (value : Option Expr) (position : Position)
  | expression (value : Option Expr) (position : Position)

/-- A member of a structure. -/
structure Member where
  name : Bytes
  type : TypeDesc
  position : Position

/-- A member of an enumeration, with its explicit value if it has one. -/
structure Enumerator where
  name : Bytes
  value : Option Expr

/-- A parameter of a function; its name may be empty. -/
structure Parameter where
  name : Bytes
  type : TypeDesc

/-- A definition at the top level. -/
inductive Definition where
  | struct (name : Bytes) (members : List Member) (position : Position)
  | enumeration (name : Bytes) (members : List Enumerator) (position : Position)
  | typeName (name : Bytes) (type : TypeDesc) (position : Position)
  | prototype (name : Bytes) (result : TypeDesc) (parameters : List Parameter)
      (position : Position)
  | function (name : Bytes) (result : TypeDesc) (parameters : List Parameter) (body : List Stmt)
      (position : Position)
  | global (name : Bytes) (type : TypeDesc) (value : Option Expr) (position : Position)

/-- A program: its definitions in order. -/
abbrev Program := List Definition

/-! ### Parts of nodes -/

namespace TypeDesc

def position : TypeDesc → Position
  | .base _ _ p => p
  | .pointer _ p => p
  | .array _ p => p
  | .sizedArray _ _ p => p

end TypeDesc

/-- The kinds of literals. -/
inductive LiteralKind where
  | number | char | string | list
  deriving DecidableEq, Repr

namespace LiteralKind

def all : List LiteralKind := [.number, .char, .string, .list]

def name : LiteralKind → Bytes
  | .number => ascii "number"
  | .char => ascii "char"
  | .string => ascii "string"
  | .list => ascii "list"

/-- The name of the kind with a given number. -/
def nameOfCode (code : Int) : Bytes := (memberAt? all code).elim (ascii "?") name

end LiteralKind

namespace Expr

def position : Expr → Position
  | .number _ p => p
  | .char _ p => p
  | .string _ p => p
  | .list _ p => p
  | .name _ p => p
  | .prefixed _ _ p => p
  | .suffixed _ _ p => p
  | .binary _ _ _ p => p
  | .cast _ _ p => p
  | .sizeOfType _ p => p
  | .index _ _ p => p
  | .call _ _ p => p

def isBinary : Expr → Bool
  | .binary _ _ _ _ => true
  | _ => false

/-- The kind of a literal. -/
def literalKind? : Expr → Option LiteralKind
  | .number _ _ => some .number
  | .char _ _ => some .char
  | .string _ _ => some .string
  | .list _ _ => some .list
  | _ => none

/-- The name of the kind of an expression. -/
def kindName : Expr → String
  | .number _ _ => "Literal"
  | .char _ _ => "Literal"
  | .string _ _ => "Literal"
  | .list _ _ => "Literal"
  | .name _ _ => "Identifier"
  | .prefixed _ _ _ => "PrefixExpression"
  | .suffixed _ _ _ => "SuffixExpression"
  | .binary _ _ _ _ => "BinaryExpression"
  | .cast _ _ _ => "CastExpression"
  | .sizeOfType _ _ => "SizeofType"
  | .index _ _ _ => "IndexExpression"
  | .call _ _ _ => "CallExpression"

end Expr

end MiniC
