import MiniC.Text.Bytes

/-!
# Operators

The operators of expressions, their spellings, and the precedence of the binary ones. The two
halves of a conditional expression, `?` and `:`, are binary operators of one precedence.
-/

namespace MiniC

/-- Binary operators. -/
inductive BinaryOp where
  | assign | addAssign | subAssign | mulAssign | divAssign | modAssign | shrAssign | shlAssign
  | andAssign | xorAssign | orAssign
  | question | colon
  | or | and | bitOr | bitXor | bitAnd
  | lt | gt | le | ge | eq | ne
  | shr | shl | add | sub | mul | div | mod
  | member | arrow
  deriving DecidableEq, Repr

namespace BinaryOp

/-- All binary operators, in the order of their numbers. -/
def all : List BinaryOp :=
  [.assign, .addAssign, .subAssign, .mulAssign, .divAssign, .modAssign, .shrAssign, .shlAssign,
    .andAssign, .xorAssign, .orAssign, .question, .colon, .or, .and, .bitOr, .bitXor, .bitAnd,
    .lt, .gt, .le, .ge, .eq, .ne, .shr, .shl, .add, .sub, .mul, .div, .mod, .member, .arrow]

def symbol : BinaryOp → String
  | .assign => "="
  | .addAssign => "+="
  | .subAssign => "-="
  | .mulAssign => "*="
  | .divAssign => "/="
  | .modAssign => "%="
  | .shrAssign => ">>="
  | .shlAssign => "<<="
  | .andAssign => "&="
  | .xorAssign => "^="
  | .orAssign => "|="
  | .question => "?"
  | .colon => ":"
  | .or => "||"
  | .and => "&&"
  | .bitOr => "|"
  | .bitXor => "^"
  | .bitAnd => "&"
  | .lt => "<"
  | .gt => ">"
  | .le => "<="
  | .ge => ">="
  | .eq => "=="
  | .ne => "!="
  | .shr => ">>"
  | .shl => "<<"
  | .add => "+"
  | .sub => "-"
  | .mul => "*"
  | .div => "/"
  | .mod => "%"
  | .member => "."
  | .arrow => "->"

def spelling (op : BinaryOp) : Bytes := ascii op.symbol

/-- The precedence of assignments, the lowest. -/
def assignLevel : Nat := 1

/-- How tightly an operator binds. -/
def precedence : BinaryOp → Nat
  | .assign | .addAssign | .subAssign | .mulAssign | .divAssign | .modAssign | .shrAssign
  | .shlAssign | .andAssign | .xorAssign | .orAssign => assignLevel
  | .question | .colon => 2
  | .or => 3
  | .and => 4
  | .bitOr => 5
  | .bitXor => 6
  | .bitAnd => 7
  | .lt | .gt | .le | .ge | .eq | .ne => 8
  | .shr | .shl => 9
  | .add | .sub => 10
  | .mul | .div | .mod => 11
  | .member | .arrow => 13

/-- The least precedence of an operator inside the right operand of `op`: assignments group to
the right, all others to the left. -/
def rightLevel (op : BinaryOp) : Nat :=
  if op.precedence = assignLevel then assignLevel else op.precedence + 1

/-- All operators, those with longer spellings first, so that `<<=` is tried before `<<` and
`<`. -/
def longestFirst : List BinaryOp :=
  [3, 2, 1].flatMap fun n => all.filter fun op => op.spelling.length == n

end BinaryOp

/-- Operators in front of their operand, in the order in which they are tried. -/
inductive PrefixOp where
  | inc | dec | not | bitNot | addressOf | deref | plus | neg | sizeOf
  deriving DecidableEq, Repr

namespace PrefixOp

def all : List PrefixOp := [.inc, .dec, .not, .bitNot, .addressOf, .deref, .plus, .neg, .sizeOf]

def symbol : PrefixOp → String
  | .inc => "++"
  | .dec => "--"
  | .not => "!"
  | .bitNot => "~"
  | .addressOf => "&"
  | .deref => "*"
  | .plus => "+"
  | .neg => "-"
  | .sizeOf => "sizeof"

def spelling (op : PrefixOp) : Bytes := ascii op.symbol

end PrefixOp

/-- Operators behind their operand. -/
inductive SuffixOp where
  | inc | dec
  deriving DecidableEq, Repr

def SuffixOp.spelling : SuffixOp → Bytes
  | .inc => ascii "++"
  | .dec => ascii "--"

/-! ### Operators by number -/

/-- The member of a list with the given number. -/
def memberAt? {α : Type} (members : List α) : Int → Option α
  | .ofNat n => members[n]?
  | .negSucc _ => none

/-- The spelling of the binary operator with a given number. -/
def BinaryOp.spellingOfCode (code : Int) : Bytes :=
  (memberAt? all code).elim (ascii "?") spelling

/-- The spelling of the prefix operator with a given number. -/
def PrefixOp.spellingOfCode (code : Int) : Bytes :=
  (memberAt? all code).elim (ascii "?") spelling

/-- The spelling of the suffix operator with a given number. -/
def SuffixOp.spellingOfCode (code : Int) : Bytes :=
  spelling (if code = 0 then .inc else .dec)

end MiniC
