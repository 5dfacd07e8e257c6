import MiniC.Number.Numeral
import MiniC.Syntax.Tree

/-!
# Legible trees

Parentheses are printed around binary operands only, and no blank is printed between two signs. Of
some trees the print is therefore the print of another tree too. A tree is legible if it has

* no suffix behind an operand with an operator or a cast in front, as in `(*p)++`;
* no sign in front of an operand that starts with the same sign, as in `- -x`;
* no member access between digits and a number, as in `1 .5`.
-/

namespace MiniC

/-- With `o` right behind it the operator is read as another one. -/
def PrefixOp.merges (op o : PrefixOp) : Bool :=
  (op = .plus && (o = .plus || o = .inc)) || (op = .neg && (o = .neg || o = .dec))

namespace Expr

/-- The operator in front of the expression, if there is one. -/
def prefixOp? : Expr → Option PrefixOp
  | .prefixed op _ _ => some op
  | _ => none

/-- A suffix behind the expression belongs to all of it. -/
def takesSuffix : Expr → Bool
  | .prefixed _ _ _ => false
  | .cast _ _ _ => false
  | _ => true

/-- The expression, as an operand, ends in a numeral of digits alone. -/
def endsInDigits : Expr → Bool
  | .number value _ => (Numeral.text value).all isDigit
  | .prefixed _ operand _ => operand.endsInDigits
  | .cast _ operand _ => operand.endsInDigits
  | _ => false

/-- The expression, as an operand, starts with a numeral. -/
def startsWithNumeral : Expr → Bool
  | .number _ _ => true
  | .suffixed _ operand _ => operand.startsWithNumeral
  | .index base _ _ => base.startsWithNumeral
  | .call callee _ _ => callee.startsWithNumeral
  | _ => false

end Expr

mutual

/-- The lengths in a type are legible. -/
def TypeDesc.isLegible : TypeDesc → Bool
  | .base _ _ _ => true
  | .pointer target _ => target.isLegible
  | .array target _ => target.isLegible
  | .sizedArray target length _ => target.isLegible && length.isLegible

/-- The print of the expression shows its shape. -/
def Expr.isLegible : Expr → Bool
  | .number _ _ => true
  | .char _ _ => true
  | .string _ _ => true
  | .list items _ => Expr.allLegible items
  | .name _ _ => true
  | .prefixed op operand _ => operand.isLegible && !operand.prefixOp?.any op.merges
  | .suffixed _ operand _ => operand.isLegible && operand.takesSuffix
  | .binary op left right _ =>
    left.isLegible && right.isLegible &&
      !(op = .member && left.endsInDigits && right.startsWithNumeral)
  | .cast type operand _ => type.isLegible && operand.isLegible
  | .sizeOfType type _ => type.isLegible
  | .index base index _ => base.isLegible && base.takesSuffix && index.isLegible
  | .call callee arguments _ =>
    callee.isLegible && callee.takesSuffix && Expr.allLegible arguments

/-- All of the expressions are legible. -/
def Expr.allLegible : List Expr → Bool
  | [] => true
  | e :: rest => e.isLegible && Expr.allLegible rest

end

end MiniC
