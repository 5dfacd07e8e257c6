import MiniC.Proofs.Syntax.BaseTypes
import MiniC.Scan.Lexeme

/-!
# Trees as the parser forms them

Of the trees that there are, the parser returns those that are `Formed`: names are identifiers and
none is `sizeof`, numbers are values of numerals, and a type is arrays around pointers around a
known base type.
-/

namespace MiniC

open Scan

namespace TypeDesc

/-- The type has array brackets outermost. -/
def isArray : TypeDesc → Bool
  | .array _ _ => true
  | .sizedArray _ _ _ => true
  | _ => false

/-- The name of the base type. -/
def baseName : TypeDesc → Bytes
  | .base _ name _ => name
  | .pointer target _ => target.baseName
  | .array target _ => target.baseName
  | .sizedArray target _ _ => target.baseName

/-- The lengths in the array brackets of a type, where they are given. -/
def lengths : TypeDesc → List Expr
  | .base _ _ _ => []
  | .pointer target _ => target.lengths
  | .array target _ => target.lengths
  | .sizedArray target length _ => length :: target.lengths

end TypeDesc

mutual

/-- A type is arrays around pointers around a known base type. -/
def TypeDesc.Formed (v : Vocabulary) : TypeDesc → Prop
  | .base modifiers name _ => v.Knows ⟨modifiers, name⟩
  | .pointer target _ => target.isArray = false ∧ target.Formed v
  | .array target _ => target.Formed v
  | .sizedArray target length _ => target.Formed v ∧ length.Formed v

/-- Names, numbers and types in an expression are such as the parser reads. -/
def Expr.Formed (v : Vocabulary) : Expr → Prop
  | .number value _ => ∃ s n, Lexeme.number s = ⟨n, .ok value⟩
  | .char _ _ => True
  | .string _ _ => True
  | .list items _ => Expr.AllFormed v items
  | .name name _ => isWord name = true ∧ name ≠ ascii "sizeof"
  | .prefixed _ operand _ => operand.Formed v
  | .suffixed _ operand _ => operand.Formed v
  | .binary _ left right _ => left.Formed v ∧ right.Formed v
  | .cast type operand _ => type.Formed v ∧ operand.Formed v
  | .sizeOfType type _ => type.Formed v
  | .index base index _ => base.Formed v ∧ index.Formed v
  | .call callee arguments _ => callee.Formed v ∧ Expr.AllFormed v arguments

/-- All of the expressions are formed so. -/
def Expr.AllFormed (v : Vocabulary) : List Expr → Prop
  | [] => True
  | e :: rest => e.Formed v ∧ Expr.AllFormed v rest

end

theorem Expr.allFormed_iff {v : Vocabulary} {l : List Expr} :
    Expr.AllFormed v l ↔ ∀ e ∈ l, e.Formed v := by
  induction l with
  | nil => simp [AllFormed]
  | cons e rest ih => rw [AllFormed, ih, List.forall_mem_cons]

mutual

/-- The base types in what the parser forms are known. -/
theorem TypeDesc.knowsAll_of_formed {v : Vocabulary} : ∀ t : TypeDesc, t.Formed v →
    v.KnowsAll t.baseTypes
  | .base _ _ _, h => List.forall_mem_singleton.2 h
  | .pointer target _, h => TypeDesc.knowsAll_of_formed target h.2
  | .array target _, h => TypeDesc.knowsAll_of_formed target h
  | .sizedArray target length _, h =>
    Vocabulary.knowsAll_append.2
      ⟨TypeDesc.knowsAll_of_formed target h.1, Expr.knowsAll_of_formed length h.2⟩

theorem Expr.knowsAll_of_formed {v : Vocabulary} : ∀ e : Expr, e.Formed v →
    v.KnowsAll e.baseTypes
  | .number _ _, _ => Vocabulary.knowsAll_nil
  | .char _ _, _ => Vocabulary.knowsAll_nil
  | .string _ _, _ => Vocabulary.knowsAll_nil
  | .list items _, h => Expr.knowsAll_of_allFormed items h
  | .name _ _, _ => Vocabulary.knowsAll_nil
  | .prefixed _ operand _, h => Expr.knowsAll_of_formed operand h
  | .suffixed _ operand _, h => Expr.knowsAll_of_formed operand h
  | .binary _ left right _, h =>
    Vocabulary.knowsAll_append.2
      ⟨Expr.knowsAll_of_formed left h.1, Expr.knowsAll_of_formed right h.2⟩
  | .cast type operand _, h =>
    Vocabulary.knowsAll_append.2
      ⟨TypeDesc.knowsAll_of_formed type h.1, Expr.knowsAll_of_formed operand h.2⟩
  | .sizeOfType type _, h => TypeDesc.knowsAll_of_formed type h
  | .index base index _, h =>
    Vocabulary.knowsAll_append.2
      ⟨Expr.knowsAll_of_formed base h.1, Expr.knowsAll_of_formed index h.2⟩
  | .call callee arguments _, h =>
    Vocabulary.knowsAll_append.2
      ⟨Expr.knowsAll_of_formed callee h.1, Expr.knowsAll_of_allFormed arguments h.2⟩

theorem Expr.knowsAll_of_allFormed {v : Vocabulary} : ∀ l : List Expr, Expr.AllFormed v l →
    v.KnowsAll (Expr.baseTypesAll l)
  | [], _ => Vocabulary.knowsAll_nil
  | e :: rest, h =>
    Vocabulary.knowsAll_append.2
      ⟨Expr.knowsAll_of_formed e h.1, Expr.knowsAll_of_allFormed rest h.2⟩

end

end MiniC
