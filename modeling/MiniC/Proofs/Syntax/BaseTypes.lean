import MiniC.Proofs.Syntax.Vocabulary
import MiniC.Syntax.Tree

/-!
# The base types in a tree

`baseTypes` lists the base types that are written anywhere in a tree: in casts, behind `sizeof`, and
in the lengths of arrays, too. A vocabulary `Knows` a base type whose name and modifiers are among
its words. `int` needs no word of its own, since the sign alone stands for it.

A definition is read under the vocabulary in force `inside` it and leaves the one in force `behind`
it, with the type that it declares. `Definition.Scoped` says that it uses known types only.
-/

namespace MiniC

/-- A base type as it is written: the words that modify it, and its name. -/
structure BaseType where
  modifiers : List Bytes
  name : Bytes
  deriving DecidableEq, Repr

/-! ### Base types of trees -/

mutual

/-- The base types in a type. -/
def TypeDesc.baseTypes : TypeDesc → List BaseType
  | .base modifiers name _ => [⟨modifiers, name⟩]
  | .pointer target _ => target.baseTypes
  | .array target _ => target.baseTypes
  | .sizedArray target length _ => target.baseTypes ++ length.baseTypes

/-- The base types in an expression. -/
def Expr.baseTypes : Expr → List BaseType
  | .number _ _ => []
  | .char _ _ => []
  | .string _ _ => []
  | .list items _ => Expr.baseTypesAll items
  | .name _ _ => []
  | .prefixed _ operand _ => operand.baseTypes
  | .suffixed _ operand _ => operand.baseTypes
  | .binary _ left right _ => left.baseTypes ++ right.baseTypes
  | .cast type operand _ => type.baseTypes ++ operand.baseTypes
  | .sizeOfType type _ => type.baseTypes
  | .index base index _ => base.baseTypes ++ index.baseTypes
  | .call callee arguments _ => callee.baseTypes ++ Expr.baseTypesAll arguments

/-- The base types in expressions. -/
def Expr.baseTypesAll : List Expr → List BaseType
  | [] => []
  | e :: rest => e.baseTypes ++ Expr.baseTypesAll rest

end

/-- The base types in an expression that may be missing. -/
def Expr.baseTypes? (e : Option Expr) : List BaseType := e.elim [] Expr.baseTypes

mutual

/-- The base types in a statement. -/
def Stmt.baseTypes : Stmt → List BaseType
  | .ret value _ => Expr.baseTypes? value
  | .ifThen condition body _ => condition.baseTypes ++ Stmt.baseTypesAll body
  | .ifElse condition body otherwise _ =>
    condition.baseTypes ++ (Stmt.baseTypesAll body ++ Stmt.baseTypesAll otherwise)
  | .whileLoop condition body _ => condition.baseTypes ++ Stmt.baseTypesAll body
  | .doWhile body condition _ => Stmt.baseTypesAll body ++ condition.baseTypes
  | .forLoop start condition step body _ =>
    start.baseTypes ++
      (Expr.baseTypes? condition ++ (Expr.baseTypes? step ++ Stmt.baseTypesAll body))
  | .declaration _ type value _ => type.baseTypes ++ Expr.baseTypes? value
  | .expression value _ => Expr.baseTypes? value

/-- The base types in statements. -/
def Stmt.baseTypesAll : List Stmt → List BaseType
  | [] => []
  | s :: rest => s.baseTypes ++ Stmt.baseTypesAll rest

end

theorem Stmt.baseTypesAll_eq_flatMap (l : List Stmt) :
    Stmt.baseTypesAll l = l.flatMap Stmt.baseTypes := by
  induction l with
  | nil => rfl
  | cons s rest ih => rw [baseTypesAll, ih, List.flatMap_cons]

namespace Definition

/-- The base types in a definition. -/
def baseTypes : Definition → List BaseType
  | .struct _ members _ => members.flatMap fun m => m.type.baseTypes
  | .enumeration _ members _ => members.flatMap fun e => Expr.baseTypes? e.value
  | .typeName _ type _ => type.baseTypes
  | .prototype _ result parameters _ =>
    result.baseTypes ++ parameters.flatMap fun q => q.type.baseTypes
  | .function _ result parameters body _ =>
    result.baseTypes ++
      (parameters.flatMap (fun q => q.type.baseTypes) ++ Stmt.baseTypesAll body)
  | .global _ type value _ => type.baseTypes ++ Expr.baseTypes? value

/-- The name of the type that a definition declares. -/
def declaredType? : Definition → Option Bytes
  | .struct name _ _ => some name
  | .enumeration name _ _ => some name
  | .typeName name _ _ => some name
  | _ => none

end Definition

/-! ### Known base types -/

namespace Vocabulary

variable {v : Vocabulary}

/-- No word of the vocabulary is empty. -/
def Proper (v : Vocabulary) : Prop := [] ∉ v.modifiers ++ v.types

instance (v : Vocabulary) : Decidable v.Proper := inferInstanceAs (Decidable (¬ _))

theorem Proper.modifiers (h : v.Proper) : [] ∉ v.modifiers := fun hmem =>
  h (List.mem_append_left _ hmem)

theorem Proper.types (h : v.Proper) : [] ∉ v.types := fun hmem => h (List.mem_append_right _ hmem)

theorem Proper.addType (h : v.Proper) (name : Bytes) : (v.addType name).Proper := by
  intro hmem
  rcases List.mem_append.1 hmem with hmem | hmem
  · exact h.modifiers hmem
  · rcases mem_types_addType.1 hmem with ⟨-, hne⟩ | hmem
    · exact hne rfl
    · exact h.types hmem

/-- The name is a type of the vocabulary or `int`, and the modifiers are words of it. -/
def Knows (v : Vocabulary) (b : BaseType) : Prop :=
  (b.name ∈ v.types ∨ b.name = ascii "int") ∧ ∀ w ∈ b.modifiers, w ∈ v.modifiers

/-- All of the base types are known. -/
def KnowsAll (v : Vocabulary) (l : List BaseType) : Prop := ∀ b ∈ l, v.Knows b

theorem knowsAll_nil : v.KnowsAll [] := List.forall_mem_nil _

theorem knowsAll_append {l l' : List BaseType} :
    v.KnowsAll (l ++ l') ↔ v.KnowsAll l ∧ v.KnowsAll l' := List.forall_mem_append

theorem knowsAll_flatMap {α : Type} {f : α → List BaseType} {l : List α} :
    v.KnowsAll (l.flatMap f) ↔ ∀ a ∈ l, v.KnowsAll (f a) := List.forall_mem_flatMap

theorem knowsAll_statements {l : List Stmt} :
    v.KnowsAll (Stmt.baseTypesAll l) ↔ ∀ s ∈ l, v.KnowsAll s.baseTypes := by
  rw [Stmt.baseTypesAll_eq_flatMap, knowsAll_flatMap]

/-- The vocabulary in force inside a definition: a structure is known to its own members. -/
def inside (v : Vocabulary) : Definition → Vocabulary
  | .struct name _ _ => v.addType name
  | _ => v

/-- The vocabulary behind a definition: the type that it declares is known. -/
def behind (v : Vocabulary) (d : Definition) : Vocabulary := d.declaredType?.elim v v.addType

theorem mem_types_behind {w : Bytes} {d : Definition} :
    w ∈ (v.behind d).types ↔ (d.declaredType? = some w ∧ w ≠ []) ∨ w ∈ v.types := by
  unfold behind
  cases d.declaredType? with
  | none => simp
  | some name =>
    rw [Option.elim_some, mem_types_addType, Option.some.injEq, eq_comm]

theorem modifiers_behind (v : Vocabulary) (d : Definition) :
    (v.behind d).modifiers = v.modifiers := by
  unfold behind
  cases d.declaredType? <;> rfl

theorem modifiers_foldl_behind (p : Program) :
    (p.foldl behind v).modifiers = v.modifiers := by
  induction p generalizing v with
  | nil => rfl
  | cons d p ih => rw [List.foldl_cons, ih, modifiers_behind]

/-- **The types behind a program are those before and those that it declares.** -/
theorem mem_types_foldl_behind {w : Bytes} (p : Program) :
    w ∈ (p.foldl behind v).types ↔
      (∃ d ∈ p, d.declaredType? = some w ∧ w ≠ []) ∨ w ∈ v.types := by
  induction p generalizing v with
  | nil => simp
  | cons d p ih =>
    rw [List.foldl_cons, ih, mem_types_behind, List.exists_mem_cons_iff, or_left_comm, or_assoc]

theorem Proper.behind (h : v.Proper) (d : Definition) : (v.behind d).Proper := by
  unfold Vocabulary.behind
  cases d.declaredType? with
  | none => exact h
  | some name => exact h.addType name

theorem Proper.foldl_behind (h : v.Proper) (p : Program) :
    (p.foldl Vocabulary.behind v).Proper := by
  induction p generalizing v with
  | nil => exact h
  | cons d p ih => exact ih (h.behind d)

end Vocabulary

/-- Under the vocabulary, the definition uses known types only, and the type that it declares has
a name. -/
structure Definition.Scoped (v : Vocabulary) (d : Definition) : Prop where
  known : (v.inside d).KnowsAll d.baseTypes
  named : ∀ w, d.declaredType? = some w → w ≠ []

/-- Each definition of the program is scoped behind the ones before it. -/
def Program.Scoped (v : Vocabulary) (p : Program) : Prop :=
  ∀ (k : Nat) (d : Definition), p[k]? = some d → d.Scoped ((p.take k).foldl Vocabulary.behind v)

namespace Program

variable {v : Vocabulary} {p : Program}

theorem scoped_nil : Scoped v [] := fun _ _ h => by cases h

theorem Scoped.concat (h : Scoped v p) {d : Definition}
    (hd : d.Scoped (p.foldl Vocabulary.behind v)) : Scoped v (p ++ [d]) := by
  intro k d' hget
  rcases Nat.lt_or_ge k p.length with hk | hk
  · rw [List.getElem?_append_left hk] at hget
    rw [List.take_append_of_le_length (Nat.le_of_lt hk)]
    exact h k d' hget
  · rw [List.getElem?_append_right hk, List.getElem?_singleton] at hget
    split_ifs at hget with hzero
    cases hget
    have hlength : k = p.length := by omega
    rw [hlength, List.take_left]
    exact hd

end Program

end MiniC
