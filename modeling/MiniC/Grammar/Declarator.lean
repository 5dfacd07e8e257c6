import MiniC.Grammar.Parser
import MiniC.Syntax.Tree

/-!
# Declarators

A declarator is a run of modifiers, a base type, stars, a name and array brackets. It starts with
a word of the vocabulary. The length in array brackets is an expression, whose parser is a
parameter here.
-/

namespace MiniC.Grammar

open MiniC.Parser

/-- Whether a declarator has a name. -/
inductive Naming where
  | named
  | nameless
  | optional
  deriving DecidableEq, Repr

/-- A word of the vocabulary stands at the cursor. -/
def typeStarts : Parser Bool := do
  let v := (← get).vocabulary
  return (← firstPeeked id (v.modifiers ++ v.types)).isSome

/-- Tries each modifier once, in order, and gives those that were there. -/
def modifierPass : List Bytes → Parser (List Bytes)
  | [] => return []
  | w :: rest => do
    if ← accept w then return w :: (← modifierPass rest) else modifierPass rest

/-- One pass over the modifiers behind those `found` before; it is the last if it finds none. -/
def modifierStep (words found : List Bytes) : Parser (List Bytes ⊕ List Bytes) := do
  let more ← modifierPass words
  return if more.isEmpty then .inr found else .inl (found ++ more)

/-- All modifiers at the cursor: passes over the vocabulary until one finds none. -/
def modifiers : Parser (List Bytes) := do
  let v := (← get).vocabulary
  iterate (modifierStep v.modifiers) []

/-- The list without its last member in the class, and that member. -/
def withoutLast? {α : Type} (inClass : α → Bool) (l : List α) : Option (List α × α) :=
  match l.reverse.span (fun a => !inClass a) with
  | (_, []) => none
  | (after, a :: before) => some (before.reverse ++ after.reverse, a)

/-- The base type if no name of a type follows the modifiers: the last modifier that is a type
too, or `int` if the sign is given. -/
def impliedBase? (v : Vocabulary) (found : List Bytes) : Option (List Bytes × Bytes) :=
  match withoutLast? v.isType found with
  | some base => some base
  | none =>
    if found.contains (ascii "signed") || found.contains (ascii "unsigned") then
      some (found, ascii "int")
    else none

/-- Modifiers and name of the base type. -/
def baseType : Parser (List Bytes × Bytes) := do
  let found ← modifiers
  let v := (← get).vocabulary
  match ← firstAccepted id v.types with
  | some name => return (found, name)
  | none =>
    match impliedBase? v found with
    | some base => return base
    | none => unexpected v.typesText

/-- Wraps a type once if a star follows. -/
def pointerStep (t : TypeDesc) : Parser (TypeDesc ⊕ TypeDesc) := do
  if ← accept (ascii "*") then return .inl (.pointer t (← here)) else return .inr t

/-- Wraps a type once for each star. -/
def pointers (type : TypeDesc) : Parser TypeDesc := iterate pointerStep type

/-- Wraps a type once if a pair of brackets follows. -/
def arrayStep (length : Parser Expr) (t : TypeDesc) : Parser (TypeDesc ⊕ TypeDesc) := do
  if ← accept (ascii "[") then
    let p ← here
    if ← accept (ascii "]") then return .inl (.array t p)
    else
      let n ← length
      expect (ascii "]")
      return .inl (.sizedArray t n p)
  else return .inr t

/-- Wraps a type once for each pair of brackets. -/
def arrays (length : Parser Expr) (type : TypeDesc) : Parser TypeDesc :=
  iterate (arrayStep length) type

/-- The name in a declarator; empty if there is none. -/
def declaredName : Naming → Parser Bytes
  | .named => identifier
  | .nameless => return []
  | .optional => do
    if ← test Scan.Scanner.atIdentifier then identifier else return []

/-- A type and the name that it is declared for. -/
def declaratorWith (length : Parser Expr) (naming : Naming) : Parser (TypeDesc × Bytes) := do
  let p ← here
  let (found, base) ← baseType
  let type ← pointers (.base found base p)
  let name ← declaredName naming
  let type ← arrays length type
  return (type, name)

end MiniC.Grammar
