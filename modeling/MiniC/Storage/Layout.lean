import MiniC.Storage.IntType
import MiniC.Syntax.Tree
import MiniC.Syntax.Vocabulary
import MiniC.Text.Quoted

/-!
# Layouts

The layout of a type depends on the set of its words, apart from qualifiers: their order and
repetition do not matter. The key of a type is that set in byte order, written with spaces. All
pointers and arrays have one layout, an address of two bytes.
-/

namespace MiniC

/-- How variables of a type are stored. -/
structure Layout where
  key : Bytes
  type : IntType
  deriving DecidableEq, Repr

/-- A type whose size is not known, by its key. -/
structure UnknownType where
  key : Bytes
  deriving DecidableEq, Repr

/-- The message for a type whose size is not known. -/
def UnknownType.message (e : UnknownType) : Bytes :=
  ascii "unknown type size: " ++ Quoted.text e.key

namespace Layout

/-- The number of bytes that a variable takes. -/
def size (l : Layout) : Nat := l.type.width

/-- Words that make no difference to the layout. -/
def qualifiers : List Bytes := [ascii "const", ascii "static", ascii "volatile"]

/-- The words of a base type; an empty name counts for nothing. -/
def words (modifiers : List Bytes) (name : Bytes) : List Bytes :=
  if name = [] then modifiers else modifiers ++ [name]

/-- The key of a collection of words. -/
def keyOfWords (words : List Bytes) : Bytes :=
  Bytes.join [ch ' ']
    (WordSet.ofList WordSet.alphabetic (words.filter fun w => !qualifiers.contains w))

/-- The key of a base type with modifiers. -/
def keyOf (modifiers : List Bytes) (name : Bytes) : Bytes := keyOfWords (words modifiers name)

/-- The base types and their sizes. -/
def baseTypes : List (List Bytes × IntSize) :=
  [([ascii "char"], .i8), ([ascii "short"], .i16), ([ascii "short", ascii "int"], .i16),
    ([ascii "int"], .i32), ([ascii "long"], .i32), ([ascii "long", ascii "int"], .i32)]

/-- The layouts of a base type: signed without a word or with `signed`, else unsigned. -/
def ofBaseType (base : List Bytes × IntSize) : List Layout :=
  [⟨keyOfWords base.1, ⟨base.2, .signed⟩⟩,
    ⟨keyOfWords (ascii "signed" :: base.1), ⟨base.2, .signed⟩⟩,
    ⟨keyOfWords (ascii "unsigned" :: base.1), ⟨base.2, .unsigned⟩⟩]

/-- The layouts of all base types. -/
def table : List Layout := baseTypes.flatMap ofBaseType

/-- The layout of a base type with modifiers. -/
def resolve (modifiers : List Bytes) (name : Bytes) : Except UnknownType Layout :=
  let k := keyOf modifiers name
  match table.find? fun l => l.key = k with
  | some l => .ok l
  | none => .error ⟨k⟩

/-- The layout of pointers and arrays. -/
def pointer : Layout := ⟨ascii "pointer", .uint16⟩

/-- The layout of a type. -/
def ofType : TypeDesc → Except UnknownType Layout
  | .base modifiers name _ => resolve modifiers name
  | .pointer _ _ => .ok pointer
  | .array _ _ => .ok pointer
  | .sizedArray _ _ _ => .ok pointer

end Layout

end MiniC
