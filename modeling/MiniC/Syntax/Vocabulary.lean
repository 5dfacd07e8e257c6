import MiniC.Text.Bytes

/-!
# The vocabulary of types

The parser knows the names of types and the words that modify them. Definitions of structures,
enumerations and type names enlarge the vocabulary while a program is read. Both sets are kept
with longer words first, so that of two matching words the longer one is found.

A set of words (`WordSet`) is a list without repetition in a fixed order. Insertion puts a word in
its place and leaves the list alone if the word is there already.
-/

namespace MiniC

namespace WordSet

/-- Longer words first, words of one length in byte order. -/
def longestFirst (a b : Bytes) : Bool :=
  b.length < a.length || (a.length == b.length && decide (a < b))

/-- Byte order. -/
def alphabetic (a b : Bytes) : Bool := decide (a < b)

/-- Puts `w` in its place in the order `before`, unless it is in the list already. -/
def insert (before : Bytes → Bytes → Bool) (w : Bytes) : List Bytes → List Bytes
  | [] => [w]
  | v :: vs =>
    if w = v then v :: vs
    else if before w v then w :: v :: vs
    else v :: insert before w vs

/-- The set of the words of a list. -/
def ofList (before : Bytes → Bytes → Bool) (words : List Bytes) : List Bytes :=
  words.foldr (insert before) []

end WordSet

/-- Names of types, and words that modify a type. -/
structure Vocabulary where
  types : List Bytes
  modifiers : List Bytes
  deriving DecidableEq, Repr

namespace Vocabulary

/-- Adds a word to a set; the empty word is no word. -/
def addWord (words : List Bytes) (w : Bytes) : List Bytes :=
  if w = [] then words else WordSet.insert WordSet.longestFirst w words

/-- Adds the name of a type. -/
def addType (v : Vocabulary) (name : Bytes) : Vocabulary := { v with types := addWord v.types name }

/-- Adds a modifier. -/
def addModifier (v : Vocabulary) (word : Bytes) : Vocabulary :=
  { v with modifiers := addWord v.modifiers word }

/-- The names of types known from the start. -/
def primitiveTypes : List Bytes :=
  ["void", "char", "short", "int", "long", "float", "double"].map ascii

/-- The modifiers known from the start. -/
def primitiveModifiers : List Bytes :=
  ["signed", "unsigned", "short", "long", "const", "struct", "enum"].map ascii

/-- A vocabulary with more types and modifiers. -/
def extend (v : Vocabulary) (types modifiers : List Bytes) : Vocabulary :=
  modifiers.foldl addModifier (types.foldl addType v)

/-- The vocabulary at the start of a program. -/
def initial : Vocabulary := extend ⟨[], []⟩ primitiveTypes primitiveModifiers

def isType (v : Vocabulary) (name : Bytes) : Bool := v.types.contains name

def isModifier (v : Vocabulary) (word : Bytes) : Bool := v.modifiers.contains word

/-- The names of the types in one line. -/
def typesText (v : Vocabulary) : Bytes := Bytes.join (ascii ", ") v.types

end Vocabulary

end MiniC
