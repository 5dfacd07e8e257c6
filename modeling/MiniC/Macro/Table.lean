import MiniC.Macro.Clock
import MiniC.Source.Position
import MiniC.Text.Quoted

/-!
# The macro table

A macro has a replacement text, is a flag without text, or is one of four built-in macros whose
text depends on the place of use or on the clock. The table maps names to macros; a later
definition replaces an earlier one.
-/

namespace MiniC.Macro

/-- The macros that are there from the start. -/
inductive Builtin where
  | file
  | line
  | date
  | time
  deriving DecidableEq, Repr

/-- What a macro stands for. -/
inductive Replacement where
  | object (text : Bytes)
  | flag
  | builtin (b : Builtin)
  deriving DecidableEq, Repr

/-- Macros by name, and the clock that the built-in ones show. A name occurs once at most. -/
structure Table where
  clock : Clock
  entries : List (Bytes × Replacement)

namespace Table

/-- The built-in macros by name. -/
def builtins : List (Bytes × Replacement) :=
  [(ascii "__FILE__", .builtin .file), (ascii "__LINE__", .builtin .line),
    (ascii "__DATE__", .builtin .date), (ascii "__TIME__", .builtin .time)]

/-- The table of the built-in macros. -/
def initial (clock : Clock) : Table := ⟨clock, builtins⟩

/-- The macro of a name. -/
def lookup? (t : Table) (name : Bytes) : Option Replacement := t.entries.lookup name

/-- Removes a name; a name that is not there is ignored. -/
def undefine (t : Table) (name : Bytes) : Table :=
  { t with entries := t.entries.filter fun e => e.1 != name }

/-- Sets the macro of a name. -/
def set (t : Table) (name : Bytes) (r : Replacement) : Table :=
  { t with entries := (name, r) :: (t.undefine name).entries }

/-- The replacement for a value: its trimmed text, or a flag if nothing is left. -/
def replacementOf (value : Bytes) : Replacement :=
  let text := Trim.both value
  if text = [] then .flag else .object text

/-- Defines a name by a value. -/
def define (t : Table) (name value : Bytes) : Table := t.set name (replacementOf value)

/-- Name and value in the arguments of a definition: the value starts at the first space or
tab. -/
def splitDefinition (arguments : Bytes) : Bytes × Bytes :=
  let text := Trim.both arguments
  text.span fun b => b != ch ' ' && b != 0x09

/-- Defines the macro that the arguments of a directive describe, or refuses its name. -/
def defineFrom (t : Table) (arguments : Bytes) : Except Bytes Table :=
  let (name, value) := splitDefinition arguments
  if isWord name then .ok (t.define name value) else .error name

/-- Defines a name from `name=value`; a name alone gets the value 1. -/
def defineOption (t : Table) (option : Bytes) : Table :=
  match Bytes.cut? (ch '=') option with
  | some (name, value) => t.define name value
  | none => t.define option (ascii "1")

/-- Applies definitions in order, then removals. -/
def applyOptions (t : Table) (defines undefines : List Bytes) : Table :=
  undefines.foldl undefine (defines.foldl defineOption t)

/-- The text that replaces a macro used at `place`. -/
def text (t : Table) (place : Position) : Replacement → Bytes
  | .object text => text
  | .flag => []
  | .builtin .file => Quoted.text place.file
  | .builtin .line => Bytes.ofInt place.line.toInt
  | .builtin .date => Quoted.text t.clock.date
  | .builtin .time => Quoted.text t.clock.time

end Table

end MiniC.Macro
