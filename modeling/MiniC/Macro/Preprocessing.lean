import MiniC.Macro.Directive
import MiniC.Macro.Expander
import MiniC.Source.LogicalLine

/-!
# Preprocessing

Each logical line yields one line of output, so line numbers stay: a definition yields an empty
line and changes the table for the lines after it, any other line starting with `#` is kept as it
is, and the rest is expanded. Options define and remove macros before the first line.

The lines can be processed over a table (`processLines`) or at one expander that is kept from line
to line (`Expander.processLines`).
-/

namespace MiniC.Macro

/-- The output for one line and the table for the lines after it. -/
def processLine (t : Table) (place : Position) (line : Bytes) : Except Error (Bytes × Table) :=
  match Directive.ofLine? line with
  | some d =>
    match d.keyword with
    | .define =>
      match t.defineFrom d.arguments with
      | .ok t' => .ok ([], t')
      | .error name => .error ⟨place, 0, .badName name⟩
    | keyword =>
      let written := ch '#' :: keyword.spelling ++ ch ' ' :: d.arguments
      .error ⟨place, 0, .unsupported (Trim.both written)⟩
  | none =>
    if Directive.isHashLine line then .ok (line, t)
    else (expandLine t place line).map fun text => (text, t)

/-- Processes lines in order, from the line number `number` on, after those already `done` (last
one first). The table is the one in force when the last line was done or the first failed. -/
def processFrom (file : Bytes) : (number : Nat) → (done : List Bytes) → Table → List Bytes →
    Except Error (List Bytes) × Table
  | _, done, t, [] => (.ok done.reverse, t)
  | number, done, t, line :: rest =>
    match processLine t ⟨file, Int64.ofNat number⟩ line with
    | .error e => (.error e, t)
    | .ok (text, t') => processFrom file (number + 1) (text :: done) t' rest

/-- The text of preprocessed lines, and the table after them. -/
def processLines (t : Table) (file : Bytes) (lines : List Bytes) : Except Error Bytes × Table :=
  let (result, t') := processFrom (reportedFile file) 1 [] t lines
  (result.map (Bytes.join [0x0a]), t')

/-! ### Lines at one expander -/

namespace Expander

/-- The output for one line. A definition changes the table of the expander. -/
def processLine (place : Position) (line : Bytes) : Expanding Bytes :=
  match Directive.ofLine? line with
  | some d =>
    match d.keyword with
    | .define => do
      let _ ← perform (.directive d.arguments place)
      return []
    | keyword =>
      let written := ch '#' :: keyword.spelling ++ ch ' ' :: d.arguments
      throw ⟨place, 0, .unsupported (Trim.both written)⟩
  | none => if Directive.isHashLine line then return line else expandLine place line

/-- Processes lines in order, from the line number `number` on, after those already `done` (last
one first). -/
def processFrom (file : Bytes) : (number : Nat) → (done : List Bytes) → List Bytes →
    Expanding (List Bytes)
  | _, done, [] => return done.reverse
  | number, done, line :: rest => do
    let text ← processLine ⟨file, Int64.ofNat number⟩ line
    processFrom file (number + 1) (text :: done) rest

/-- The text of preprocessed lines. -/
def processLines (file : Bytes) (lines : List Bytes) : Expanding Bytes := do
  return Bytes.join [0x0a] (← processFrom (reportedFile file) 1 [] lines)

end Expander

/-! ### Options -/

/-- Values by name, names in byte order. -/
abbrev Defines := List (Bytes × Bytes)

namespace Defines

/-- Sets the value of a name. -/
def set (name value : Bytes) : Defines → Defines
  | [] => [(name, value)]
  | (n, v) :: rest =>
    if name = n then (name, value) :: rest
    else if name < n then (name, value) :: (n, v) :: rest
    else (n, v) :: set name value rest

/-- The name and the value in `name=value`; a name alone has the value 1. -/
def parseOne (argument : Bytes) : Bytes × Bytes :=
  (Bytes.cut? (ch '=') argument).getD (argument, ascii "1")

/-- The values that arguments define; the last one of a name counts. -/
def ofArguments (arguments : List Bytes) : Defines :=
  arguments.foldl (fun d a => set (parseOne a).1 (parseOne a).2 d) []

/-- The definitions written as arguments again. -/
def toArguments (d : Defines) : List Bytes := d.map fun e => e.1 ++ ch '=' :: e.2

end Defines

/-- Options of preprocessing. -/
structure Options where
  defines : Defines
  undefines : List Bytes
  clock : Clock

/-- The macro table in force at the first line. -/
def Options.table (o : Options) : Table :=
  (Table.initial o.clock).applyOptions o.defines.toArguments o.undefines

/-- The preprocessed text of a source. -/
def preprocess (source file : Bytes) (options : Options) : Except Error Bytes :=
  (processLines options.table file (LogicalLine.ofSource source)).1

end MiniC.Macro
