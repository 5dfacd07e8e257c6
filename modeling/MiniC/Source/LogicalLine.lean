import MiniC.Source.Trigraph

/-!
# Physical and logical lines

A source is cut into physical lines at every newline, carriage return, or carriage return followed
by a newline. A physical line that ends in a backslash is spliced with the next one; the logical
lines are what splicing leaves, with their trigraphs replaced.
-/

namespace MiniC.LogicalLine

/-- Lines cut off so far, last one first, and the current line, last byte first. -/
structure Cutting where
  done : List Bytes
  current : Bytes
  /-- The last byte was a carriage return, so a newline belongs to the same line end. -/
  afterReturn : Bool

namespace Cutting

/-- Ends the current line. -/
def close (c : Cutting) (afterReturn : Bool) : Cutting :=
  ⟨c.current.reverse :: c.done, [], afterReturn⟩

/-- Reads one more byte. -/
def step (c : Cutting) (b : UInt8) : Cutting :=
  if b = 0x0d then c.close true
  else if b = 0x0a then if c.afterReturn then { c with afterReturn := false } else c.close false
  else ⟨c.done, b :: c.current, false⟩

end Cutting

/-- The physical lines of a source, without their line ends. -/
def physical (source : Bytes) : List Bytes :=
  ((source.foldl Cutting.step ⟨[], [], false⟩).close false).done.reverse

/-- The line without the backslash at its end, if it ends in one. -/
def spliced? (line : Bytes) : Option Bytes :=
  if line.getLast? = some (ch '\\') then some line.dropLast else none

/-- Puts a physical line in front of the lines spliced so far. -/
def splice (line : Bytes) (after : List Bytes) : List Bytes :=
  match spliced? line, after with
  | none, _ => line :: after
  | some body, [] => [body]
  | some body, next :: more => (body ++ next) :: more

/-- The logical lines of a source. -/
def ofSource (source : Bytes) : List Bytes :=
  ((physical source).foldr splice []).map Trigraph.replace

/-- The logical lines as one text. -/
def text (source : Bytes) : Bytes := Bytes.join [0x0a] (ofSource source)

end MiniC.LogicalLine
