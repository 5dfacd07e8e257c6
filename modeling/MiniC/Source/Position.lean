import MiniC.Text.Utf8

/-!
# Files and positions

A place in the source is a file name and a line number. Line numbers are machine integers of 64
bits: a line marker may set any of them, and counting on from there wraps around. The extension of
a file name tells whether the file has been preprocessed already.
-/

namespace MiniC

/-- A line of a file. -/
structure Position where
  file : Bytes
  line : Int64
  deriving DecidableEq, Repr

namespace Position

/-- The position as `file:line`. -/
def text (p : Position) : Bytes := p.file ++ ch ':' :: Bytes.ofInt p.line.toInt

/-- The same file, one line further. -/
def nextLine (p : Position) : Position := { p with line := p.line + 1 }

end Position

/-- The name of sources that come without a file name. -/
def defaultFile : Bytes := ascii "editor"

/-- The file name to report: `file`, or the default name if there is none. -/
def reportedFile (file : Bytes) : Bytes := if file = [] then defaultFile else file

/-! ### File names -/

namespace FileName

/-- The last component of a path. -/
def base (path : Bytes) : Bytes := (path.reverse.takeWhile (· != ch '/')).reverse

/-- The part of the last component from its last point on; empty if it has no point. -/
def extension (path : Bytes) : Bytes :=
  let name := (base path).reverse
  if name.contains (ch '.') then (name.takeWhile (· != ch '.')).reverse |> (ch '.' :: ·) else []

/-- The character is the letter `i` or `p`, in upper or lower case; the capital I with a dot has
the lower case `i` too. -/
def marksPreprocessed (c : Char) : Bool :=
  c == 'i' || c == 'I' || c == 'İ' || c == 'p' || c == 'P'

/-- The file has to be preprocessed: its extension is neither `.i` nor `.p`. -/
def needsPreprocessing (path : Bytes) : Bool :=
  match Utf8.pieces (extension path) with
  | [_, .char c] => !marksPreprocessed c
  | _ => true

end FileName

end MiniC
