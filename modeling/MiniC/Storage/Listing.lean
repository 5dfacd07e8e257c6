import MiniC.Number.Numeral
import MiniC.Storage.Image
import MiniC.Text.Utf8

/-!
# Listings

An image is printed in three parts: the variables with address, size, key and name, the
instructions, and the used memory in hexadecimal.
-/

namespace MiniC.Storage

/-- A number as an address. -/
def addressText (address : Int) : Bytes := ascii "0x" ++ Bytes.hexOfInt 4 address

/-- The text of an instruction. -/
def instructionText (type : IntType) (address : Int) (value : Binary64) : Bytes :=
  type.name ++ ascii " [" ++ addressText address ++ ascii "] = " ++ Numeral.text value

def Instruction.text (i : Instruction) : Bytes := instructionText i.type i.address i.value

/-! ### Hexadecimal dumps -/

/-- A byte as itself, or as a point if it is not a visible character of ASCII. -/
def visible (b : UInt8) : UInt8 := if 32 ≤ b && b ≤ 126 then b else ch '.'

/-- The bytes of a line in two columns of eight. -/
def dumpColumns (s : Bytes) : Bytes :=
  let column := fun (s : Bytes) => s.flatMap fun b => Bytes.hexPadded 2 b.toNat ++ [ch ' ']
  column (s.take 8) ++ (if 8 ≤ s.length then [ch ' '] else []) ++ column (s.drop 8)

/-- The width of both columns with the blanks behind them. -/
def dumpWidth : Nat := 50

/-- A line of a dump: its offset, the bytes, and the bytes as characters. -/
def dumpLine (offset : Nat) (s : Bytes) : Bytes :=
  let columns := dumpColumns s
  Bytes.hexPadded 8 offset ++ ascii "  " ++ columns ++
    List.replicate (dumpWidth - columns.length) (ch ' ') ++ ch '|' :: s.map visible ++ ascii "|\n"

/-- The lines of a dump, sixteen bytes on each. -/
def dump (s : Bytes) : Bytes :=
  let lines := (gather (fun (offset, (s : Bytes)) =>
    if s.isEmpty then none else some (dumpLine offset (s.take 16), (offset + 16, s.drop 16)))
    s [] (0, s)).1
  lines.flatten

/-! ### The parts of a listing -/

/-- A line for a variable. -/
structure Row where
  address : Int
  size : Int
  key : Bytes
  name : Bytes

/-- The width of the column for keys. -/
def keyWidth : Nat := 20

def Row.text (r : Row) : Bytes :=
  addressText r.address ++ ch ' ' :: Bytes.padLeft 2 (ch ' ') (Bytes.ofInt r.size) ++
    ch ' ' :: r.key ++ List.replicate (keyWidth - Utf8.size r.key) (ch ' ') ++ ch ' ' :: r.name

/-- The line of a variable. -/
def Decl.row (d : Decl) : Row := ⟨d.address, d.layout.size, d.layout.key, d.name⟩

/-- The variables, one on a line. -/
def layoutText (staticSize : Nat) (rows : List Row) : Bytes :=
  let title := ascii "// globals (" ++ Bytes.ofNat staticSize ++ ascii " bytes)"
  Bytes.lines (title :: rows.map Row.text)

/-- The instructions, one on a line. -/
def programText (program : List Instruction) : Bytes :=
  Bytes.lines (ascii "// initializer" :: program.map Instruction.text)

namespace Image

/-- The used memory. -/
def memoryText (i : Image) : Bytes := Bytes.lines [ascii "// memory"] ++ dump i.used

/-- The listing with the given lines for the variables. -/
def listingWith (rows : List Row) (i : Image) : Bytes :=
  layoutText i.staticSize rows ++ 0x0a :: programText i.program ++ 0x0a :: i.memoryText

/-- The listing of an image. -/
def listing (i : Image) : Bytes := i.listingWith (i.decls.map Decl.row)

end Image

end MiniC.Storage
