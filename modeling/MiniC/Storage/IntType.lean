import MiniC.Number.Binary64
import MiniC.Syntax.Operator

/-!
# Integers in memory

A variable is stored as an integer of one, two or four bytes, lowest byte first. A value is cut to
its integer part, wrapped to 32 bits and then to the width, so the sign of the type makes no
difference to the bytes; values that are not finite are stored as zero.
-/

namespace MiniC

/-- Whether an integer type has a sign. -/
inductive Signedness where
  | signed
  | unsigned
  deriving DecidableEq, Repr

namespace Signedness

def name : Signedness → Bytes
  | .signed => ascii "signed"
  | .unsigned => ascii "unsigned"

/-- The name for a number: zero stands for signed, any other number for unsigned. -/
def nameOfCode (code : Int) : Bytes := name (if code = 0 then .signed else .unsigned)

end Signedness

/-- The sizes of integers. -/
inductive IntSize where
  | i8
  | i16
  | i32
  deriving DecidableEq, Repr

namespace IntSize

def all : List IntSize := [.i8, .i16, .i32]

def name : IntSize → Bytes
  | .i8 => ascii "i8"
  | .i16 => ascii "i16"
  | .i32 => ascii "i32"

/-- The number of bytes. -/
def bytes : IntSize → Nat
  | .i8 => 1
  | .i16 => 2
  | .i32 => 4

/-- The name of the size with a given number. -/
def nameOfCode (code : Int) : Bytes := (memberAt? all code).elim (ascii "?") name

/-- The number of bytes of the size with a given number; four if there is none. -/
def bytesOfCode (code : Int) : Nat := (memberAt? all code).elim 4 bytes

end IntSize

/-- An integer type as memory knows it. -/
structure IntType where
  size : IntSize
  sign : Signedness
  deriving DecidableEq, Repr

namespace IntType

def int8 : IntType := ⟨.i8, .signed⟩

def uint8 : IntType := ⟨.i8, .unsigned⟩

def int16 : IntType := ⟨.i16, .signed⟩

def uint16 : IntType := ⟨.i16, .unsigned⟩

def int32 : IntType := ⟨.i32, .signed⟩

def uint32 : IntType := ⟨.i32, .unsigned⟩

def all : List IntType := [int8, uint8, int16, uint16, int32, uint32]

/-- The number of bytes that a value takes. -/
def width (t : IntType) : Nat := t.size.bytes

/-- The name, such as `int8` or `uint32`. -/
def name (t : IntType) : Bytes :=
  (if t.sign = .unsigned then ascii "uint" else ascii "int") ++ Bytes.ofNat (8 * t.width)

/-- The type of a name. -/
def ofName? (s : Bytes) : Option IntType := all.find? fun t => t.name = s

end IntType

/-- The lowest `width` bytes of a number, lowest one first. -/
def littleEndian : (width : Nat) → Nat → Bytes
  | 0, _ => []
  | width + 1, n => (n % 256).toUInt8 :: littleEndian width (n / 256)

/-- The integer part of a value, wrapped to 32 bits; zero if the value is not finite. The remainder
that is wrapped has the sign of the value. -/
def storedBits (x : Binary64) : UInt32 :=
  if x.isFinite then (Int64.ofInt (x.truncate.tmod (Nat.pow 2 32))).toUInt64.toUInt32 else 0

/-- The bytes of a value in memory. -/
def IntType.encode (t : IntType) (x : Binary64) : Bytes :=
  match t.size with
  | .i8 => [(storedBits x).toUInt8]
  | .i16 => littleEndian 2 (storedBits x).toUInt16.toNat
  | .i32 => littleEndian 4 (storedBits x).toNat

end MiniC
