import MiniC.Storage.Layout

/-!
# Errors of generation

A program with anything but global variables of known types and constant initial values has no
image. The error names the first definition that stands in the way.
-/

namespace MiniC.Storage

/-- What is not supported. -/
inductive Construct where
  | function (name : Bytes)
  | prototype (name : Bytes)
  | struct (name : Bytes)
  | enumeration (name : Bytes)
  | typeName (name : Bytes)
  /-- An initial value that is no literal. -/
  | computed (kind : String)
  /-- An initial value that is a literal without a number. -/
  | literal (kind : LiteralKind)
  deriving DecidableEq, Repr

def Construct.text : Construct → Bytes
  | .function name => ascii "function definition " ++ name
  | .prototype name => ascii "function declaration " ++ name
  | .struct name => ascii "struct " ++ name
  | .enumeration name => ascii "enum " ++ name
  | .typeName name => ascii "typedef " ++ name
  | .computed kind => ascii kind ++ ascii " initializer"
  | .literal kind => kind.name ++ ascii " literal initializer"

/-- Why generation fails. -/
inductive Cause where
  | unsupported (construct : Construct)
  | unknownType (name : Bytes) (type : UnknownType)
  /-- There is no room for a variable. -/
  | noSpace (name : Bytes) (size address : Nat)
  deriving DecidableEq, Repr

def Cause.message : Cause → Bytes
  | .unsupported construct => ascii "not yet implemented: " ++ construct.text
  | .unknownType name type => name ++ ascii ": " ++ type.message
  | .noSpace name size address =>
    name ++ ascii ": cannot allocate " ++ Bytes.ofNat size ++ ascii " bytes at 0x" ++
      Bytes.hexPadded 4 address

/-- A failure of generation. -/
structure Error where
  position : Position
  cause : Cause
  deriving DecidableEq, Repr

/-- The error as one line. -/
def Error.message (e : Error) : Bytes := e.position.text ++ ascii ": " ++ e.cause.message

end MiniC.Storage
