import MiniC.Storage.Error

/-!
# Memory images

Global variables are laid out one after another from address 0 in a memory of 64 KiB. The image of
a program lists the variables with their places and the instructions that write their initial
values; `initialized` clears the memory and runs the instructions.
-/

namespace MiniC.Storage

/-- Bytes that can be written to. -/
abbrev Buffer (n : Nat) := Vector UInt8 n

namespace Buffer

variable {n : Nat}

/-- Writes bytes from an address on; those beyond the end are dropped. -/
def store (m : Buffer n) (address : Nat) : Bytes → Buffer n
  | [] => m
  | b :: rest => store (m.setIfInBounds address b) (address + 1) rest

/-- Writes a value of an integer type from an address on. -/
def put (m : Buffer n) (address : Nat) (t : IntType) (x : Binary64) : Buffer n :=
  m.store address (t.encode x)

end Buffer

/-- The number of bytes in memory. -/
def memorySize : Nat := 65536

/-- The contents of memory. -/
abbrev Memory := Buffer memorySize

/-- Memory with the same byte everywhere. -/
def Memory.filled (b : UInt8) : Memory := Vector.replicate memorySize b

/-- A variable and its place. -/
structure Decl where
  name : Bytes
  layout : Layout
  address : Nat
  /-- The initial value as it is written. -/
  initial : Option Expr
  position : Position

/-- Writes a value at an address. -/
structure Instruction where
  address : Nat
  type : IntType
  value : Binary64

/-- Runs one instruction. -/
def Instruction.run (i : Instruction) (m : Memory) : Memory :=
  m.put i.address i.type i.value

/-- Memory with its variables and the program that sets them. -/
structure Image where
  memory : Memory
  /-- The number of bytes that variables take. -/
  staticSize : Nat
  decls : List Decl
  program : List Instruction

namespace Image

/-- The image after its instructions have run on cleared memory. -/
def initialized (i : Image) : Image :=
  { i with memory := i.program.foldl (fun m step => step.run m) (Memory.filled 0) }

/-- The bytes that variables take. -/
def used (i : Image) : Bytes := (i.memory.toArray.extract 0 i.staticSize).toList

end Image

/-! ### Generation -/

/-- What is laid out so far, last one first. -/
structure Draft where
  /-- The first free address. -/
  next : Nat
  decls : List Decl
  program : List Instruction

namespace Draft

def empty : Draft := ⟨0, [], []⟩

/-- The value of a literal that stands for a number. -/
def constant (e : Expr) : Except Error Binary64 :=
  match e with
  | .number value _ => .ok value
  | .char code _ => .ok (Binary64.ofNat code.toNat)
  | e =>
    let construct := match e.literalKind? with
      | some kind => .literal kind
      | none => .computed e.kindName
    .error ⟨e.position, .unsupported construct⟩

/-- Adds a variable at the first free address. -/
def place (d : Draft) (name : Bytes) (layout : Layout) (initial : Option Expr) (p : Position) :
    Except Error Draft :=
  if memorySize < d.next + layout.size then .error ⟨p, .noSpace name layout.size d.next⟩
  else
    .ok { d with
      next := d.next + layout.size
      decls := ⟨name, layout, d.next, initial, p⟩ :: d.decls }

/-- Adds a global variable and the instruction for its initial value. -/
def addGlobal (d : Draft) (name : Bytes) (type : TypeDesc) (initial : Option Expr) (p : Position) :
    Except Error Draft := do
  let layout ← match Layout.ofType type with
    | .ok layout => .ok layout
    | .error e => .error ⟨p, .unknownType name e⟩
  let placed ← d.place name layout initial p
  match initial with
  | none => .ok placed
  | some e =>
    let value ← constant e
    .ok { placed with program := ⟨d.next, layout.type, value⟩ :: placed.program }

/-- Adds a definition. -/
def add (d : Draft) : Definition → Except Error Draft
  | .global name type initial p => d.addGlobal name type initial p
  | .function name _ _ _ p => .error ⟨p, .unsupported (.function name)⟩
  | .prototype name _ _ p => .error ⟨p, .unsupported (.prototype name)⟩
  | .struct name _ p => .error ⟨p, .unsupported (.struct name)⟩
  | .enumeration name _ p => .error ⟨p, .unsupported (.enumeration name)⟩
  | .typeName name _ p => .error ⟨p, .unsupported (.typeName name)⟩

/-- The image of what is laid out; its memory is clear. -/
def image (d : Draft) : Image := ⟨Memory.filled 0, d.next, d.decls.reverse, d.program.reverse⟩

end Draft

/-- The image of a program. -/
def generate (p : Program) : Except Error Image := do
  let d ← p.foldlM Draft.add Draft.empty
  .ok d.image

end MiniC.Storage
