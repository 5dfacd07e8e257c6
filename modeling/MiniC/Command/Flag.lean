import MiniC.Text.Bytes

/-!
# Flags

The flags of the command line: their long names, their letters, and whether a value follows.
-/

namespace MiniC.Command

/-- The flags of the command line. -/
inductive Flag where
  | dumpLines
  | dumpParsed
  | dumpMemory
  | dumpCode
  | astFormat
  | define
  | undefine
  | preprocess
  | output
  | verbose
  | help
  | version
  deriving DecidableEq, Repr

namespace Flag

def all : List Flag :=
  [.dumpLines, .dumpParsed, .dumpMemory, .dumpCode, .astFormat, .define, .undefine, .preprocess,
    .output, .verbose, .help, .version]

/-- The name after two dashes. -/
def name : Flag → Bytes
  | .dumpLines => ascii "dnorm"
  | .dumpParsed => ascii "dparse"
  | .dumpMemory => ascii "dmem"
  | .dumpCode => ascii "dasm"
  | .astFormat => ascii "ast-format"
  | .define => ascii "define"
  | .undefine => ascii "undefine"
  | .preprocess => ascii "preprocess"
  | .output => ascii "output"
  | .verbose => ascii "verbose"
  | .help => ascii "help"
  | .version => ascii "version"

/-- The letter after one dash. -/
def letter? : Flag → Option UInt8
  | .define => some (ch 'D')
  | .undefine => some (ch 'U')
  | .preprocess => some (ch 'E')
  | .output => some (ch 'o')
  | .verbose => some (ch 'v')
  | .help => some (ch 'h')
  | _ => none

/-- A value must follow; the other flags are switches. -/
def takesValue : Flag → Bool
  | .astFormat => true
  | .define => true
  | .undefine => true
  | .output => true
  | _ => false

/-- The flag of a name; underscores may stand for dashes. -/
def ofName? (s : Bytes) : Option Flag :=
  let name := s.map fun b => if b = ch '_' then ch '-' else b
  all.find? fun f => f.name = name

/-- The flag of a letter. -/
def ofLetter? (b : UInt8) : Option Flag := all.find? fun f => f.letter? = some b

/-- The flags for dumps, which may be written with one dash. -/
def dumps : List Flag := [.dumpLines, .dumpParsed, .dumpMemory, .dumpCode]

end Flag

end MiniC.Command
