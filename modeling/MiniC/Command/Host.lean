import MiniC.Macro.Clock

/-!
# Hosts

What the command needs from its surroundings: files, two streams for text, and a clock. The
command runs on any host, on the machine as well as on a file tree that is a value.
-/

namespace MiniC.Command

/-- Why a file cannot be used. -/
inductive FileFault where
  | missing
  | isDirectory
  | notDirectory
  | nameTooLong
  | invalidPath
  /-- Any other fault, in the words of the host. -/
  | other (text : Bytes)
  deriving DecidableEq, Repr

def FileFault.text : FileFault → Bytes
  | .missing => ascii "no such file or directory"
  | .isDirectory => ascii "is a directory"
  | .notDirectory => ascii "not a directory"
  | .nameTooLong => ascii "file name too long"
  | .invalidPath => ascii "invalid argument"
  | .other text => text

/-- The steps of using a file. -/
inductive FileStep where
  | opening
  | reading
  | writing
  deriving DecidableEq, Repr

def FileStep.verb : FileStep → Bytes
  | .opening => ascii "open"
  | .reading => ascii "read"
  | .writing => ascii "write"

/-- A file that cannot be used. -/
structure FileError where
  step : FileStep
  path : Bytes
  fault : FileFault
  deriving DecidableEq, Repr

/-- The error as one line. -/
def FileError.message (e : FileError) : Bytes :=
  e.step.verb ++ ch ' ' :: e.path ++ ascii ": " ++ e.fault.text

/-- The surroundings of the command. -/
structure Host (m : Type → Type) where
  /-- The contents of a file. -/
  read : (path : Bytes) → m (Except FileError Bytes)
  /-- Replaces the contents of a file, or makes a new one. -/
  write : (path : Bytes) → (data : Bytes) → m (Except FileError Unit)
  /-- Puts text on the stream for results. -/
  print : Bytes → m Unit
  /-- Puts text on the stream for messages. -/
  report : Bytes → m Unit
  now : m Clock

end MiniC.Command
