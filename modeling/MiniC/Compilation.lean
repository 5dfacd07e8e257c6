import MiniC.Grammar.Program
import MiniC.Macro.Preprocessing
import MiniC.Storage.Image

/-!
# Compilation

A source is preprocessed, parsed, and laid out in memory. An error of any stage ends the
compilation; its message says which stage it was.
-/

namespace MiniC.Compilation

/-- Options of a compilation. -/
structure Options where
  macros : Macro.Options
  /-- The source is preprocessed already. -/
  preprocessed : Bool
  /-- Words that are types from the start. -/
  types : List Bytes
  /-- Words that are modifiers from the start. -/
  modifiers : List Bytes

/-- Why a compilation fails. -/
inductive Error where
  | preprocessing (error : Macro.Error)
  | parsing (error : SyntaxError)
  | generating (error : Storage.Error)
  deriving DecidableEq, Repr

namespace Error

/-- The stage in front of the message. -/
def heading : Error → Bytes
  | .preprocessing _ => ascii "preprocessing: "
  | .parsing _ => ascii "parsing: "
  | .generating _ => ascii "generating: "

def message (e : Error) : Bytes :=
  e.heading ++
    match e with
    | .preprocessing e => e.message
    | .parsing e => e.message
    | .generating e => e.message

end Error

/-- A program and the text that it was read from. -/
structure Parsed where
  text : Bytes
  program : Program

/-- A program and its image. -/
structure Compiled extends Parsed where
  image : Storage.Image

/-- The text that the parser reads. -/
def preprocessed (source file : Bytes) (o : Options) : Except Error Bytes :=
  if o.preprocessed then .ok source
  else (Macro.preprocess source (reportedFile file) o.macros).mapError .preprocessing

/-- The stages up to the parser. -/
def parse (source file : Bytes) (o : Options) : Except Error Parsed := do
  let text ← preprocessed source file o
  let vocabulary := Vocabulary.initial.extend o.types o.modifiers
  let program ← (Grammar.parseProgram text (reportedFile file) vocabulary).1.mapError .parsing
  return ⟨text, program⟩

/-- All stages. -/
def compile (source file : Bytes) (o : Options) : Except Error Compiled := do
  let parsed ← parse source file o
  let image ← (Storage.generate parsed.program).mapError .generating
  return ⟨parsed, image⟩

end MiniC.Compilation
