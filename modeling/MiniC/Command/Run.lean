import MiniC.Command.Host
import MiniC.Command.Settings
import MiniC.Source.Position
import MiniC.Storage.Listing
import MiniC.Syntax.Printer
import MiniC.Workbench
import MiniC.Yaml.Block

/-!
# The command

Reads the arguments and does what they ask for: help, the version, one of the dumps, or a
compilation. A message in front of a failure goes to the stream for messages; arguments that
cannot be read, and more than one file, fail without a message.
-/

namespace MiniC.Command

/-- How the command ends. -/
inductive Outcome where
  | success
  | failure
  deriving DecidableEq, Repr

/-- The status that the command gives to its host. -/
def Outcome.status : Outcome → Nat
  | .success => 0
  | .failure => 1

/-- A part of the command that may fail with a message. -/
abbrev Action (m : Type → Type) := ExceptT Bytes m

def helpText : Bytes :=
  Bytes.lines <| List.map ascii
    ["ramcc is a miniature C compiler. It normalizes and preprocesses",
     "the source, parses it, and lays out global variables in a 64 KiB",
     "address space together with the program that initializes them.",
     "",
     "Usage:",
     "  ramcc [file] [flags]",
     "",
     "Flags:",
     "      --ast-format string      AST dump format for -dparse: c or yaml (default \"c\")",
     "      --dasm                   Dump function code",
     "  -D, --define stringArray     Define macro (NAME or NAME=VALUE)",
     "      --dmem                   Dump the memory layout, initializer and memory",
     "      --dnorm                  Dump normalized logical lines",
     "      --dparse                 Dump after parsing",
     "  -h, --help                   help for ramcc",
     "  -o, --output string          Write the initialized memory image to FILE",
     "  -E, --preprocess             Preprocess only, output to stdout",
     "  -U, --undefine stringArray   Undefine macro",
     "  -v, --verbose                Report each pipeline stage",
     "      --version                version for ramcc"]

def versionText : Bytes := ascii "ramcc version 0.1.0\n"

variable {m : Type → Type} [Monad m]

/-- Puts a line on the stream for messages. -/
def say (host : Host m) (text : Bytes) : m Unit :=
  host.report (ascii "ramcc: " ++ text ++ [0x0a])

/-- Puts a line on the stream for messages if every stage is to be reported. -/
def log (host : Host m) (s : Settings) (text : Bytes) : Action m Unit :=
  if s.verbose then ExceptT.lift (say host text) else pure ()

def print (host : Host m) (text : Bytes) : Action m Unit := ExceptT.lift (host.print text)

/-- The contents of the source file. -/
def readSource (host : Host m) (file : Bytes) : Action m Bytes := do
  match ← ExceptT.lift (host.read file) with
  | .ok data => return data
  | .error e => throw (ascii "error reading " ++ file ++ ascii ": " ++ e.message)

/-- Writes a file. -/
def create (host : Host m) (file data : Bytes) : Action m Unit := do
  match ← ExceptT.lift (host.write file data) with
  | .ok () => return
  | .error e => throw (ascii "error creating " ++ file ++ ascii ": " ++ e.message)

def macroOptions (s : Settings) (clock : Clock) : Macro.Options :=
  ⟨Macro.Defines.ofArguments s.defines, s.undefines, clock⟩

/-- The options for a file: those of the settings, and no preprocessing if the file needs none. -/
def compileOptions (s : Settings) (file : Bytes) (clock : Clock) : Compilation.Options :=
  ⟨macroOptions s clock, !FileName.needsPreprocessing file, [], []⟩

/-! ### The modes -/

/-- Prints the preprocessed source. -/
def preprocessOnly (host : Host m) (s : Settings) (file : Bytes) : Action m Unit := do
  let options := macroOptions s (← ExceptT.lift host.now)
  let heading := ascii "preprocessing error: "
  match ← ExceptT.lift (host.read file) with
  | .error e => throw (heading ++ ascii "reading " ++ file ++ ascii ": " ++ e.message)
  | .ok source =>
    match Macro.preprocess source file options with
    | .ok text => print host text
    | .error e => throw (heading ++ e.message)

/-- A logical line behind its number. -/
def numberedLine (number : Nat) (line : Bytes) : Bytes :=
  Bytes.padLeft 4 (ch ' ') (Bytes.ofNat number) ++ ascii "  " ++ line

/-- Prints the logical lines. -/
def dumpLines (host : Host m) (s : Settings) (file : Bytes) : Action m Unit := do
  let lines := LogicalLine.ofSource (← readSource host file)
  log host s (ascii "normalized " ++ file ++ ascii ": " ++ Bytes.ofNat lines.length ++
    ascii " logical lines")
  print host (Bytes.lines (lines.zipIdx.map fun (line, i) => numberedLine (i + 1) line))

def reportParsed (host : Host m) (s : Settings) (file : Bytes) (p : Program) : Action m Unit :=
  log host s (ascii "parsed " ++ file ++ ascii ": " ++ Bytes.ofNat p.length ++
    ascii " definitions")

/-- The file for the parsed program, next to the source. -/
def parsedFile (file format : Bytes) : Bytes :=
  Bytes.withoutTail (ascii ".c") file ++ ascii ".parsed." ++ format

/-- Prints the parsed program and writes it to a file. -/
def dumpParsed (host : Host m) (s : Settings) (file : Bytes) : Action m Unit := do
  let source ← readSource host file
  match Compilation.parse source file (compileOptions s file (← ExceptT.lift host.now)) with
  | .error e => throw e.message
  | .ok parsed =>
    reportParsed host s file parsed.program
    let text :=
      if s.astFormat = ascii "yaml" then Yaml.text (Outline.program parsed.program)
      else Printer.program parsed.program
    create host (parsedFile file s.astFormat) text
    print host text

/-- Writes the memory to the output file. -/
def writeMemory (host : Host m) (s : Settings) (image : Storage.Image) : Action m Unit := do
  create host s.output image.memory.toList
  log host s (ascii "wrote " ++ Bytes.ofNat image.memory.size ++ ascii " bytes to " ++ s.output)

/-- Compiles the source and runs the result. -/
def compile (host : Host m) (s : Settings) (file : Bytes) : Action m Unit := do
  let source ← readSource host file
  let options := compileOptions s file (← ExceptT.lift host.now)
  let (compiled, session) := (Session.start source file options).attach.compile
  match compiled with
  | .error e => throw e.message
  | .ok c =>
    reportParsed host s file c.program
    log host s (ascii "generated " ++ Bytes.ofNat c.image.decls.length ++ ascii " globals, " ++
      Bytes.ofNat c.image.program.length ++ ascii " instructions")
    match session.run.1 with
    | .error e => throw e.message
    | .ok image =>
      if s.dumpMemory then print host image.listing
      if s.output ≠ [] then writeMemory host s image
      ExceptT.lift (say host (ascii "compiling " ++ file ++ ascii ": " ++
        Bytes.ofNat image.used.length ++ ascii " bytes of static data"))

/-! ### The whole command -/

/-- What the settings ask for, besides help and the version. -/
def perform (host : Host m) (s : Settings) : Action m Unit := do
  if s.dumpCode then throw (ascii "warning: -dasm (dump function code) is not yet implemented")
  else if s.astFormat ≠ ascii "c" && s.astFormat ≠ ascii "yaml" then
    throw (ascii "unknown AST format " ++ Quoted.text s.astFormat ++ ascii " (want c or yaml)")
  else
    match s.files with
    | [] => print host helpText
    | file :: _ =>
      if s.preprocessOnly then preprocessOnly host s file
      else if s.dumpLines then dumpLines host s file
      else if s.dumpParsed then dumpParsed host s file
      else compile host s file

/-- Runs the command. -/
def run (host : Host m) (arguments : List Bytes) : m Outcome := do
  match Settings.ofArguments? arguments with
  | none => return .failure
  | some s =>
    if s.help then
      host.print helpText
      return .success
    else if s.version then
      host.print versionText
      return .success
    else if 1 < s.files.length then return .failure
    else
      match ← (perform host s).run with
      | .ok () => return .success
      | .error message =>
        say host message
        return .failure

end MiniC.Command
