import MiniC.Compilation

/-!
# The workbench

A workbench compiles the text of a buffer and runs what was compiled. Whether it may compile is
told to it by the buffer, once it is attached: the text must not be empty. It may run after a
compilation that succeeded, until the next one or until the text is empty.
-/

namespace MiniC

/-- A text and its last saved version. -/
structure Buffer where
  text : Bytes
  saved : Bytes

namespace Buffer

/-- A buffer whose text counts as saved. -/
def ofText (s : Bytes) : Buffer := ⟨s, s⟩

def hasContent (b : Buffer) : Bool := !b.text.isEmpty

def isUnsaved (b : Buffer) : Bool := b.text != b.saved

end Buffer

/-- What a buffer tells: whether it has content and whether it differs from its saved version. -/
structure Notice where
  hasContent : Bool
  unsaved : Bool
  deriving DecidableEq, Repr

def Buffer.notice (b : Buffer) : Notice := ⟨b.hasContent, b.isUnsaved⟩

/-- Why a command of the workbench fails. -/
inductive WorkbenchError where
  | noContent
  | notCompiled
  | compilation (error : Compilation.Error)
  deriving DecidableEq, Repr

def WorkbenchError.message : WorkbenchError → Bytes
  | .noContent => ascii "nothing to compile"
  | .notCompiled => ascii "nothing to run"
  | .compilation e => e.message

/-- A workbench: what it was told last, and the last compilation if it counts still. -/
structure Workbench where
  file : Bytes
  options : Compilation.Options
  hasContent : Bool
  unsaved : Bool
  last : Option Compilation.Compiled

namespace Workbench

/-- A workbench that has been told nothing. -/
def new (file : Bytes) (options : Compilation.Options) : Workbench :=
  ⟨file, options, false, false, none⟩

def canCompile (w : Workbench) : Bool := w.hasContent

def canRun (w : Workbench) : Bool := w.last.isSome

/-- Takes a notice. Without content the last compilation no longer counts. -/
def notify (w : Workbench) (n : Notice) : Workbench :=
  { w with
    hasContent := n.hasContent
    unsaved := n.unsaved
    last := if n.hasContent then w.last else none }

/-- Compiles a text. -/
def compile (w : Workbench) (text : Bytes) :
    Except WorkbenchError Compilation.Compiled × Workbench :=
  let cleared := { w with last := none }
  if w.hasContent then
    match Compilation.compile text w.file w.options with
    | .ok c => (.ok c, { w with last := some c })
    | .error e => (.error (.compilation e), cleared)
  else (.error .noContent, cleared)

/-- Runs what was compiled last. -/
def run (w : Workbench) : Except WorkbenchError Storage.Image × Workbench :=
  match w.last with
  | none => (.error .notCompiled, w)
  | some c =>
    let image := c.image.initialized
    (.ok image, { w with last := some { c with image } })

end Workbench

/-- A buffer, a workbench on it, and those who listen to the buffer. -/
structure Session where
  buffer : Buffer
  workbench : Workbench
  /-- The workbench listens to the buffer. -/
  attached : Bool
  /-- How many others listen. -/
  listeners : Nat

namespace Session

/-- A session in which nobody listens. -/
def start (text file : Bytes) (options : Compilation.Options) : Session :=
  ⟨Buffer.ofText text, Workbench.new file options, false, 0⟩

/-- Tells the workbench directly. -/
def notify (s : Session) (n : Notice) : Session := { s with workbench := s.workbench.notify n }

/-- Lets the workbench listen; it is told the present state. -/
def attach (s : Session) : Session := { s.notify s.buffer.notice with attached := true }

/-- One more listener, and the notice for it. -/
def subscribe (s : Session) : List Notice × Session :=
  ([s.buffer.notice], { s with listeners := s.listeners + 1 })

/-- Changes the buffer, and gives the notices for the listeners, one for each. -/
def change (s : Session) (b : Buffer) : List Notice × Session :=
  let s := { s with buffer := b }
  (List.replicate s.listeners b.notice, if s.attached then s.notify b.notice else s)

def setText (s : Session) (text : Bytes) : List Notice × Session :=
  s.change { s.buffer with text }

def markSaved (s : Session) : List Notice × Session :=
  s.change { s.buffer with saved := s.buffer.text }

/-- Compiles the text of the buffer. -/
def compile (s : Session) : Except WorkbenchError Compilation.Compiled × Session :=
  let (result, workbench) := s.workbench.compile s.buffer.text
  (result, { s with workbench })

/-- Runs what was compiled last. -/
def run (s : Session) : Except WorkbenchError Storage.Image × Session :=
  let (result, workbench) := s.workbench.run
  (result, { s with workbench })

end Session

end MiniC
