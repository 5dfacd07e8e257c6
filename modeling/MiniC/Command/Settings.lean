import MiniC.Command.Flag

/-!
# Settings

The arguments of the command line are read one after another. A flag is written with two dashes
and its name, with a value behind `=` or in the next argument, or with one dash and its letter;
letters of switches may be put together, and a value may follow the last letter directly. Two
dashes alone end the flags. Whatever does not start with a dash is a file.
-/

namespace MiniC.Command

/-- What the command line asks for. -/
structure Settings where
  dumpLines : Bool
  dumpParsed : Bool
  dumpMemory : Bool
  dumpCode : Bool
  astFormat : Bytes
  defines : List Bytes
  undefines : List Bytes
  preprocessOnly : Bool
  /-- The file for the memory image; empty if there is none. -/
  output : Bytes
  verbose : Bool
  help : Bool
  version : Bool
  files : List Bytes
  deriving DecidableEq, Repr

namespace Settings

/-- The settings without any arguments. -/
def initial : Settings where
  dumpLines := false
  dumpParsed := false
  dumpMemory := false
  dumpCode := false
  astFormat := ascii "c"
  defines := []
  undefines := []
  preprocessOnly := false
  output := []
  verbose := false
  help := false
  version := false
  files := []

/-- The words for the positions of a switch. -/
def switch? (s : Bytes) : Option Bool :=
  if (["1", "t", "T", "TRUE", "true", "True"].map ascii).contains s then some true
  else if (["0", "f", "F", "FALSE", "false", "False"].map ascii).contains s then some false
  else none

/-- Gives a flag a value; only certain words are values of a switch. -/
def set? (s : Settings) (f : Flag) (value : Bytes) : Option Settings :=
  match f with
  | .dumpLines => (switch? value).map fun b => { s with dumpLines := b }
  | .dumpParsed => (switch? value).map fun b => { s with dumpParsed := b }
  | .dumpMemory => (switch? value).map fun b => { s with dumpMemory := b }
  | .dumpCode => (switch? value).map fun b => { s with dumpCode := b }
  | .astFormat => some { s with astFormat := value }
  | .define => some { s with defines := s.defines ++ [value] }
  | .undefine => some { s with undefines := s.undefines ++ [value] }
  | .preprocess => (switch? value).map fun b => { s with preprocessOnly := b }
  | .output => some { s with output := value }
  | .verbose => (switch? value).map fun b => { s with verbose := b }
  | .help => (switch? value).map fun b => { s with help := b }
  | .version => (switch? value).map fun b => { s with version := b }

/-- Turns a switch on. -/
def turnOn? (s : Settings) (f : Flag) : Option Settings := s.set? f (ascii "true")

end Settings

/-! ### Reading arguments -/

/-- What is read so far. -/
structure Reading where
  settings : Settings
  /-- The flag whose value is the next argument. -/
  awaiting : Option Flag
  /-- No more flags follow. -/
  flagsEnded : Bool

namespace Reading

def initial : Reading := ⟨.initial, none, false⟩

def addFile (r : Reading) (file : Bytes) : Reading :=
  { r with settings := { r.settings with files := r.settings.files ++ [file] } }

def set? (r : Reading) (f : Flag) (value : Bytes) : Option Reading :=
  (r.settings.set? f value).map fun s => { r with settings := s }

/-- A flag without a value: a switch is turned on, and any other flag awaits its value. -/
def bare? (r : Reading) (f : Flag) : Option Reading :=
  if f.takesValue then some { r with awaiting := some f }
  else (r.settings.turnOn? f).map fun s => { r with settings := s }

/-- A flag by its name, with or without a value. -/
def long? (r : Reading) (text : Bytes) : Option Reading :=
  match text with
  | [] => none
  | b :: _ =>
    if b = ch '-' || b = ch '=' then none
    else
      match Bytes.cut? (ch '=') text with
      | some (name, value) => (Flag.ofName? name).bind fun f => r.set? f value
      | none => (Flag.ofName? text).bind r.bare?

/-- The value behind a letter and an equals sign. -/
def equalsValue? : Bytes → Option Bytes
  | e :: b :: rest => if e = ch '=' then some (b :: rest) else none
  | _ => none

/-- A group of letters that is left out. -/
def isLeftOut (letters : Bytes) : Bool := (ascii "test.").isPrefixOf letters

/-- Flags by their letters. -/
def letters? (r : Reading) : Bytes → Option Reading
  | [] => some r
  | b :: rest =>
    if isLeftOut (b :: rest) then some r
    else
      match Flag.ofLetter? b with
      | none => none
      | some f =>
        match equalsValue? rest with
        | some value => r.set? f value
        | none =>
          if f.takesValue && !rest.isEmpty then r.set? f rest
          else
            match r.bare? f with
            | none => none
            | some r' => letters? r' rest

/-- An argument that is not the value of a flag. -/
def argument? (r : Reading) (text : Bytes) : Option Reading :=
  match text with
  | a :: b :: rest =>
    if a ≠ ch '-' then some (r.addFile text)
    else if b ≠ ch '-' then r.letters? (b :: rest)
    else if rest = [] then some { r with flagsEnded := true }
    else r.long? rest
  | _ => some (r.addFile text)

/-- The next argument. -/
def next? (r : Reading) (text : Bytes) : Option Reading :=
  if r.flagsEnded then some (r.addFile text)
  else
    match r.awaiting with
    | some f => { r with awaiting := none }.set? f text
    | none => r.argument? text

end Reading

namespace Settings

/-- A flag for a dump with one dash, written with two. -/
def withTwoDashes (argument : Bytes) : Bytes :=
  if Flag.dumps.any (fun f => ch '-' :: f.name = argument) then ch '-' :: argument else argument

/-- The settings for a list of arguments, if they can be read. -/
def ofArguments? (arguments : List Bytes) : Option Settings :=
  match (arguments.map withTwoDashes).foldlM Reading.next? Reading.initial with
  | some ⟨s, none, _⟩ => some s
  | _ => none

end Settings

end MiniC.Command
