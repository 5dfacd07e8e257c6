import MiniC.Command.Host

/-!
# File trees as values

A tree of directories and files as a host of the command. A path that starts with a slash leads
from the root, and any other path from the working directory. A path is followed component by
component: every component but the last must be a directory, and the root is its own parent.
-/

namespace MiniC.Command

/-- The components of a path from the root. -/
abbrev Path := List Bytes

/-- A file tree: the paths of its directories besides the root, and its files with their
contents. -/
structure FileTree where
  folders : List Path
  files : List (Path × Bytes)
  /-- The working directory. -/
  workplace : Path

namespace FileTree

/-- The directories that every machine has. -/
def usualFolders : List Path :=
  List.map (List.map ascii)
    [["bin"], ["boot"], ["dev"], ["etc"], ["home"], ["lib"], ["media"], ["mnt"], ["opt"], ["proc"],
     ["root"], ["run"], ["sbin"], ["srv"], ["sys"], ["tmp"], ["usr"], ["usr", "bin"],
     ["usr", "lib"], ["usr", "local"], ["usr", "sbin"], ["usr", "share"], ["var"],
     ["var", "cache"], ["var", "lib"], ["var", "log"], ["var", "tmp"]]

/-- The device that reads as an empty file and loses what is written to it. -/
def nullDevice : Path := [ascii "dev", ascii "null"]

/-- The tree of a machine whose working directory is empty. -/
def initial : FileTree :=
  let workplace := [ascii "tmp", ascii "work"]
  ⟨workplace :: usualFolders, [], workplace⟩

def isFolder (t : FileTree) (p : Path) : Bool := p.isEmpty || t.folders.contains p

/-- The contents of a file. -/
def file? (t : FileTree) (p : Path) : Option Bytes :=
  if p = nullDevice then some [] else (t.files.find? fun f => f.1 = p).map (·.2)

/-- Adds folders along a path, without its last component. -/
def addFolders (t : FileTree) (p : Path) : FileTree :=
  { t with folders := t.folders ++ (List.range (p.length - 1)).map fun i => p.take (i + 1) }

/-- Sets the contents of a file. -/
def setFile (t : FileTree) (p : Path) (data : Bytes) : FileTree :=
  if p = nullDevice then t
  else { t with files := t.files.filter (fun f => f.1 ≠ p) ++ [(p, data)] }

/-- The files in the working directory, with their paths from there. -/
def workFiles (t : FileTree) : List (Path × Bytes) :=
  t.files.filterMap fun (p, data) =>
    if t.workplace.isPrefixOf p then some (p.drop t.workplace.length, data) else none

/-! ### Following paths -/

/-- The longest name of a file. -/
def maxName : Nat := 255

/-- The longest path. -/
def maxPath : Nat := 4095

/-- The place that a component leads to. -/
def enter (t : FileTree) (place : Path) (component : Bytes) : Except FileFault Path :=
  if !t.isFolder place then .error .notDirectory
  else if component = [] || component = ascii "." then .ok place
  else if component = ascii ".." then .ok place.dropLast
  else if maxName < component.length then .error .nameTooLong
  else
    let next := place ++ [component]
    if t.isFolder next || (t.file? next).isSome then .ok next else .error .missing

/-- The place where a path starts. -/
def start (t : FileTree) (path : Bytes) : Path :=
  if path.head? = some (ch '/') then [] else t.workplace

/-- The place that components lead to. -/
def follow (t : FileTree) (place : Path) (components : List Bytes) : Except FileFault Path :=
  components.foldlM t.enter place

/-- Paths that no file can have: those with a zero byte, the empty one, and those that are too
long. -/
def refusal? (path : Bytes) : Option FileFault :=
  if path.contains 0 then some .invalidPath
  else if path = [] then some .missing
  else if maxPath < path.length then some .nameTooLong
  else none

/-! ### Reading and writing -/

/-- The contents of the file at a path. -/
def read (t : FileTree) (path : Bytes) : Except FileError Bytes :=
  match refusal? path with
  | some fault => .error ⟨.opening, path, fault⟩
  | none =>
    match t.follow (t.start path) (Bytes.fields (ch '/') path) with
    | .error fault => .error ⟨.opening, path, fault⟩
    | .ok place =>
      match t.file? place with
      | some data => .ok data
      | none => .error ⟨.reading, path, .isDirectory⟩

/-- The place of a file that is to be written. A path that ends in a slash or in dots leads to no
file. -/
def target (t : FileTree) (path : Bytes) : Except FileFault Path := do
  let stem := (path.reverse.dropWhile (· == ch '/')).reverse
  let components := Bytes.fields (ch '/') stem
  let folder ← t.follow (t.start path) components.dropLast
  let name := components.getLastD []
  if !t.isFolder folder then throw .notDirectory
  else if stem.length < path.length || name = ascii "." || name = ascii ".." then
    throw .isDirectory
  else if maxName < name.length then throw .nameTooLong
  else if t.isFolder (folder ++ [name]) then throw .isDirectory
  else return folder ++ [name]

/-- Writes a file at a path. -/
def write (t : FileTree) (path data : Bytes) : Except FileError FileTree :=
  match refusal? path with
  | some fault => .error ⟨.opening, path, fault⟩
  | none =>
    match t.target path with
    | .ok place => .ok (t.setFile place data)
    | .error fault => .error ⟨.opening, path, fault⟩

end FileTree

/-- A file tree and what was written to the two streams. -/
structure World where
  tree : FileTree
  printed : Bytes
  reported : Bytes

/-- The host that works on a file tree at a fixed time. -/
def FileTree.host (clock : Clock) : Host (StateM World) where
  read path := do return (← get).tree.read path
  write path data := do
    let w ← get
    match w.tree.write path data with
    | .ok t =>
      set { w with tree := t }
      return .ok ()
    | .error e => return .error e
  print text := modify fun w => { w with printed := w.printed ++ text }
  report text := modify fun w => { w with reported := w.reported ++ text }
  now := return clock

end MiniC.Command
