import Polled.FileSystem

/-!
A file system held in memory.

A tree is a list of places, each given by the names from the root down to it, and what stands there.
-/

namespace Polled

inductive FileNode where
  /-- The text of a file, or nothing if its bytes are not UTF-8. -/
  | file (text : Option String)
  | directory
  deriving DecidableEq, Repr

/-- Names from the root down. -/
abbrev Place := List String

structure FileTree where
  /-- Where relative paths start. -/
  here : Place
  nodes : List (Place × FileNode)
  deriving DecidableEq, Repr

namespace FileTree

/-- The root is always there. -/
def node? (t : FileTree) (p : Place) : Option FileNode :=
  if p.isEmpty then some .directory else t.nodes.lookup p

def erase (t : FileTree) (p : Place) : FileTree := { t with nodes := t.nodes.filter fun n => n.1 != p }

def insert (t : FileTree) (p : Place) (n : FileNode) : FileTree :=
  { t with nodes := (p, n) :: (t.erase p).nodes }

structure Target where
  place : Place
  node? : Option FileNode
  /-- The path ends in a slash behind a name. -/
  slashed : Bool
  deriving DecidableEq, Repr

/-- Longest name of a file, in bytes. -/
def maxName : Nat := 255

/-- Length that no path reaches, in bytes. -/
def pathLimit : Nat := 4096

/-- Follows segments from a directory. Only the last name may be missing. -/
def follow (t : FileTree) (at_ : Place) : List String → Except FileError Target
  | [] => .ok ⟨at_, some .directory, false⟩
  | s :: rest =>
    if Path.isIdle s then t.follow at_ rest
    else if s == ".." then t.follow at_.dropLast rest
    else if maxName < s.utf8ByteSize then .error .nameTooLong
    else
      let place := at_ ++ [s]
      let isLast := rest.all (· == "")
      match t.node? place with
      | some .directory => t.follow place rest
      | some (.file text) =>
        if isLast then .ok ⟨place, some (.file text), !rest.isEmpty⟩ else .error .notDirectory
      | none => if isLast then .ok ⟨place, none, !rest.isEmpty⟩ else .error .notFound

def locate (t : FileTree) (p : Path) : Except FileError Target :=
  if p.text.isEmpty then .error .notFound
  else if p.text.toList.contains (Char.ofNat 0) then .error .zeroInName
  else if pathLimit ≤ p.text.utf8ByteSize then .error .nameTooLong
  else t.follow (if p.isAbsolute then [] else t.here) p.segments

def read (t : FileTree) (p : Path) : Except FileError String := do
  match ← t.locate p with
  | ⟨_, some .directory, _⟩ => throw .isDirectory
  | ⟨_, some (.file _), true⟩ => throw .notDirectory
  | ⟨_, some (.file (some text)), false⟩ => return text
  | ⟨_, some (.file none), false⟩ => throw .notText
  | ⟨_, none, _⟩ => throw .notFound

def isDirectory (t : FileTree) (p : Path) : Bool :=
  match t.locate p with
  | .ok ⟨_, some .directory, _⟩ => true
  | _ => false

def isFile (t : FileTree) (p : Path) : Bool :=
  match t.locate p with
  | .ok ⟨_, some (.file _), false⟩ => true
  | _ => false

def makeDirectory (t : FileTree) (p : Path) : Except FileError FileTree := do
  match ← t.locate p with
  | ⟨_, some _, _⟩ => throw .alreadyExists
  | ⟨place, none, _⟩ => return t.insert place .directory

def write (t : FileTree) (p : Path) (text : String) : Except FileError FileTree := do
  match ← t.locate p with
  | ⟨_, some .directory, _⟩ | ⟨_, _, true⟩ => throw .isDirectory
  | ⟨place, _, false⟩ => return t.insert place (.file (some text))

def rename (t : FileTree) (source dest : Path) : Except FileError FileTree := do
  let moved ← t.locate source
  let onto ← t.locate dest
  match moved, onto with
  | ⟨_, none, _⟩, _ => throw .notFound
  | ⟨_, some (.file _), true⟩, _ => throw .notDirectory
  | ⟨place, some (.file text), false⟩, ⟨place', some (.file _), false⟩ =>
    return (t.erase place).insert place' (.file text)
  | ⟨place, some (.file text), false⟩, ⟨place', none, false⟩ =>
    return (t.erase place).insert place' (.file text)
  | ⟨_, some (.file _), false⟩, ⟨_, some .directory, _⟩ => throw .isDirectory
  | ⟨_, some (.file _), false⟩, ⟨_, _, true⟩ => throw .notDirectory
  | ⟨_, some .directory, _⟩, _ => throw .isDirectory

def removeFile (t : FileTree) (p : Path) : Except FileError FileTree := do
  match ← t.locate p with
  | ⟨_, some .directory, _⟩ => throw .isDirectory
  | ⟨_, some (.file _), true⟩ => throw .notDirectory
  | ⟨place, some (.file _), false⟩ => return t.erase place
  | ⟨_, none, _⟩ => throw .notFound

/-- Leaves the tree as it is when a call fails. -/
def update (call : FileTree → Except FileError FileTree) : StateM FileTree (Except FileError Unit) := do
  let t ← get
  match call t with
  | .ok t' =>
    set t'
    return .ok ()
  | .error e => return .error e

/-- The calls of a file system that starts as the given tree. A path and a plain name can lead to one
file, which is then found twice. -/
def fileSystem (start : FileTree) : FileSystem (StateM FileTree) where
  read p := return (← get).read p
  isDirectory p := return (← get).isDirectory p
  isFile p := return (← get).isFile p
  makeDirectory p := update (·.makeDirectory p)
  write p text := update (·.write p text)
  rename source dest := update (·.rename source dest)
  removeFile p := update (·.removeFile p)
  capacity := start.nodes.length + 1

end FileTree

end Polled
