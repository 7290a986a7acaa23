import Polled.Loading
import Polled.Path

/-!
What the compiler asks of a file system.

A `FileSystem` works in any monad: over real files, over a tree held in memory, or over one that fails
when it is told to.
-/

namespace Polled

inductive FileError where
  | notFound
  | alreadyExists
  | notDirectory
  | isDirectory
  | nameTooLong
  /-- No name has a zero character. -/
  | zeroInName
  /-- The bytes of the file are not UTF-8. -/
  | notText
  | other (message : String)
  deriving DecidableEq, Repr

def FileError.message : FileError → String
  | .notFound => "No such file or directory (os error 2)"
  | .alreadyExists => "File exists (os error 17)"
  | .notDirectory => "Not a directory (os error 20)"
  | .isDirectory => "Is a directory (os error 21)"
  | .nameTooLong => "File name too long (os error 36)"
  | .zeroInName => "file name contained an unexpected NUL byte"
  | .notText => "stream did not contain valid UTF-8"
  | .other message => message

structure FileSystem (m : Type → Type) where
  read : Path → m (Except FileError String)
  isDirectory : Path → m Bool
  isFile : Path → m Bool
  /-- Makes one directory in another that is there. -/
  makeDirectory : Path → m (Except FileError Unit)
  write : Path → String → m (Except FileError Unit)
  /-- Moves a file onto a path, and so replaces a file there. -/
  rename : Path → Path → m (Except FileError Unit)
  removeFile : Path → m (Except FileError Unit)
  /-- No more files than this are to be found. -/
  capacity : Nat

namespace FileSystem

variable {m : Type → Type} [Monad m]

/-- A directory that could not be made is no failure if it is there. -/
def settle (fs : FileSystem m) (p : Path) (made : Except FileError Unit) :
    m (Except FileError Unit) := do
  match made with
  | .ok () => return .ok ()
  | .error e => return if ← fs.isDirectory p then .ok () else .error e

/-- Makes the first of these directories, and the ones behind it as far as they are missing. -/
def makeChain (fs : FileSystem m) : List Path → m (Except FileError Unit)
  | [] => return .error (.other "failed to create whole tree")
  | p :: outer => do
    if p.text.isEmpty then return .ok ()
    match ← fs.makeDirectory p with
    | .error .notFound =>
      match ← fs.makeChain outer with
      | .error e => return .error e
      | .ok () => fs.settle p (← fs.makeDirectory p)
    | made => fs.settle p made

/-- Makes a directory with all the directories on the way to it. -/
def makeDirectories (fs : FileSystem m) (p : Path) : m (Except FileError Unit) :=
  fs.makeChain p.ancestors

/-- Removes what can be removed of the given files. -/
def discard (fs : FileSystem m) : List Path → m Unit
  | [] => return ()
  | p :: ps => do
    let _ ← fs.removeFile p
    fs.discard ps

def modules (fs : FileSystem m) (root : Path) : ModuleStore m where
  find name := do
    let path := root.file (moduleFile name)
    match ← fs.read path with
    | .ok text => return .ok (some ⟨path.text, text⟩)
    | .error .notFound => return .ok none
    | .error e => return .error (.program (.unreadable path.text e.message))
  capacity := fs.capacity

end FileSystem

end Polled
