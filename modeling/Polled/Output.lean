import Polled.BuildPlan
import Polled.CSource
import Polled.Routine.Stored

/-!
Writing the files of a generated program.

Every file is first written beside its place and moved there once all of them are written. If anything
fails, the files that were written or moved are removed again.
-/

namespace Polled

structure OutputFile where
  path : Path
  text : String
  deriving DecidableEq, Repr

def OutputForm.files (p : Program) (dir : Path) : OutputForm → List OutputFile
  | .c => [⟨dir.file (p.entry ++ ".h"), p.cFiles.header⟩, ⟨dir.file (p.entry ++ ".c"), p.cFiles.source⟩]
  | .ir => [⟨dir.file (p.entry ++ ".ir.json"), p.toJson.pretty⟩]

def Program.outputFiles (p : Program) (dir : Path) (forms : List OutputForm) : List OutputFile :=
  forms.flatMap (OutputForm.files p dir)

/-- Where a file waits until all of them are written. -/
def Path.staging (p : Path) : Path := p.withFileName (p.fileName?.getD "" ++ ".tmp")

/-- The files that were moved into place, and whether all of them were. -/
structure Delivery where
  moved : List Path
  outcome : Except CompileError Unit

namespace FileSystem

variable {m : Type → Type} [Monad m]

def fileFault (p : Path) (e : FileError) : CompileError := .output (.file p.text e.message)

def stage (fs : FileSystem m) (staged : List Path) : List OutputFile → m (Except CompileError Unit)
  | [] => return .ok ()
  | file :: rest => do
    match ← fs.write file.path.staging file.text with
    | .ok () => fs.stage (staged ++ [file.path.staging]) rest
    | .error e =>
      fs.discard (staged ++ [file.path.staging])
      return .error (fileFault file.path e)

def publish (fs : FileSystem m) (moved : List Path) : List Path → m Delivery
  | [] => return ⟨moved, .ok ()⟩
  | path :: rest => do
    match ← fs.rename path.staging path with
    | .ok () => fs.publish (moved ++ [path]) rest
    | .error e =>
      fs.discard (moved ++ (path :: rest).map Path.staging)
      return ⟨moved, .error (fileFault path e)⟩

/-- Writes a program into a directory in the given forms. -/
def deliver (fs : FileSystem m) (p : Program) (dir : Path) (forms : List OutputForm) : m Delivery := do
  let files := p.outputFiles dir forms
  match ← fs.makeDirectories dir with
  | .error e => return ⟨[], .error (.output (.directory dir.text e.message))⟩
  | .ok () =>
    match ← fs.stage [] files with
    | .error e => return ⟨[], .error e⟩
    | .ok () => fs.publish [] (files.map (·.path))

end FileSystem

end Polled
