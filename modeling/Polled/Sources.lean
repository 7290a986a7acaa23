import Polled.Fault

/-!
The texts of a program, numbered in the order they were loaded.
-/

namespace Polled

structure SourceFile where
  name : String
  path : String
  text : String
  deriving DecidableEq, Repr

structure Sources where
  files : List SourceFile
  deriving DecidableEq, Repr

namespace Sources

def empty : Sources := ⟨[]⟩

def size (m : Sources) : Nat := m.files.length

def get? (m : Sources) (file : Nat) : Option SourceFile := m.files[file]?

def add (m : Sources) (f : SourceFile) : Sources := ⟨m.files ++ [f]⟩

/-- The file that an error points into, if it has a place in one. -/
def fileOf? (m : Sources) (e : CompileError) : Option (SourceFile × Span) := do
  let span ← e.span?
  let file ← m.get? span.file
  return (file, span)

/-- The error on one line, with its place in front. There is no such line for a place inside a
character. -/
def oneLine? (m : Sources) (e : CompileError) : Option String :=
  match m.fileOf? e with
  | none => some e.message
  | some (file, span) =>
    (Position.atOffset file.text.toList span.start).map fun p => s!"{file.path}:{p.text}: {e.message}"

end Sources

end Polled
