import Polled.FileSystem
import Polled.Toml.Reader
import Polled.WhiteSpace

/-!
What a build does: which module it starts from, where that is, and what is written where.
-/

namespace Polled

inductive OutputForm where
  | c
  | ir
  deriving DecidableEq, Repr

namespace OutputForm

def name : OutputForm → String
  | .c => "c"
  | .ir => "ir"

def all : List OutputForm := [.c, .ir]

def ofName? (s : String) : Option OutputForm := all.find? fun f => f.name == s

/-- The forms among those given, each once and in a fixed order. -/
def normal (forms : List OutputForm) : List OutputForm := all.filter forms.contains

/-- A form is given by its name, or by a table with nothing but an empty value under its name. -/
def ofValue? : Toml.Value → Option OutputForm
  | .text s => ofName? s
  | .table _ [(key, v)] => if v.isEmpty then ofName? key else none
  | _ => none

end OutputForm

structure Manifest where
  hasPackage : Bool
  name : Option String
  entry : Option String
  sourceDir : Option String
  outDir : Option String
  outputs : Option (List OutputForm)

namespace Manifest

/-- A field that may be missing but has to be read if it is there. -/
def field? {α : Type} (read : Toml.Value → Option α) : Option Toml.Value → Option (Option α)
  | none => some none
  | some v => (read v).map some

def outputs? (v : Toml.Value) : Option (List OutputForm) :=
  v.items?.bind fun items => items.mapM OutputForm.ofValue?

/-- Reads a section, in which every field is optional, or supplies an empty one. -/
def sectionFields? (fields : List String) : Option Toml.Value → Option (List (Option Toml.Value))
  | none => some (fields.map fun _ => none)
  | some v => v.record? fields

def ofTable? (t : Toml.Table) : Option Manifest := do
  let [package, build] ← (Toml.Value.table .heading t).record? ["package", "build"] | none
  let [name, entry] ← sectionFields? ["name", "entry"] package | none
  let [sourceDir, outDir, outputs] ← sectionFields? ["source-dir", "out-dir", "emit"] build | none
  return {
    hasPackage := package.isSome
    name := ← field? Toml.Value.text? name
    entry := ← field? Toml.Value.text? entry
    sourceDir := ← field? Toml.Value.text? sourceDir
    outDir := ← field? Toml.Value.text? outDir
    outputs := ← field? outputs? outputs }

def read (text : String) : Option Manifest := (Toml.read text.toList).bind ofTable?

end Manifest

structure BuildPlan where
  name : String
  /-- The module that is compiled with everything it imports. -/
  entry : String
  sourceDir : Path
  outDir : Path
  outputs : List OutputForm
  deriving DecidableEq, Repr

namespace BuildPlan

/-- Directories of a manifest are seen from its own. -/
def ofManifest (m : Manifest) (dir : Path) : Except ManifestFault BuildPlan := do
  if !m.hasPackage then throw .packageMissing
  let some name := m.name | throw .nameMissing
  if name.toList.all isWhiteSpace then throw .nameEmpty
  let entry := m.entry.getD "main"
  if !isName entry.toList then throw (.entryName entry)
  let outputs := m.outputs.getD [.c]
  if outputs.isEmpty then throw .nothingEmitted
  return { name, entry, outputs,
           sourceDir := dir.file (m.sourceDir.getD "."), outDir := dir.file (m.outDir.getD "build") }

/-- The plan that the text of a manifest in the given directory makes. -/
def parse (text : String) (dir : Path) : Except CompileError BuildPlan :=
  let plan : Except ManifestFault BuildPlan := match Manifest.read text with
    | none => .error .malformed
    | some m => ofManifest m dir
  plan.mapError fun fault => .manifest fault (dir.file manifestFile).text

variable {m : Type → Type} [Monad m]

def load (fs : FileSystem m) (dir : Path) : m (Except CompileError BuildPlan) := do
  let path := dir.file manifestFile
  match ← fs.read path with
  | .ok text => return parse text dir
  | .error e => return .error (.manifest (.unreadable e.message) path.text)

/-- The plan for a single source file, whose stem names the entry module. -/
def ofFile (path : Path) : Except CompileError BuildPlan :=
  match path.stem? with
  | none => .error (.output (.moduleFileName path.text))
  | some entry =>
    if isName entry.toList then
      let dir := path.parent?.getD ⟨""⟩
      .ok ⟨entry, entry, dir, dir.file "build", [.c]⟩
    else .error (.output (.moduleFileName path.text))

/-- What is given on the command line comes before the manifest. -/
def override (b : BuildPlan) (outDir : Option Path) (outputs : List OutputForm) : BuildPlan :=
  { b with
    outDir := outDir.getD b.outDir
    outputs := if outputs.isEmpty then b.outputs else OutputForm.normal outputs }

end BuildPlan

end Polled
