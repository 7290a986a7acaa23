import Polled.Embedded
import Polled.Event
import Polled.Sources
import Polled.Surface.Parser

/-!
Loading a module and everything it imports.

Modules are read breadth first, each once. Where a `ModuleStore` has no text, an embedded module may
stand in.
-/

namespace Polled

structure FoundText where
  path : String
  text : String
  deriving DecidableEq, Repr

structure ModuleStore (m : Type → Type) where
  find : String → m (Except CompileError (Option FoundText))
  /-- No more modules than this are to be found. -/
  capacity : Nat

def moduleFile (name : String) : String := name ++ ".ht"

def ModuleStore.memory (modules : List (String × String)) : ModuleStore Id where
  find name := .ok ((modules.lookup name).map fun text => ⟨moduleFile name, text⟩)
  capacity := modules.length

/-- What an attempt leaves behind, whether it succeeds or not. -/
structure Attempt (α : Type) where
  sources : Sources
  log : List Event
  outcome : Except CompileError α

structure BundleModule where
  name : String
  file : Nat
  tree : SourceModule

structure Bundle where
  entry : String
  modules : List BundleModule

/-- A module to be read, and the import that asked for it. -/
structure Pending where
  name : String
  importer : Option (String × Span)

def Pending.missing (p : Pending) : CompileError :=
  match p.importer with
  | some (importer, span) => .source (.moduleMissing p.name importer) span
  | none => .program (.entryMissing p.name)

structure Loading where
  queue : List Pending
  seen : List String
  modules : List BundleModule
  sources : Sources
  log : List Event

namespace Loading

def start (entry : String) : Loading := ⟨[⟨entry, none⟩], [entry], [], .empty, []⟩

/-- Asks for the imports that nobody has asked for before. -/
def enqueue (importer : String) : List (Located String) → Loading → Loading
  | [], s => s
  | x :: xs, s =>
    if s.seen.contains x.node then enqueue importer xs s
    else
      enqueue importer xs
        { s with seen := x.node :: s.seen, queue := s.queue ++ [⟨x.node, some (importer, x.span)⟩] }

def stop {α : Type} (s : Loading) (e : CompileError) : Attempt α := ⟨s.sources, s.log, .error e⟩

/-- Takes in the text of a module that was next in the queue. -/
def accept (s : Loading) (name : String) (t : FoundText) : Loading × Except CompileError Unit :=
  let file := s.sources.size
  let s := { s with sources := s.sources.add ⟨name, t.path, t.text⟩ }
  match SourceModule.parse t.text.toList file with
  | .error e => (s, .error e)
  | .ok tree =>
    let s := { s with
      modules := s.modules ++ [⟨name, file, tree⟩],
      log := s.log ++ [.moduleLoaded name file tree.functions.length] }
    (enqueue name tree.imports s, .ok ())

variable {m : Type → Type} [Monad m]

/-- Reads what is in the queue and what that asks for, at most `fuel` modules. -/
def run (find : String → m (Except CompileError (Option FoundText))) :
    (fuel : Nat) → Loading → m (Attempt (List BundleModule))
  | fuel, s =>
    match s.queue with
    | [] => pure ⟨s.sources, s.log, .ok s.modules⟩
    | p :: rest =>
      match fuel with
      | 0 => pure (s.stop p.missing)
      | fuel + 1 => do
        match ← find p.name with
        | .error e => return s.stop e
        | .ok none => return s.stop p.missing
        | .ok (some t) =>
          match { s with queue := rest }.accept p.name t with
          | (s', .error e) => return s'.stop e
          | (s', .ok ()) => run find fuel s'

end Loading

variable {m : Type → Type} [Monad m]

/-- A module of the source, or else an embedded one. -/
def ModuleStore.findOrEmbedded (source : ModuleStore m) (name : String) :
    m (Except CompileError (Option FoundText)) := do
  match ← source.find name with
  | .ok none => return .ok ((embedded? name).map fun text => ⟨s!"<{name}>", text⟩)
  | found => return found

/-- Loads `entry` and all it depends on. One embedded module may join those of the source. -/
def loadBundle (source : ModuleStore m) (entry : String) : m (Attempt Bundle) := do
  let a ← Loading.run source.findOrEmbedded (source.capacity + 2) (.start entry)
  return { a with outcome := a.outcome.map fun modules => ⟨entry, modules⟩ }

end Polled
