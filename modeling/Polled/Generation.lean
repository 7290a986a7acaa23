import Polled.Loading
import Polled.Lowering

/-!
From loaded modules to a generated program.
-/

namespace Polled

def Bundle.signatures (p : Bundle) : Except CompileError SignatureTable :=
  p.modules.foldlM (fun t m => m.tree.functions.foldlM (SignatureTable.declareDecl m.name) t) .empty

def Bundle.decls (p : Bundle) : List Decl := p.modules.flatMap (·.tree.functions)

structure Generated where
  routines : List Routine
  log : List Event

def generateDecl (table : SignatureTable) (d : Decl) (log : List Event) : Except Halt Generated :=
  match d.body with
  | none =>
    .ok ⟨[.native d.name.node d.isSync (d.typedParams.map (·.2)) d.returnKinds], log⟩
  | some body =>
    match lowerFunction table d body log with
    | .error halt => .error { halt with error := .inFunction d.name.node halt.error }
    | .ok l =>
      let event := Event.functionGenerated d.name.node l.routine.ops.length
        l.routine.registerKinds.length l.closures.length
      .ok ⟨l.routine :: l.closures, l.log ++ [event]⟩

def generateDecls (table : SignatureTable) : List Decl → List Event → Except Halt Generated
  | [], log => .ok ⟨[], log⟩
  | d :: ds, log => do
    let first ← generateDecl table d log
    let rest ← generateDecls table ds first.log
    return ⟨first.routines ++ rest.routines, rest.log⟩

/-- The program of loaded modules, which has to have a main function somewhere. -/
def Bundle.generate (p : Bundle) (table : SignatureTable) (log : List Event) :
    Except Halt (Program × List Event) := do
  if !table.contains mainRoutine then
    throw ⟨.program (.mainMissing p.entry), log⟩
  let g ← generateDecls table p.decls log
  return (⟨p.entry, g.routines⟩, g.log)

def Attempt.generate (a : Attempt Bundle) : Attempt Program :=
  match a.outcome with
  | .error e => { a with outcome := .error e }
  | .ok p =>
    match p.signatures with
    | .error e => { a with outcome := .error e }
    | .ok table =>
      match p.generate table a.log with
      | .error halt => { a with log := halt.log, outcome := .error halt.error }
      | .ok (program, log) => { a with log, outcome := .ok program }

/-- Loads `entry` with everything it imports and generates all functions. -/
def compile {m : Type → Type} [Monad m] (source : ModuleStore m) (entry : String) :
    m (Attempt Program) := do
  return (← loadBundle source entry).generate

end Polled
