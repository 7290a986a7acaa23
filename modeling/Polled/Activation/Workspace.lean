import Polled.Activation.Control
import Polled.Activation.Scope

/-!
A register file, a scope and a control block worked on by single commands.

`Workspace.step` fails if a command has to look at a register that was never allocated.
-/

namespace Polled

inductive Command where
  | alloc (kind : Kind)
  | join (a b : Register)
  | resolve (r : Register)
  | isJoined (a b : Register)
  | isLive (r : Register)
  | kind (r : Register)
  | release (r : Register)
  | save
  | restore (index : Nat)
  | setLive (flags : List Bool)
  | releaseFlags (r : Register) (flags : List Bool)
  | unreachable (keep : List Register)
  | bind (name : String) (r : Register)
  | get (name : String)
  | contains (name : String)
  | forget (r : Register)
  | reachable
  | condition
  | newChild (callee : String)
  deriving DecidableEq, Repr

inductive Reply where
  | done
  | index (n : Nat)
  | indexes (ns : List Nat)
  | missing
  | truth (b : Bool)
  | truths (bs : List Bool)
  | kind (k : Kind)
  deriving DecidableEq, Repr

structure Workspace where
  registers : Registers
  scope : Scope
  control : Control
  saved : List (List Bool × Scope)
  deriving DecidableEq, Repr

namespace Workspace

def initial : Workspace := ⟨.empty, .empty, .initial, []⟩

def touched (w : Workspace) : Command → List Register
  | .join a b | .isJoined a b => [a, b]
  | .resolve r | .isLive r | .kind r | .release r => [r]
  | .releaseFlags r flags => r :: (List.range flags.length).filter fun i => flags.getD i false
  | .forget r => r :: w.scope.registers
  | .reachable => w.scope.registers
  | _ => []

def perform (w : Workspace) : Command → Option (Reply × Workspace)
  | .alloc k =>
    let (r, registers) := w.registers.alloc k
    some (.index r, { w with registers })
  | .join a b =>
    let (r, registers) := w.registers.join a b
    some (.index r, { w with registers })
  | .resolve r => some (.index (w.registers.resolve r), w)
  | .isJoined a b => some (.truth (w.registers.isJoined a b), w)
  | .isLive r => some (.truth (w.registers.isLive r), w)
  | .kind r => some (.kind (w.registers.kind r), w)
  | .release r => some (.done, { w with registers := w.registers.release r })
  | .save =>
    some (.index w.saved.length, { w with saved := w.saved ++ [(w.registers.liveness, w.scope)] })
  | .restore index => do
    let (flags, scope) ← w.saved[index]?
    some (.done, { w with registers := w.registers.withLive flags, scope })
  | .setLive flags => some (.done, { w with registers := w.registers.withLive flags })
  | .releaseFlags r flags => some (.truths (w.registers.releaseFlags r flags), w)
  | .unreachable keep => some (.indexes (w.registers.unreachable keep), w)
  | .bind x r => some (.done, { w with scope := w.scope.bind x r })
  | .get x => some (((w.scope.get? x).map Reply.index).getD .missing, w)
  | .contains x => some (.truth (w.scope.contains x), w)
  | .forget r => some (.done, { w with scope := w.scope.forget w.registers r })
  | .reachable => some (.indexes (w.scope.reachable w.registers), w)
  | .condition =>
    let (c, control) := w.control.condition
    some (.index c, { w with control })
  | .newChild callee =>
    let (k, control) := w.control.newChild callee
    some (.index k, { w with control })

def step (w : Workspace) (c : Command) : Option (Reply × Workspace) :=
  if (w.touched c).all w.registers.isAllocated then w.perform c else none

/-- The replies of a session, each with the workspace after it. -/
def run (w : Workspace) : List Command → Option (List (Reply × Workspace))
  | [] => some []
  | c :: cs => do
    let (reply, w') ← w.step c
    return (reply, w') :: (← w'.run cs)

end Workspace

end Polled
