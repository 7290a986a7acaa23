import Polled.CSource.Action
import Polled.Routine

/-!
The block of C for every operation.

`Routine.block` puts the steps of an operation behind the tests of its guard.
-/

namespace Polled

/-- Activations of the routine have records. The others are plain functions. -/
def Routine.hasRecord (f : Routine) : Bool := !(f.isNative && f.isSync)

def Program.generates (p : Program) (name : String) : Bool := (p.routine? name).any fun f => !f.isNative

def Program.knowsRecord (p : Program) (name : String) : Bool := (p.routine? name).any Routine.hasRecord

namespace CSource

/-- The tests of a guard, in the order in which they are written. -/
def guardTests (g : Guard) : List Test :=
  .flag g.condition :: g.needs.map .ready ++ g.provides.map (fun r => .not (.ready r)) ++
    g.unset.map (fun c => .not (.flag c))

def act : List Action → List Step := List.map .act

/-- Values that end with the activation are freed where they came to be. -/
def garbageActions (f : Routine) (garbage : List Register) : List Action :=
  garbage.map fun r => .releaseIfReady (f.registerKind r).family (f.slot r)

/-- A call in place: a child that runs to its end at once, or a routine written elsewhere. -/
def callInPlace (p : Program) (f : Routine) (callee : String) (args results : List Register) :
    List Action :=
  let args := args.map f.slot
  let results := results.map f.slot
  if p.generates callee then
    .create .child callee .none :: args.mapIdx (fun i r => .copy .child i r) ++
      results.mapIdx (fun j r => .link .child j r) ++ [.poll .child callee]
  else
    [.argumentList args, .resultList results, .callNative callee] ++ results.map .markReady

/-- A call in a child activation. A finished child is forgotten, an absent one is made, and the arguments
are handed over again at every pass until the child returns. -/
def callInChild (f : Routine) (callee : String) (args results : List Register) (k : ChildSlot)
    (done : Option Condition) : List Step :=
  let finish : List Step := done.toList.map fun c =>
    .when [.childDone k] [.raise c, .forget k, .clearDone k, .progress]
  let start : List Action :=
    .create (.call k) callee (.self f.name) :: .linkDone k ::
      results.mapIdx fun j r => .link (.call k) j (f.slot r)
  let pass (i : Nat) (r : Register) : List Action :=
    [.pass .value (.call k) i (f.slot r), .pass .ready (.call k) i (f.slot r),
      .pass .cancelled (.call k) i (f.slot r)]
  finish ++ [.when [.childAbsent k, .not (.childDone k)] start,
    .when [.not (.childDone k)] ((args.mapIdx pass).flatten ++ [.schedule (.call k) callee])]

def opSteps (p : Program) (f : Routine) : Op → List Step
  | .rename source dest => act [.copy .self (f.slot dest) (f.slot source)]
  | .loadInteger target value =>
    act [.store (f.slot target) (.integer value), .markReady (f.slot target)]
  | .loadString target value =>
    act [.store (f.slot target) (.string value), .markReady (f.slot target)]
  | .callSync callee args results done =>
    act (callInPlace p f callee args results ++ done.toList.map .raise)
  | .callAsync callee args results k done => callInChild f callee args results k done
  | .compare op lhs rhs result =>
    act [.store (f.slot result)
        (.comparison op (f.registerKind lhs).family (f.slot lhs) (f.slot rhs)),
      .markReady (f.slot result)]
  | .branch test ifTrue ifFalse =>
    act [.follow ifTrue (f.slot test) true, .follow ifFalse (f.slot test) false]
  | .makeTuple items result =>
    act (.store (f.slot result) (.tuple items.length) ::
      items.mapIdx (fun i r => .storeItem (f.slot result) i (f.slot r)) ++ [.markReady (f.slot result)])
  | .unpackTuple tuple items =>
    act (items.mapIdx fun i r =>
      [.store (f.slot r) (.item (f.slot tuple) i), .markReady (f.slot r)]).flatten
  | .checkUnionTag value tag result =>
    act [.store (f.slot result) (.tagIs (f.slot value) tag), .markReady (f.slot result)]
  | .extractUnionValue value result =>
    act [.store (f.slot result) (.payload (f.slot value)), .markReady (f.slot result)]
  | .free register done =>
    act [.release (f.registerKind register).family (f.slot register), .raise done]
  | .restartLoop args garbage =>
    act (.create .next f.name .caller :: .inheritDone ::
      (List.range f.returnKinds.length).map .inheritResult ++
      args.mapIdx (fun i r => .copy .next i (f.slot r)) ++ garbageActions f garbage ++
      [.dispose, .poll .next f.name, .leave])
  | .ret values garbage =>
    act (values.mapIdx (fun j r => .giveResult j (f.slot r)) ++ garbageActions f garbage ++
      [.reportDone, .wakeCaller, .dispose, .leave])

/-- Scheduling a child changes nothing here, since the child wakes its parent when it returns; a terminal
operation leaves. After every other one the operations are tried once more. -/
def progressSteps (op : Op) : List Step :=
  match op with
  | .callAsync _ _ _ _ _ | .restartLoop _ _ | .ret _ _ => []
  | _ => [.act .progress]

structure Block where
  tag : String
  tests : List Test
  steps : List Step
  deriving DecidableEq, Repr

def Block.layout (b : Block) : List Layout :=
  [.line ["/* " ++ b.tag ++ " */"], .block (testLine b.tests) (b.steps.map Step.layout) ["\x7d"]]

end CSource

def Routine.block (p : Program) (f : Routine) (g : GuardedOp) : CSource.Block where
  tag := g.op.tag
  tests := CSource.guardTests (f.guard g)
  steps := CSource.opSteps p f g.op ++ CSource.progressSteps g.op

end Polled
