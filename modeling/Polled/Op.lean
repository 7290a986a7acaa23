import Polled.Activation.Control
import Polled.Activation.Registers
import Polled.Comparison

/-!
Operations of a generated routine.

An operation fires when its condition is set, what it needs is ready, what it provides is not, and none
of its `unset` flags is set. `Guard` puts that rule into one value over slots.
-/

namespace Polled

inductive Op where
  /-- Moves a value into another slot. -/
  | rename (source dest : Register)
  | loadInteger (target : Register) (value : Int)
  | loadString (target : Register) (value : String)
  /-- A call in place, whose results are ready as soon as it ran; `done` is set if it has none. -/
  | callSync (callee : String) (args results : List Register) (done : Option Condition)
  /-- A call in a child activation of its own. -/
  | callAsync (callee : String) (args results : List Register) (slot : ChildSlot)
      (done : Option Condition)
  | compare (op : Comparison) (lhs rhs result : Register)
  | branch (test : Register) (ifTrue ifFalse : Condition)
  | makeTuple (items : List Register) (result : Register)
  | unpackTuple (tuple : Register) (items : List Register)
  | checkUnionTag (value : Register) (tag : Nat) (result : Register)
  | extractUnionValue (value result : Register)
  /-- Frees an owned value once it is there. -/
  | free (register : Register) (done : Condition)
  /-- Starts the enclosing loop over with the values of the next round. -/
  | restartLoop (args garbage : List Register)
  | ret (values garbage : List Register)
  deriving DecidableEq, Repr

namespace Op

/-- Registers that have to be ready. The arguments of a child are handed over whether ready or not. -/
def needs : Op → List Register
  | .rename source _ => [source]
  | .loadInteger _ _ | .loadString _ _ => []
  | .callSync _ args _ _ => args
  | .callAsync _ _ _ _ _ => []
  | .compare _ lhs rhs _ => [lhs, rhs]
  | .branch test _ _ => [test]
  | .makeTuple items _ => items
  | .unpackTuple tuple _ => [tuple]
  | .checkUnionTag value _ _ | .extractUnionValue value _ => [value]
  | .free register _ => [register]
  | .restartLoop args _ => args
  | .ret values _ => values

def provides : Op → List Register
  | .rename _ dest => [dest]
  | .loadInteger target _ | .loadString target _ => [target]
  | .callSync _ _ results _ | .callAsync _ _ results _ _ => results
  | .compare _ _ _ result | .makeTuple _ result => [result]
  | .unpackTuple _ items => items
  | .checkUnionTag _ _ result | .extractUnionValue _ result => [result]
  | .branch _ _ _ | .free _ _ | .restartLoop _ _ | .ret _ _ => []

/-- Flags that say the operation has run. -/
def completionFlags : Op → List Condition
  | .free _ done => [done]
  | .callSync _ _ _ done | .callAsync _ _ _ _ done => done.toList
  | .branch _ ifTrue ifFalse => [ifTrue, ifFalse]
  | _ => []

def endsActivation : Op → Bool
  | .ret _ _ | .restartLoop _ _ => true
  | _ => false

def frees : Op → List Register
  | .free register _ => [register]
  | .ret _ garbage | .restartLoop _ garbage => garbage
  | _ => []

def tag : Op → String
  | .rename _ _ => "rename"
  | .loadInteger _ _ => "load_integer"
  | .loadString _ _ => "load_string"
  | .callSync _ _ _ _ => "call_sync"
  | .callAsync _ _ _ _ _ => "call_async"
  | .compare _ _ _ _ => "compare"
  | .branch _ _ _ => "branch"
  | .makeTuple _ _ => "make_tuple"
  | .unpackTuple _ _ => "unpack_tuple"
  | .checkUnionTag _ _ _ => "check_union_tag"
  | .extractUnionValue _ _ => "extract_union_value"
  | .free _ _ => "free"
  | .restartLoop _ _ => "restart_loop"
  | .ret _ _ => "return"

end Op

/-- An operation under the condition that opens it. -/
structure GuardedOp where
  condition : Condition
  op : Op
  deriving DecidableEq, Repr

/-- The firing rule of one operation, over slots. -/
structure Guard where
  condition : Condition
  needs : List Register
  provides : List Register
  unset : List Condition
  deriving DecidableEq, Repr

def Guard.holds (g : Guard) (ready : List Register) (flags : List Condition) : Bool :=
  flags.contains g.condition && g.needs.all ready.contains &&
    g.provides.all (fun r => !ready.contains r) && g.unset.all (fun c => !flags.contains c)

end Polled
