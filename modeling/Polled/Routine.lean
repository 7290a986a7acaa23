import Polled.Op

/-!
Generated routines and programs of them.

A routine is the layout of an activation and the operations on it.
-/

namespace Polled

structure Routine where
  name : String
  isSync : Bool
  isNative : Bool
  /-- Parameters are the first registers. -/
  paramCount : Nat
  returnKinds : List Kind
  registerKinds : List Kind
  slots : List Register
  ops : List GuardedOp
  childCalls : List String
  conditionCount : Nat
  deriving DecidableEq, Repr

namespace Routine

/-- The outside of a routine that is written elsewhere. -/
def native (name : String) (isSync : Bool) (params returns : List Kind) : Routine where
  name
  isSync
  isNative := true
  paramCount := params.length
  returnKinds := returns
  registerKinds := params
  slots := List.range params.length
  ops := []
  childCalls := []
  conditionCount := 1

def slot (f : Routine) (r : Register) : Register := f.slots.getD r r

def registerKind (f : Routine) (r : Register) : Kind := f.registerKinds.getD r (.owned .integer)

def guard (f : Routine) (g : GuardedOp) : Guard where
  condition := g.condition
  needs := g.op.needs.map f.slot
  provides := g.op.provides.map f.slot
  unset := g.op.completionFlags

def guards (f : Routine) : List Guard := f.ops.map f.guard

/-- The operations that one condition opens, in the order they were generated. -/
def openedBy (f : Routine) (c : Condition) : List Op := (f.ops.filter (·.condition == c)).map (·.op)

def freedSlots (f : Routine) : List Register := f.ops.flatMap fun g => g.op.frees.map f.slot

/-- Every register that a guard or a release reads has a slot. -/
def readsAllocated (f : Routine) : Bool :=
  f.ops.all fun g =>
    (g.op.needs ++ g.op.provides ++ g.op.frees).all fun r => decide (r < f.slots.length)

end Routine

structure Program where
  entry : String
  routines : List Routine
  deriving DecidableEq, Repr

/-- The routine at which a program starts. -/
def mainRoutine : String := "main"

def Program.routine? (p : Program) (name : String) : Option Routine := p.routines.find? (·.name == name)

end Polled
