import Polled.Activation.Scope
import Polled.Event
import Polled.Routine

/-!
The state in which a routine is drafted, and the steps that change it.

A `Frame` is what stays fixed while a body is lowered, a `Draft` what grows. `Lower` may halt with an
error; either way the log keeps what happened so far.
-/

namespace Polled

structure Frame where
  table : SignatureTable
  name : String
  isSync : Bool
  params : List (String × Kind)
  returnKinds : List Kind
  inLoop : Bool

structure Draft where
  registers : Registers
  scope : Scope
  control : Control
  /-- The condition of the operations to come. -/
  current : Condition
  ops : List GuardedOp
  loopCount : Nat
  closures : List Routine
  log : List Event

namespace Draft

def bindParams : List (String × Kind) → Registers × Scope → Registers × Scope
  | [], s => s
  | (x, k) :: ps, (f, s) =>
    let (r, f') := f.alloc k
    bindParams ps (f', s.bind x r)

def start (params : List (String × Kind)) (log : List Event) : Draft :=
  let (registers, scope) := bindParams params (.empty, .empty)
  { registers, scope, control := .initial, current := .entry, ops := [], loopCount := 0, closures := [],
    log }

/-- The finished routine, without the closures. -/
def routine (d : Draft) (f : Frame) : Routine where
  name := f.name
  isSync := f.isSync
  isNative := false
  paramCount := f.params.length
  returnKinds := f.returnKinds
  registerKinds := d.registers.kinds
  slots := d.registers.slots
  ops := d.ops
  childCalls := d.control.childCalls
  conditionCount := d.control.conditionCount

end Draft

/-- Why the work stopped, and what was reported before. -/
structure Halt where
  error : CompileError
  log : List Event

abbrev Lower (α : Type) := StateT Draft (Except Halt) α

namespace Lower

variable {α : Type}

def refuse (fault : SourceFault) (span : Span) : Lower α :=
  fun d => .error ⟨.source fault span, d.log⟩

/-- Errors of the step that have no place get this one. -/
def placing (span : Span) (step : Lower α) : Lower α := fun d =>
  match step d with
  | .ok r => .ok r
  | .error halt => .error { halt with error := halt.error.withPlace span }

def ensure (outcome : Except Kind.Clash Unit) (fault : Kind.Clash → SourceFault)
    (span : Span) : Lower Unit :=
  match outcome with
  | .ok () => return ()
  | .error clash => refuse (fault clash) span

def note (e : Event) : Lower Unit := modify fun d => { d with log := d.log ++ [e] }

def alloc (k : Kind) : Lower Register := do
  let d ← get
  let (r, registers) := d.registers.alloc k
  set { d with registers }
  return r

def allocAll : List Kind → Lower (List Register)
  | [] => return []
  | k :: ks => do
    let r ← alloc k
    return r :: (← allocAll ks)

def kindOf (r : Register) : Lower Kind := return (← get).registers.kind r

def release (r : Register) : Lower Unit := modify fun d => { d with registers := d.registers.release r }

def condition : Lower Condition := do
  let d ← get
  let (c, control) := d.control.condition
  set { d with control }
  return c

/-- A flag for work that leaves no result behind. -/
def doneFlag (results : List Register) : Lower (Option Condition) := do
  if results.isEmpty then
    return some (← condition)
  return none

def newChild (callee : String) : Lower ChildSlot := do
  let d ← get
  let (k, control) := d.control.newChild callee
  set { d with control }
  return k

def pushUnder (c : Condition) (op : Op) : Lower Unit :=
  modify fun d => { d with ops := d.ops ++ [⟨c, op⟩] }

def push (op : Op) : Lower Unit := do pushUnder (← get).current op

def lookup? (x : String) : Lower (Option Register) := return (← get).scope.get? x

def read (x : String) (fault : SourceFault) (span : Span) : Lower Register := do
  match ← lookup? x with
  | some r => return r
  | none => refuse fault span

/-- An owned value has a single name, so a new one takes it away from every other. -/
def bindName (x : String) (r : Register) : Lower Unit := modify fun d =>
  let scope := if (d.registers.kind r).ownsHeap then d.scope.forget d.registers r else d.scope
  { d with scope := scope.bind x r }

def bindNames : List String → List Register → Lower Unit
  | x :: xs, r :: rs => do
    bindName x r
    bindNames xs rs
  | _, _ => return ()

/-- The value goes to a callee: its group is given up and no name reaches it any more. -/
def handOver (r : Register) : Lower Unit := modify fun d =>
  let registers := d.registers.release r
  { d with registers, scope := d.scope.forget registers r }

def freeUnder (f : Frame) (c : Condition) (r : Register) : Lower Unit := do
  let done ← condition
  note (.freed f.name r c)
  pushUnder c (.free r done)
  release r

def freeAllUnder (f : Frame) : List (Register × Condition) → Lower Unit
  | [] => return ()
  | (r, c) :: rest => do
    freeUnder f c r
    freeAllUnder f rest

/-- Frees what no name can reach any more. -/
def sweep (f : Frame) : Lower Unit := do
  let d ← get
  let lost := d.registers.unreachable (d.scope.reachable d.registers)
  freeAllUnder f (lost.map fun r => (r, d.current))

def releaseAll : List Register → Lower Unit
  | [] => return ()
  | r :: rs => do
    release r
    releaseAll rs

/-- What an exit has to free when it hands on `keep`. Nothing is owned behind it. -/
def collectAtExit (keep : List Register) : Lower (List Register) := do
  let registers := (← get).registers
  let kept := orderedSet (keep.map registers.resolve)
  let garbage := registers.unreachable kept
  releaseAll (garbage ++ kept)
  return garbage

def single (place : ValueUse) (span : Span) (values : Lower (List Register)) : Lower Register := do
  match ← values with
  | [r] => return r
  | rs => refuse (.valueCount place rs.length) span

def checkTruth (r : Register) (span : Span) (statement : Conditional) : Lower Unit := do
  ensure ((← kindOf r).convert (.lent .boolean)) (.conditionKind statement) span

end Lower

end Polled
