import Polled.Lowering.Draft

/-!
Branches: two arms are lowered from the same state and joined behind it.

A register that other names still see, or that was already joined for one, is first copied on its arm, so
that a join never mixes up values.
-/

namespace Polled

/-- Whether a statement goes on to the next one. -/
inductive Flow where
  | continues
  | returns
  deriving DecidableEq, Repr

/-- One side of a branch when it has been lowered. -/
structure Arm where
  condition : Condition
  scope : Scope
  live : List Bool
  /-- Groups that a join has already taken. -/
  secured : List Register

namespace Lower

/-- Makes `r` safe to join on its arm. -/
def secure (arm : Arm) (r : Register) (before : Nat) : Lower (Register × Arm) := do
  let d ← get
  let root := d.registers.resolve r
  if root < before || arm.secured.contains root then
    let dest ← alloc (d.registers.kind r)
    pushUnder arm.condition (.rename r dest)
    let registers := (← get).registers
    return (dest, { arm with
      live := registers.releaseFlags r arm.live, secured := registers.resolve dest :: arm.secured })
  return (r, { arm with secured := root :: arm.secured })

/-- The register behind the branch for a name that is `t` on one arm and `u` on the other. -/
def joinRegisters (t u : Register) (before : Nat) (arms : Arm × Arm) : Lower (Register × Arm × Arm) := do
  let registers := (← get).registers
  if registers.isJoined t u then
    return (registers.resolve t, arms)
  let (t, onTrue) ← secure arms.1 t before
  let (u, onFalse) ← secure arms.2 u before
  let d ← get
  let (joined, registers) := d.registers.join t u
  set { d with registers }
  return (joined, onTrue, onFalse)

/-- Joins the names one after the other and collects the scope behind the branch. -/
def joinNames (f : Frame) (span : Span) (before : Nat) :
    List String → Arm × Arm → Scope → Lower (Scope × Arm × Arm)
  | [], arms, merged => return (merged, arms)
  | x :: xs, arms, merged => do
    let some t := arms.1.scope.get? x | refuse (.missingAfterArm x true) span
    let some u := arms.2.scope.get? x | refuse (.missingAfterArm x false) span
    ensure ((← kindOf u).agree (← kindOf t)) (.armKinds x) span
    let (joined, arms) ← joinRegisters t u before arms
    note (.armsJoined f.name x joined)
    joinNames f span before xs arms (merged.bind x joined)

/-- A register from before the branch that only one arm still owns, and that no name reaches. -/
def isOrphan (registers : Registers) (reachable : List Register) (arms : Arm × Arm)
    (r : Register) : Bool :=
  arms.1.live.getD r false != arms.2.live.getD r false && !reachable.contains (registers.resolve r)

def joinedFlag (registers : Registers) (reachable : List Register) (before : Nat) (arms : Arm × Arm)
    (r : Register) : Bool :=
  if arms.2.live.length ≤ r then registers.isLive r
  else if r < before && isOrphan registers reachable arms r then false
  else arms.1.live.getD r false || arms.2.live.getD r false

/-- Orphans on the heap, each with the arm that has to free it. -/
def orphans (registers : Registers) (reachable : List Register) (before : Nat) (arms : Arm × Arm) :
    List (Register × Condition) :=
  let lost := (List.range before).filter fun r =>
    isOrphan registers reachable arms r && (registers.kind r).ownsHeap
  (orderedSet (lost.map registers.resolve)).filterMap fun root =>
    (lost.find? (registers.resolve · == root)).map fun r =>
      (root, if arms.1.live.getD r false then arms.1.condition else arms.2.condition)

def mergeArms (f : Frame) (span : Span) (start : Scope) (before : Nat) (onTrue onFalse : Arm) :
    Lower Unit := do
  let both := onTrue.scope.names.filter onFalse.scope.contains
  let (merged, arms) ←
    joinNames f span before (orderedSet (start.names ++ both)) (onTrue, onFalse) .empty
  let registers := (← get).registers
  let reachable := merged.reachable registers
  let flags := (List.range registers.size).map (joinedFlag registers reachable before arms)
  modify fun d => { d with registers := d.registers.withLive flags, scope := merged }
  freeAllUnder f (orphans registers reachable before arms)

/-- Lowers an arm under its condition and keeps the state at its end. -/
def arm (c : Condition) (body : Lower Flow) : Lower (Flow × Arm) := do
  modify fun d => { d with current := c }
  let flow ← body
  let d ← get
  return (flow, ⟨c, d.scope, d.registers.liveness, []⟩)

def resumeFrom (scope : Scope) (live : List Bool) : Lower Unit :=
  modify fun d => { d with scope, registers := d.registers.withLive live }

def branchOn (f : Frame) (span : Span) (test : Register) (onTrue onFalse : Lower Flow) : Lower Flow := do
  let ifTrue ← condition
  let ifFalse ← condition
  push (.branch test ifTrue ifFalse)
  let start ← get
  let (trueFlow, trueArm) ← arm ifTrue onTrue
  resumeFrom start.scope start.registers.liveness
  let (falseFlow, falseArm) ← arm ifFalse onFalse
  modify fun d => { d with current := start.current }
  match trueFlow, falseFlow with
  | .returns, .returns => return .returns
  | .returns, .continues => return .continues
  | .continues, .returns =>
    resumeFrom trueArm.scope trueArm.live
    return .continues
  | .continues, .continues =>
    mergeArms f span start.scope start.registers.size trueArm falseArm
    return .continues

end Lower

end Polled
