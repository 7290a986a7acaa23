import Polled.Lowering.Branches

/-!
Loops: the body becomes a closure that starts itself over.

The closure takes the captured variables and gives them back. Where the loop stands, the condition is
looked at once: one arm calls the closure, the other hands the values straight on.
-/

namespace Polled

/-- A variable of the surroundings that a loop depends on. -/
structure Capture where
  name : String
  kind : Kind

namespace Lower

def closureName (f : Frame) : Lower String := do
  let d ← get
  let candidates := (List.range (f.table.size + 1)).map (d.loopCount + 1 + ·)
  let count := (candidates.find? fun k => !f.table.contains s!"{f.name}_{k}").getD (d.loopCount + 1)
  set { d with loopCount := count }
  return s!"{f.name}_{count}"

def capturesOf (names : List String) : Lower (List Capture) := do
  let d ← get
  return names.filterMap fun x => (d.scope.get? x).map fun r => ⟨x, d.registers.kind r⟩

/-- The captured variables at the end of a round, with the kinds they started with. -/
def nextRound (span : Span) : List (String × Kind) → Lower (List Register)
  | [] => return []
  | (x, k) :: ps => do
    let r ← read x (.movedInLoop x) span
    ensure ((← kindOf r).agree k) (.loopKind x) span
    return r :: (← nextRound span ps)

/-- One round: the body, the condition, and one of the two exits. -/
def iteration (f : Frame) (bodySpan condSpan : Span) (test : Lower Register) (body : Lower Flow) :
    Lower Unit := do
  let _ ← body
  let t ← test
  checkTruth t condSpan .loop
  let onContinue ← condition
  let onExit ← condition
  let values ← nextRound bodySpan f.params
  let garbage ← collectAtExit values
  pushUnder .entry (.branch t onContinue onExit)
  pushUnder onContinue (.restartLoop values garbage)
  pushUnder onExit (.ret values garbage)

/-- Drafts a routine of its own and keeps only what it reports. -/
def separately (params : List (String × Kind)) (step : Lower Unit) : Lower Draft := fun d =>
  match step (.start params d.log) with
  | .ok ((), inner) => .ok (inner, { d with log := inner.log })
  | .error halt => .error halt

/-- The values that the loop starts with, after its condition has been looked at. -/
def entryValues (span : Span) : List Capture → Lower (List Register)
  | [] => return []
  | c :: cs => do
    let r ← read c.name (.movedByCondition c.name) span
    return r :: (← entryValues span cs)

/-- The arm that skips the loop hands each value on, and the name goes with it. -/
def skipLoop (skip : Condition) : List (Capture × Register × Register) → Lower Unit
  | [] => return ()
  | (c, source, dest) :: rest => do
    pushUnder skip (.rename source dest)
    release source
    bindName c.name dest
    skipLoop skip rest

/-- A loop over the names, given the lowering of its condition and of its body in any frame. -/
def loopOver (f : Frame) (names : List String) (condSpan bodySpan : Span)
    (test : Frame → Lower Register) (body : Frame → Lower Flow) : Lower Unit := do
  let captures ← capturesOf names
  let params := captures.map fun c => (c.name, c.kind)
  let kinds := captures.map (·.kind)
  let closure ← closureName f
  let results ← allocAll kinds
  let inner : Frame :=
    { table := f.table, name := closure, isSync := false, params, returnKinds := kinds, inLoop := true }
  let draft ← separately params (iteration inner bodySpan condSpan (test inner) (body inner))
  note (.loopLowered f.name closure params.length)
  modify fun d => { d with closures := d.closures ++ draft.routine inner :: draft.closures }
  let start ← condition
  let skip ← condition
  let t ← test f
  checkTruth t condSpan .loop
  push (.branch t start skip)
  let sources ← entryValues condSpan captures
  let slot ← newChild closure
  let done ← doneFlag results
  pushUnder start (.callAsync closure sources results slot done)
  skipLoop skip (captures.zip (sources.zip results))

end Lower

end Polled
