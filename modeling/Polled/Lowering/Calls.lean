import Polled.Lowering.Draft

/-!
Calls: what happens to the arguments, and where the results go.
-/

namespace Polled

structure Passed where
  register : Register
  /-- The threaded variable and the kind that it had. -/
  thread : Option (Located String × Kind)

namespace Lower

/-- The argument goes to the parameter, for good if the parameter is owned. -/
def passTo (function : String) (param : String × Kind) (span : Span) (r : Register) : Lower Unit := do
  ensure ((← kindOf r).convert param.2) (.argumentKind param.1 function) span
  if !param.2.borrowed then
    handOver r

/-- Threaded variables take the results at their own positions. -/
def rebindThreads (function : String) (results : List Register) :
    (position : Nat) → List Passed → Lower Unit
  | _, [] => return ()
  | position, p :: ps => do
    match p.thread with
    | none => pure ()
    | some (x, before) =>
      match results[position]? with
      | none => refuse (.nothingToHandBack function (position + 1) x.node) x.span
      | some r =>
        ensure ((← kindOf r).agree before) (.threadedKind x.node function) x.span
        bindName x.node r
    rebindThreads function results (position + 1) ps

/-- Results that no threaded variable has taken. -/
def leftOver : List Register → List Passed → List Register
  | [], _ => []
  | r :: rs, [] => r :: rs
  | r :: rs, p :: ps => if p.thread.isSome then leftOver rs ps else r :: leftOver rs ps

def callWith (f : Frame) (sig : Signature) (passed : List Passed) : Lower (List Register) := do
  let results ← allocAll sig.returns
  let done ← doneFlag results
  note (.callLowered f.name sig.name sig.strategy)
  let args := passed.map (·.register)
  match sig.strategy with
  | .inPlace => push (.callSync sig.name args results done)
  | .scheduled =>
    let slot ← newChild sig.name
    push (.callAsync sig.name args results slot done)
  rebindThreads sig.name results 0 passed
  return leftOver results passed

/-- The signature of a callee that fits the number of arguments. -/
def calleeOf (f : Frame) (callee : Located String) (count : Nat) (span : Span) : Lower Signature := do
  let some sig := f.table.lookup? callee.node
    | refuse (.unknownFunction callee.node) callee.span
  if count ≠ sig.params.length then
    refuse (.argumentCount sig.name sig.params.length count) span
  return sig

end Lower

end Polled
