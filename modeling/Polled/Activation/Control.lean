/-!
Phase flags and child slots of one activation.

Condition 0 is set when the activation starts. Every other condition is handed out once.
-/

namespace Polled

/-- A flag that opens the operations of one phase. -/
abbrev Condition := Nat

/-- The condition that holds from the start. -/
def Condition.entry : Condition := 0

/-- A place for at most one unfinished call. -/
abbrev ChildSlot := Nat

structure Control where
  conditionCount : Nat
  childCalls : List String
  deriving DecidableEq, Repr

namespace Control

def initial : Control := ⟨1, []⟩

def condition (c : Control) : Condition × Control :=
  (c.conditionCount, { c with conditionCount := c.conditionCount + 1 })

def newChild (c : Control) (callee : String) : ChildSlot × Control :=
  (c.childCalls.length, { c with childCalls := c.childCalls ++ [callee] })

end Control

end Polled
