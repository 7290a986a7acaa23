import Polled.Activation.Registers

/-!
Names of local variables and the registers they stand for, in the order of the names.
-/

namespace Polled

structure Scope where
  bindings : List (String × Register)
  deriving DecidableEq, Repr

namespace Scope

def empty : Scope := ⟨[]⟩

def insertBinding (x : String) (r : Register) : List (String × Register) → List (String × Register)
  | [] => [(x, r)]
  | (y, s) :: rest =>
    if x = y then (x, r) :: rest
    else if x < y then (x, r) :: (y, s) :: rest
    else (y, s) :: insertBinding x r rest

def bind (s : Scope) (x : String) (r : Register) : Scope := ⟨insertBinding x r s.bindings⟩

def get? (s : Scope) (x : String) : Option Register := s.bindings.lookup x

def contains (s : Scope) (x : String) : Bool := (s.get? x).isSome

def names (s : Scope) : List String := s.bindings.map (·.1)

def registers (s : Scope) : List Register := s.bindings.map (·.2)

/-- Forgets every name whose value is in the group of `r`. -/
def forget (s : Scope) (f : Registers) (r : Register) : Scope :=
  ⟨s.bindings.filter fun (_, bound) => !f.isJoined bound r⟩

/-- The groups that some name can still reach. -/
def reachable (s : Scope) (f : Registers) : List Register := orderedSet (s.registers.map f.resolve)

theorem get?_bind (s : Scope) (x y : String) (r : Register) :
    (s.bind x r).get? y = if y = x then some r else s.get? y := by
  obtain ⟨bindings⟩ := s
  simp only [bind,get?]
  by_cases h : y = x
  · subst h
    induction bindings with
    | nil => simp [insertBinding]
    | cons b rest ih =>
      obtain ⟨z,t⟩ := b
      unfold insertBinding
      split
      · simp
      split
      · simp
      · rename_i hz _
        have hb : (y == z) = false := by simp [hz]
        simpa [List.lookup_cons,hb] using ih
  · have hx : (y == x) = false := by simp [h]
    rw [if_neg h]
    induction bindings with
    | nil => simp [insertBinding,List.lookup_cons,hx]
    | cons b rest ih =>
      obtain ⟨z,t⟩ := b
      unfold insertBinding
      split
      · subst_vars
        simp [List.lookup_cons,hx]
      split
      · simp [List.lookup_cons,hx]
      · simp [List.lookup_cons,ih]

end Scope

end Polled
