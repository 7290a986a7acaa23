/-!
Kinds of values: a family and whether the value is owned or borrowed.

Owned values may be lent, borrowed ones are never given away, and the arguments of a tuple follow the
same rule.
-/

namespace Polled

inductive Family where
  | string
  | stream
  | clock
  | tuple
  | integer
  | boolean
  deriving DecidableEq, Repr

def Family.name : Family → String
  | .string => "String"
  | .stream => "Stream"
  | .clock => "Clock"
  | .tuple => "Tuple"
  | .integer => "Integer"
  | .boolean => "Boolean"

def Family.all : List Family := [.string, .stream, .clock, .tuple, .integer, .boolean]

def Family.ofName? (name : String) : Option Family := all.find? (·.name == name)

theorem Family.ofName?_name (f : Family) : ofName? f.name = some f := by
  cases f <;> decide

structure Kind where
  borrowed : Bool
  family : Family
  args : List Kind
  deriving Repr

namespace Kind

def owned (family : Family) : Kind := ⟨false, family, []⟩

def lent (family : Family) : Kind := ⟨true, family, []⟩

mutual
/-- Same family, same ownership, same arguments. -/
def same : Kind → Kind → Bool
  | ⟨b, f, ks⟩, ⟨b', f', ks'⟩ => decide (f = f') && decide (b = b') && sameAll ks ks'
def sameAll : List Kind → List Kind → Bool
  | [], [] => true
  | k :: ks, k' :: ks' => same k k' && sameAll ks ks'
  | _, _ => false
end

mutual
theorem same_iff : (k k' : Kind) → (same k k' = true ↔ k = k')
  | ⟨b, f, ks⟩, ⟨b', f', ks'⟩ => by
    simp only [same,Bool.and_eq_true,decide_eq_true_eq,sameAll_iff ks ks',Kind.mk.injEq]
    constructor
    · rintro ⟨⟨h₁,h₂⟩,h₃⟩; exact ⟨h₂, h₁, h₃⟩
    · rintro ⟨h₁,h₂,h₃⟩; exact ⟨⟨h₂, h₁⟩, h₃⟩
theorem sameAll_iff : (ks ks' : List Kind) → (sameAll ks ks' = true ↔ ks = ks')
  | [], [] => by simp [sameAll]
  | [], _ :: _ => by simp [sameAll]
  | _ :: _, [] => by simp [sameAll]
  | k :: ks, k' :: ks' => by
    simp only [sameAll,Bool.and_eq_true,same_iff k k',sameAll_iff ks ks',List.cons.injEq]
end

instance : DecidableEq Kind := fun k k' => decidable_of_iff _ (same_iff k k')

mutual
/-- A value of the first kind may stand where the second is expected. -/
def fits : Kind → Kind → Bool
  | ⟨b, f, ks⟩, ⟨b', f', ks'⟩ => decide (f = f') && fitsAll ks ks' && (!b || b')
/-- As many on both sides, each fitting the one at its place. -/
def fitsAll : List Kind → List Kind → Bool
  | [], [] => true
  | k :: ks, k' :: ks' => fits k k' && fitsAll ks ks'
  | _, _ => false
end

/-- Why a kind does not serve where another is expected. -/
inductive Clash where
  | mismatch (expected actual : Kind)
  | borrowedIntoOwned (expected actual : Kind)
  deriving DecidableEq, Repr

/-- Whether a value of kind `k` may be used as `target`; ownership is looked at last. -/
def convert (k target : Kind) : Except Clash Unit :=
  if k.family ≠ target.family || !fitsAll k.args target.args then .error (.mismatch target k)
  else if k.borrowed && !target.borrowed then .error (.borrowedIntoOwned target k)
  else .ok ()

theorem convert_eq_ok_iff (k target : Kind) : k.convert target = .ok () ↔ fits k target = true := by
  obtain ⟨b,f,ks⟩ := k
  obtain ⟨b',f',ks'⟩ := target
  by_cases hf : f = f' <;> cases h : fitsAll ks ks' <;> cases b <;> cases b' <;>
    simp [convert,fits,hf,h]

def agree (k other : Kind) : Except Clash Unit :=
  if same k other then .ok () else .error (.mismatch other k)

theorem agree_eq_ok_iff (k other : Kind) : k.agree other = .ok () ↔ k = other := by
  rw [← same_iff]
  cases h : same k other <;> simp [agree,h]

/-- Owned values on the heap, which someone has to free. -/
def ownsHeap (k : Kind) : Bool := !k.borrowed && (k.family == .string || k.family == .tuple)

mutual
def text : Kind → String
  | ⟨b, f, ks⟩ => (if b then "&" else "") ++ f.name ++ argsText ks
def argsText : List Kind → String
  | [] => ""
  | k :: ks => "<" ++ text k ++ restText ks ++ ">"
def restText : List Kind → String
  | [] => ""
  | k :: ks => ", " ++ text k ++ restText ks
end

def Clash.message : Clash → String
  | .mismatch expected actual => s!"expecting {expected.text}, got {actual.text}"
  | .borrowedIntoOwned expected actual => s!"expecting owned {expected.text}, but got {actual.text}"

end Kind

end Polled
