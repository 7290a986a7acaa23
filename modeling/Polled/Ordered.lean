/-!
Finite sets as strictly increasing lists.

Names and registers are visited in their order wherever that order can be seen.
-/

namespace Polled

variable {α : Type} [LT α] [DecidableEq α] [DecidableLT α]

def insertOrdered (a : α) : List α → List α
  | [] => [a]
  | b :: bs =>
    if a = b then b :: bs
    else if a < b then a :: b :: bs
    else b :: insertOrdered a bs

/-- The members of a list, in order and once each. -/
def orderedSet (as : List α) : List α := as.foldr insertOrdered []

@[simp] theorem mem_insertOrdered (a x : α) (bs : List α) : x ∈ insertOrdered a bs ↔ x = a ∨ x ∈ bs := by
  induction bs with
  | nil => simp [insertOrdered]
  | cons b bs ih =>
    unfold insertOrdered
    split
    · subst_vars
      simp
    split
    · simp
    · simp only [List.mem_cons,ih]
      constructor
      · rintro (h | h | h)
        · exact Or.inr (Or.inl h)
        · exact Or.inl h
        · exact Or.inr (Or.inr h)
      · rintro (h | h | h)
        · exact Or.inr (Or.inl h)
        · exact Or.inl h
        · exact Or.inr (Or.inr h)

@[simp] theorem mem_orderedSet (x : α) (as : List α) : x ∈ orderedSet as ↔ x ∈ as := by
  induction as with
  | nil => simp [orderedSet]
  | cons a as ih =>
    have h : orderedSet (a :: as) = insertOrdered a (orderedSet as) := rfl
    simp [h,ih]

end Polled
