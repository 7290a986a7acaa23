import Polled.Proofs.Standing

/-!
Groups of registers as a forest.

Every register has a parent, which is smaller unless the register stands for its group itself. `Stands`
says edge by edge that a forest holds the groups of a layout; then `Forest.resolve` does not fail and
finds the root in the layout.
-/

namespace Polled

variable {a b : Register}

/-- What must not happen while a routine is drafted. -/
inductive Crash where
  | unallocated (r : Register)
  /-- An edge that does not go down. -/
  | rising (r next : Register)
  /-- The forest and the cells disagree on a group. -/
  | astray (r : Register)
  /-- Not one flag for every register. -/
  | flagCount (count : Nat)
  /-- The body of a loop returns. -/
  | returned
  deriving DecidableEq, Repr

structure Forest where
  parent : List Register
  deriving DecidableEq, Repr

namespace Forest

/-- The end of the way from `r` along the parents. -/
def find (t : Forest) (r : Register) : Except Crash Register :=
  match t.parent[r]? with
  | none => .error (.unallocated r)
  | some next =>
    if next = r then .ok r
    else if next < r then t.find next
    else .error (.rising r next)
  termination_by r

/-- Lets every register on the way from `r` point at `root`. -/
def compress (t : Forest) (root r : Register) : Forest :=
  match t.parent[r]? with
  | none => t
  | some next => if next < r then compress ⟨t.parent.set r root⟩ root next else t
  termination_by r

def resolve (t : Forest) (r : Register) : Except Crash (Register × Forest) := do
  let root ← t.find r
  return (root, t.compress root r)

def grow (t : Forest) : Forest := ⟨t.parent ++ [t.parent.length]⟩

/-- The larger of two roots goes below the smaller. -/
def join (t : Forest) (a b : Register) : Except Crash (Register × Forest) := do
  let (a, t) ← t.resolve a
  let (b, t) ← t.resolve b
  if a = b then return (a, t)
  return (min a b, ⟨t.parent.set (max a b) (min a b)⟩)

/-- The edge goes down inside of a group, or belongs to the register that stands for it. -/
structure Edge (l : Layout) (i next : Register) : Prop where
  le : next ≤ i
  root_eq : l.root next = l.root i
  top : next = i → l.root i = i

/-- The forest holds the groups of the layout. -/
structure Stands (t : Forest) (l : Layout) : Prop where
  length : t.parent.length = l.size
  edge : ∀ i next, t.parent[i]? = some next → Edge l i next

namespace Stands

variable {t : Forest} {l : Layout} {r : Register}

/-- Edges go down, so the way ends, and it never leaves the group. -/
theorem find_eq (h : t.Stands l) (hr : r < l.size) : t.find r = .ok (l.root r) := by
  induction r using Nat.strongRecOn with
  | ind r ih =>
    obtain ⟨next,hnext⟩ : ∃ next, t.parent[r]? = some next :=
      ⟨_, List.getElem?_eq_getElem (h.length ▸ hr)⟩
    have hedge := h.edge r next hnext
    rw [find,hnext]
    dsimp only
    split
    · next heq => rw [hedge.top heq]
    · next hne =>
      have hlt : next < r := Nat.lt_of_le_of_ne hedge.le hne
      rw [if_pos hlt,ih next hlt (hlt.trans hr),hedge.root_eq]

theorem set (h : t.Stands l) {next : Register} (hedge : Edge l r next) :
    Stands ⟨t.parent.set r next⟩ l where
  length := by rw [List.length_set,h.length]
  edge i next' hi := by
    rcases eq_or_ne r i with rfl | hne
    · rw [List.getElem?_set_self'] at hi
      obtain ⟨_,-,rfl⟩ := Option.map_eq_some_iff.1 hi
      exact hedge
    · exact h.edge i next' (by rwa [List.getElem?_set_ne hne] at hi)

section

variable (h : t.Stands l) (hwf : l.WellFormed)

include h hwf

theorem compress (r : Register) : (t.compress (l.root r) r).Stands l := by
  induction r using Nat.strongRecOn generalizing t with
  | ind r ih =>
    rw [Forest.compress]
    split
    · exact h
    · next next hnext =>
      split
      · next hlt =>
        have hset := h.set ⟨hwf.root_le r, hwf.root_root r, id⟩
        rw [← (h.edge r next hnext).root_eq] at hset ⊢
        exact ih next hlt hset
      · exact h

theorem resolve_eq (hr : r < l.size) : ∃ t', t.resolve r = .ok (l.root r, t') ∧ t'.Stands l :=
  ⟨_, by rw [resolve,h.find_eq hr]; rfl, h.compress hwf r⟩

theorem grow (k : Kind) : t.grow.Stands (l.reserve k) where
  length := by simp [Forest.grow,Layout.reserve,h.length]
  edge i next hi := by
    rcases lt_or_ge i t.parent.length with hlt | hge
    · rw [Forest.grow,List.getElem?_append_left hlt] at hi
      obtain ⟨hle,hroot,htop⟩ := h.edge i next hi
      exact ⟨hle, hroot, htop⟩
    · rw [Forest.grow,List.getElem?_append_right hge] at hi
      have hlast : i - t.parent.length = 0 ∧ t.parent.length = next := by
        simpa [List.getElem?_singleton] using hi
      obtain rfl : i = t.parent.length := Nat.le_antisymm (Nat.le_of_sub_eq_zero hlast.1) hge
      obtain rfl := hlast.2
      exact ⟨le_rfl, rfl, fun _ => hwf.root_new _ h.length.symm.le⟩

theorem link (hab : l.root a ≠ l.root b) :
    Stands ⟨t.parent.set (max (l.root a) (l.root b)) (min (l.root a) (l.root b))⟩ (l.merge a b) where
  length := by rw [List.length_set,h.length]; rfl
  edge i next hi := by
    rcases eq_or_ne (max (l.root a) (l.root b)) i with rfl | hne
    · rw [List.getElem?_set_self'] at hi
      obtain ⟨_,-,rfl⟩ := Option.map_eq_some_iff.1 hi
      have ha := hwf.root_root a
      have hb := hwf.root_root b
      refine ⟨(Nat.min_le_left _ _).trans (Nat.le_max_left _ _), ?_, by grind⟩
      simp only [Layout.merge_root]
      grind
    · obtain ⟨hle,hroot,htop⟩ := h.edge i next (by rwa [List.getElem?_set_ne hne] at hi)
      refine ⟨hle, by simp only [Layout.merge_root,hroot], fun heq => ?_⟩
      rw [Layout.merge_root,htop heq,if_neg hne.symm]

theorem join_eq (ha : a < l.size) (hb : b < l.size) :
    ∃ t', t.join a b = .ok (min (l.root a) (l.root b), t') ∧ t'.Stands (l.merge a b) := by
  obtain ⟨_,ha',h₁⟩ := h.resolve_eq hwf ha
  obtain ⟨t₂,hb',h₂⟩ := h₁.resolve_eq hwf hb
  by_cases hab : l.root a = l.root b
  · refine ⟨t₂, ?_, h₂.length, fun i next hi => ?_⟩
    · rw [join,ha']
      simp only [bind,Except.bind,hb',hab,if_true,Nat.min_self]
      rfl
    · have hsame : (l.merge a b).root = l.root := funext fun r => by
        rw [Layout.merge_root,hab,Nat.max_self,Nat.min_self]
        split
        · next h => exact h.symm
        · rfl
      obtain ⟨hle,hroot,_⟩ := h₂.edge i next hi
      exact ⟨hle, by rw [hsame,hroot], by rwa [hsame]⟩
  · refine ⟨⟨t₂.parent.set (max (l.root a) (l.root b)) (min (l.root a) (l.root b))⟩, ?_, ?_⟩
    · rw [join,ha']
      simp only [bind,Except.bind,hb',hab,if_false]
      rfl
    · exact h₂.link hwf hab

end

end Stands

end Forest

end Polled
