import Polled.Proofs.Activation
import Polled.Proofs.Paths

/-!
What lowering does along one path.

A `Passage` is the state of a draft as one path sees it, and `Passage.Step` lists everything that can
happen to it. Ownership is a matter of this relation alone: what every step keeps holds on every path.
-/

namespace Polled

variable {a b r t : Register}

/-- The kinds of a callee's parameters, for the callees that exist. -/
abbrev Callees := String → Option (List Kind)

namespace Op

/-- Registers that an operation reads, each with whether ownership goes along. -/
def passes (callees : Callees) : Op → List (Register × Bool)
  | .callSync callee args _ _ | .callAsync callee args _ _ _ =>
    (args.zip ((callees callee).getD [])).map fun (r, k) => (r, !k.borrowed)
  | .rename source _ => [(source, true)]
  | op => op.reads.map fun r => (r, false)

/-- Registers that an operation reads for good: it moves, renames, frees or returns them. -/
def consumes (callees : Callees) : Op → List Register
  | .ret values garbage | .restartLoop values garbage => garbage ++ values
  | .free register _ => [register]
  | op => ((op.passes callees).filter (·.2)).map (·.1)

theorem mem_reads_of_passes {callees : Callees} {op : Op} {p : Register × Bool}
    (h : p ∈ op.passes callees) :
    p.1 ∈ op.reads := by
  have hzip : ∀ (args : List Register) (kinds : List Kind),
      p ∈ (args.zip kinds).map (fun (r, k) => (r, !k.borrowed)) → p.1 ∈ args := by
    intro args kinds hp
    obtain ⟨⟨a,k⟩,hq,rfl⟩ := List.mem_map.1 hp
    exact (List.of_mem_zip hq).1
  cases op with
  | callSync callee args results done => exact hzip _ _ h
  | callAsync callee args results slot done => exact hzip _ _ h
  | rename source dest =>
    rw [List.mem_singleton.1 h]
    exact List.mem_singleton_self source
  | _ =>
    obtain ⟨r,hr,rfl⟩ := List.mem_map.1 h
    exact hr

end Op

/-- How registers are grouped, and their kinds. -/
structure Layout where
  size : Nat
  root : Register → Register
  kind : Register → Kind

variable {l : Layout}

namespace Layout

def heap (l : Layout) (r : Register) : Prop := (l.kind r).ownsHeap = true

/-- Groups are named by their smallest member and hold values of one kind. -/
structure WellFormed (l : Layout) : Prop where
  root_le : ∀ r, l.root r ≤ r
  root_root : ∀ r, l.root (l.root r) = l.root r
  kind_root : ∀ r, l.kind (l.root r) = l.kind r
  root_new : ∀ r, l.size ≤ r → l.root r = r

/-- Registers were added, and groups were made only of those. -/
structure Grows (l m : Layout) : Prop where
  size_le : l.size ≤ m.size
  root_old : ∀ r, r < l.size → m.root r = l.root r
  kind_old : ∀ r, r < l.size → m.kind r = l.kind r
  root_fresh : ∀ r, l.size ≤ r → l.size ≤ m.root r

def reserve (l : Layout) (k : Kind) : Layout :=
  { l with size := l.size + 1, kind := Function.update l.kind l.size k }

def merge (l : Layout) (a b : Register) : Layout :=
  { l with root := fun r =>
      if l.root r = max (l.root a) (l.root b) then min (l.root a) (l.root b) else l.root r }

theorem WellFormed.kind_eq (h : l.WellFormed) (hab : l.root a = l.root b) : l.kind a = l.kind b := by
  rw [← h.kind_root a,hab,h.kind_root b]

theorem WellFormed.root_lt (h : l.WellFormed) (hr : r < l.size) : l.root r < l.size :=
  (h.root_le r).trans_lt hr

theorem WellFormed.reserve (h : l.WellFormed) (k : Kind) : (l.reserve k).WellFormed where
  root_le := h.root_le
  root_root := h.root_root
  kind_root := by
    intro r
    show Function.update l.kind l.size k (l.root r) = Function.update l.kind l.size k r
    by_cases hr : r = l.size
    · rw [hr,h.root_new l.size le_rfl]
    · have hne : l.root r ≠ l.size := by
        rcases lt_or_ge r l.size with hlt | hge
        · exact (h.root_lt hlt).ne
        · rwa [h.root_new r hge]
      rw [Function.update_of_ne hr,Function.update_of_ne hne,h.kind_root]
  root_new := fun r hr => h.root_new r (Nat.le_of_succ_le hr)

theorem merge_root (l : Layout) (a b r : Register) : (l.merge a b).root r =
      if l.root r = max (l.root a) (l.root b) then min (l.root a) (l.root b) else l.root r := rfl

theorem merge_comm (l : Layout) (a b : Register) : l.merge a b = l.merge b a := by
  simp only [merge,Nat.max_comm (l.root a),Nat.min_comm (l.root a)]

theorem WellFormed.merge {l : Layout} (h : l.WellFormed) {a b : Register} (ha : a < l.size)
    (hb : b < l.size) (hk : l.kind a = l.kind b) : (l.merge a b).WellFormed where
  root_le := by
    intro r
    have hr := h.root_le r
    rw [merge_root]
    grind
  root_root := by
    intro r
    have h1 := h.root_root a
    have h2 := h.root_root b
    have h3 := h.root_root r
    simp only [merge_root]
    grind
  kind_root := by
    intro r
    show l.kind ((l.merge a b).root r) = l.kind r
    have h1 := h.kind_root a
    have h2 := h.kind_root b
    have h3 := h.kind_root r
    simp only [merge_root]
    grind
  root_new := by
    intro r hr
    have h1 := h.root_lt ha
    have h2 := h.root_lt hb
    have h3 := h.root_new r hr
    have h4 : l.size ≤ r := hr
    simp only [merge_root]
    grind

theorem root_merge_eq (h : l.root r = l.root t) : (l.merge a b).root r = (l.merge a b).root t := by
  simp only [merge_root,h]

theorem eq_or_of_root_merge_eq (h : (l.merge a b).root r = (l.merge a b).root t) :
    l.root r = l.root t ∨ l.root r = l.root b ∨ l.root t = l.root b := by
  simp only [merge_root] at h
  grind

end Layout

/-- Where lowering stands on one path. -/
structure Passage where
  layout : Layout
  /-- Heap values that the activation still has to give away or free. -/
  owned : Register → Prop
  scope : String → Option Register
  trace : List Op
  /-- Registers that an expression has picked up. -/
  held : List Register
  /-- Registers that are already given up for an operation to come. -/
  pending : List Register

namespace Passage

/-- A register that the activation can get at. -/
def Reaches (s : Passage) (r : Register) : Prop := s.owned r ∨ (∃ x, s.scope x = some r) ∨ r ∈ s.held

/-- A register that may still be used. -/
def Holds (s : Passage) (r : Register) : Prop :=
  s.owned r ∨ (∃ x, s.scope x = some r) ∨ r ∈ s.held ∨ r ∈ s.pending

theorem holds_iff {s : Passage} : s.Holds r ↔ s.Reaches r ∨ r ∈ s.pending := by
  simp only [Holds,Reaches,or_assoc]

/-- A register that was or may be used. -/
def Touches (s : Passage) (r : Register) : Prop := s.Holds r ∨ ∃ op ∈ s.trace, r ∈ op.mentions

/-- Gives up a group: nothing of it is owned, and no name reaches it. -/
def giveUp (s : Passage) (r : Register) : Passage :=
  { s with
    owned := fun t => s.owned t ∧ s.layout.root t ≠ s.layout.root r
    scope := fun x => (s.scope x).filter fun t => s.layout.root t ≠ s.layout.root r }

def close (s : Passage) : Passage :=
  { s with owned := fun _ => False, scope := fun _ => none, held := [], pending := [] }

variable (callees : Callees) (strict : Prop) (floor : Nat)

/-- What can happen to a passage. In the strict form a value is moved only when nobody else holds it.
Groups below the floor stay as they are. -/
inductive Step : Passage → Passage → Prop where
  | pick {s : Passage} {x : String} {r : Register} (hx : s.scope x = some r) :
      Step s { s with held := r :: s.held }
  | drop {s : Passage} {held : List Register} (hsub : ∀ r ∈ held, r ∈ s.held) :
      Step s { s with held }
  | arrange {s : Passage} {pending : List Register} (hperm : pending.Perm s.pending) :
      Step s { s with pending }
  /-- Names are forgotten, or stand for other members of their groups. -/
  | rescope {s : Passage} {scope : String → Option Register}
      (hsub : ∀ x r, scope x = some r →
        r < s.layout.size ∧ ∃ t, s.scope x = some t ∧ s.layout.root r = s.layout.root t) :
      Step s { s with scope }
  | name {s : Passage} {x : String} {r : Register} (hr : r ∈ s.held)
      (hfree : s.layout.heap r → ∀ y t, s.scope y = some t → s.layout.root t ≠ s.layout.root r) :
      Step s { s with scope := Function.update s.scope x (some r) }
  | reserve {s : Passage} (k : Kind) :
      Step s
        { s with
          layout := s.layout.reserve k
          owned := fun r => s.owned r ∨ r = s.layout.size ∧ k.ownsHeap = true
          held := s.layout.size :: s.held }
  | take {s : Passage} {r : Register} {held : List Register} (hheld : s.held = r :: held)
      (hheap : s.layout.heap r)
      (halone : strict → ∀ t ∈ held, s.layout.root t ≠ s.layout.root r) :
      Step s { s.giveUp r with held, pending := r :: s.pending }
  | emit {s : Passage} {op : Op} {rest : List Register}
      (hend : op.endsActivation = false) (hfrees : op.frees = [])
      (hreads : (op.passes callees).map (·.1) = op.reads)
      (hlent : ∀ p ∈ op.passes callees, ¬(p.2 = true ∧ s.layout.heap p.1) → p.1 ∈ s.held)
      (hgiven : s.pending = ((op.passes callees).filter fun p =>
        p.2 && (s.layout.kind p.1).ownsHeap).map (·.1) ++ rest)
      (hprovides : ∀ r ∈ op.provides, r ∈ s.held ∧ (s.layout.heap r → s.owned r)) :
      Step s { s with trace := s.trace ++ [op], pending := rest }
  | free {s : Passage} {r t : Register} (c : Condition) (hr : r < s.layout.size)
      (ht : s.owned t) (hrt : s.layout.root t = s.layout.root r)
      (hscope : ∀ x u, s.scope x = some u → s.layout.root u ≠ s.layout.root r)
      (hheld : s.held = []) (hpending : s.pending = []) :
      Step s { s.giveUp r with trace := s.trace ++ [.free r c] }
  /-- An exit frees what is owned, except what it hands on. -/
  | exit {s : Passage} {op : Op} (hend : op.endsActivation = true)
      (hneeds : ∀ r ∈ op.needs, r ∈ s.held) (hpending : s.pending = [])
      (hgarbage : ∀ g ∈ op.frees,
        g < s.layout.size ∧ (∃ t, s.owned t ∧ s.layout.root t = s.layout.root g) ∧
          ∀ r ∈ op.needs, s.layout.root r ≠ s.layout.root g)
      (honce : (op.frees.map s.layout.root).Nodup)
      (hall : ∀ t, s.owned t →
        (∃ g ∈ op.frees, s.layout.root g = s.layout.root t) ∨
          ∃ r ∈ op.needs, s.layout.root r = s.layout.root t) :
      Step s { s.close with trace := s.trace ++ [op] }
  /-- Something happens on other paths. -/
  | elsewhere {s : Passage} {layout : Layout} (hgrows : s.layout.Grows layout)
      (hwf : layout.WellFormed) :
      Step s { s with layout }
  /-- The group of `b` is new to this path, if it is one on the heap. -/
  | merge {s : Passage} {a b : Register} (ha : a < s.layout.size) (hb : b < s.layout.size)
      (hafloor : floor ≤ s.layout.root a) (hbfloor : floor ≤ s.layout.root b)
      (hkind : s.layout.kind a = s.layout.kind b)
      (hnew : s.layout.heap b → ∀ r, s.Touches r → s.layout.root r ≠ s.layout.root b) :
      Step s { s with layout := s.layout.merge a b }
  /-- More is owned than before, either under a name or unknown to this path. -/
  | adopt {s : Passage} {owned : Register → Prop} (hkeep : ∀ r, s.owned r → owned r)
      (hnew : ∀ r, owned r → r < s.layout.size ∧ s.layout.heap r ∧
        (s.owned r ∨ (∃ x t, s.scope x = some t ∧ s.layout.root t = s.layout.root r) ∨
          floor ≤ s.layout.root r ∧ ∀ t, s.Touches t → s.layout.root t ≠ s.layout.root r)) :
      Step s { s with owned }

abbrev Steps : Passage → Passage → Prop := Relation.ReflTransGen (Step callees strict floor)

end Passage

end Polled
