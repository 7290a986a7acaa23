import Polled.Activation.Workspace
import Polled.Proofs.Forest

/-!
Registers as a partition.

A `Partition` says which registers were joined, in any number of steps, and which are live. A `Grove`
keeps its groups in a forest that changes with every look at it, and its replies are those of
`Registers`.
-/

namespace Polled

open List

variable {a b r : Register}

section Calls

/-- Everything that can be asked of a register file. -/
inductive Call where
  | alloc (kind : Kind)
  | join (a b : Register)
  | resolve (r : Register)
  | isJoined (a b : Register)
  | release (r : Register)
  | restore (saved : List Bool)
  | releaseFlags (r : Register) (flags : List Bool)
  | slots
  deriving DecidableEq, Repr

/-- Registers that the call has to find. In saved flags these are the ones that are set. -/
def Call.touched : Call → List Register
  | .alloc _ | .restore _ | .slots => []
  | .join a b | .isJoined a b => [a, b]
  | .resolve r | .release r => [r]
  | .releaseFlags r flags => r :: (List.range flags.length).filter fun i => flags.getD i false

def Call.count (n : Nat) : Call → Nat
  | .alloc _ => n + 1
  | _ => n

/-- Calls for registers that are allocated when it comes to them. -/
def admissible : Nat → List Call → Bool
  | _, [] => true
  | n, c :: cs => c.touched.all (decide <| · < n) && admissible (c.count n) cs

namespace Registers

def answer (f : Registers) : Call → Reply × Registers
  | .alloc k => ((f.alloc k).map .index id)
  | .join a b => ((f.join a b).map .index id)
  | .resolve r => (.index (f.resolve r), f)
  | .isJoined a b => (.truth (f.isJoined a b), f)
  | .release r => (.done, f.release r)
  | .restore saved => (.done, f.withLive saved)
  | .releaseFlags r flags => (.truths (f.releaseFlags r flags), f)
  | .slots => (.indexes f.slots, f)

def answers (f : Registers) : List Call → List Reply × Registers
  | [] => ([], f)
  | c :: cs => ((f.answer c).2.answers cs).map ((f.answer c).1 :: ·) id

end Registers

end Calls

section Groves

namespace Forest

/-- Takes the group of `root` out of flags, the first of which belongs to the register `i`. -/
def clear (root : Register) : (i : Nat) → List Bool → Forest → Except Crash (List Bool × Forest)
  | _, [], t => .ok ([], t)
  | i, false :: flags, t => do
    let (flags, t) ← clear root (i + 1) flags t
    return (false :: flags, t)
  | i, true :: flags, t => do
    let (r, t) ← t.resolve i
    let (flags, t) ← clear root (i + 1) flags t
    return ((r != root) :: flags, t)

def resolveAll : List Register → Forest → Except Crash (List Register × Forest)
  | [], t => .ok ([], t)
  | r :: rs, t => do
    let (root, t) ← t.resolve r
    let (roots, t) ← resolveAll rs t
    return (root :: roots, t)

end Forest

/-- A register file whose groups are trees. -/
structure Grove where
  kinds : List Kind
  forest : Forest
  live : List Bool

namespace Grove

def empty : Grove := ⟨[], ⟨[]⟩, []⟩

def answer (g : Grove) : Call → Except Crash (Reply × Grove)
  | .alloc k => .ok (.index g.kinds.length, ⟨g.kinds ++ [k], g.forest.grow, g.live ++ [true]⟩)
  | .join a b => do
    let (low, forest) ← g.forest.join a b
    return (.index low, { g with forest })
  | .resolve r => do
    let (root, forest) ← g.forest.resolve r
    return (.index root, { g with forest })
  | .isJoined a b => do
    let (a, forest) ← g.forest.resolve a
    let (b, forest) ← forest.resolve b
    return (.truth (a == b), { g with forest })
  | .release r => do
    let (root, forest) ← g.forest.resolve r
    let (live, forest) ← forest.clear root 0 g.live
    return (.done, { g with forest, live })
  | .restore saved => .ok (.done, { g with live := g.live.mapIdx fun i _ => saved.getD i false })
  | .releaseFlags r flags => do
    let (root, forest) ← g.forest.resolve r
    let (flags, forest) ← forest.clear root 0 flags
    return (.truths flags, { g with forest })
  | .slots => do
    let (roots, forest) ← g.forest.resolveAll (List.range g.kinds.length)
    return (.indexes roots, { g with forest })

def answers (g : Grove) : List Call → Except Crash (List Reply × Grove)
  | [] => .ok ([], g)
  | c :: cs => do
    let (reply, g) ← g.answer c
    let (replies, g) ← g.answers cs
    return (reply :: replies, g)

end Grove

end Groves

section Partitions

structure Partition where
  size : Nat
  /-- The joins that were made so far. -/
  joins : List (Register × Register)
  live : List Bool

namespace Partition

def empty : Partition := ⟨0, [], []⟩

/-- Joins lead from the one to the other. -/
def Connected (p : Partition) : Register → Register → Prop := Relation.EqvGen fun a b => (a, b) ∈ p.joins

/-- What is the same on both sides of every join is the same all over a group. -/
theorem Connected.eq {p : Partition} {α : Type} {v : Register → α}
    (hv : ∀ a b, (a, b) ∈ p.joins → v a = v b) {x y : Register} (h : p.Connected x y) : v x = v y := by
  induction h with
  | rel x y h => exact hv x y h
  | refl x => rfl
  | symm x y _ ih => exact ih.symm
  | trans x y z _ _ ih₁ ih₂ => exact ih₁.trans ih₂

def Least (p : Partition) (r low : Register) : Prop := p.Connected r low ∧ ∀ s, p.Connected r s → low ≤ s

def Cleared (p : Partition) (r : Register) (flags flags' : List Bool) : Prop :=
  flags'.length = flags.length ∧
    ∀ i, flags'.getD i false = true ↔ flags.getD i false = true ∧ ¬p.Connected i r

/-- What may be replied to a call, and what the partition is behind it. -/
inductive Step (p : Partition) : Call → Reply → Partition → Prop
  | alloc (k : Kind) : Step p (.alloc k) (.index p.size)
      { p with size := p.size + 1, live := p.live ++ [true] }
  | join {a b low : Register} : Least { p with joins := p.joins ++ [(a, b)] } a low →
      Step p (.join a b) (.index low) { p with joins := p.joins ++ [(a, b)] }
  | resolve {r root : Register} : p.Least r root → Step p (.resolve r) (.index root) p
  | isJoined {a b : Register} {t : Bool} : (t = true ↔ p.Connected a b) →
      Step p (.isJoined a b) (.truth t) p
  | release {r : Register} {live : List Bool} : p.Cleared r p.live live →
      Step p (.release r) .done { p with live }
  | restore (saved : List Bool) :
      Step p (.restore saved) .done
        { p with live := (List.range p.size).map fun i => saved.getD i false }
  | releaseFlags {r : Register} {flags flags' : List Bool} : p.Cleared r flags flags' →
      Step p (.releaseFlags r flags) (.truths flags') p
  | slots {roots : List Register} : roots.length = p.size →
      (∀ i root, roots[i]? = some root → p.Least i root) →
      Step p .slots (.indexes roots) p

inductive Run : Partition → List Call → List Reply → Partition → Prop
  | nil (p : Partition) : Run p [] [] p
  | cons {p q s : Partition} {c : Call} {cs : List Call} {reply : Reply} {replies : List Reply} :
      p.Step c reply q → Run q cs replies s → Run p (c :: cs) (reply :: replies) s

end Partition

end Partitions

section Groups

variable {p : Partition} {l : Layout} {t : Forest}

/-- The groups are those that joins connect, and their roots are the smallest members. -/
structure Layout.Reflects (l : Layout) (p : Partition) : Prop where
  wf : l.WellFormed
  size : l.size = p.size
  root_eq_iff : ∀ a b, l.root a = l.root b ↔ p.Connected a b

theorem Layout.root_merge_left (l : Layout) (a b : Register) :
    (l.merge a b).root a = min (l.root a) (l.root b) := by
  rw [merge_root]
  grind

namespace Layout.Reflects

theorem least (h : l.Reflects p) (r : Register) : p.Least r (l.root r) :=
  ⟨(h.root_eq_iff r _).1 (h.wf.root_root r).symm, fun s hs => (h.root_eq_iff r s).2 hs ▸ h.wf.root_le s⟩

theorem connected_merge (h : l.Reflects p) (a b x y : Register) :
    (l.merge a b).root x = (l.merge a b).root y ↔
      Partition.Connected { p with joins := p.joins ++ [(a, b)] } x y := by
  have hold : ∀ x y, l.root x = l.root y →
      Partition.Connected { p with joins := p.joins ++ [(a, b)] } x y :=
    fun x y hxy => ((h.root_eq_iff x y).1 hxy).mono fun _ _ hj => mem_append_left _ hj
  have hnew : Partition.Connected { p with joins := p.joins ++ [(a, b)] } a b :=
    .rel _ _ (mem_append_right _ mem_cons_self)
  constructor
  · intro hxy
    -- A root that changes is the larger one of the two, so its register is in the group of `a` or of
    -- `b`.
    have hcases : l.root x = l.root y ∨ l.root x = l.root a ∧ l.root y = l.root b ∨
        l.root x = l.root b ∧ l.root y = l.root a := by
      simp only [merge_root] at hxy
      grind
    obtain hxy | ⟨hx,hy⟩ | ⟨hx,hy⟩ := hcases
    · exact hold x y hxy
    · exact (hold x a hx).trans _ _ _ (hnew.trans _ _ _ (hold b y hy.symm))
    · exact (hold x b hx).trans _ _ _ ((hnew.symm _ _).trans _ _ _ (hold a y hy.symm))
  · refine Partition.Connected.eq fun x y hj => ?_
    obtain hj | hj := mem_append.1 hj
    · exact root_merge_eq ((h.root_eq_iff x y).2 (.rel _ _ hj))
    · obtain ⟨rfl,rfl⟩ := Prod.mk.inj (mem_singleton.1 hj)
      rw [root_merge_left,merge_comm,root_merge_left,Nat.min_comm]

end Layout.Reflects

/-- The groups alone; registers of different kinds may be joined. -/
def Registers.groups (f : Registers) : Layout := ⟨f.size, f.resolve, fun _ => .owned .integer⟩

namespace Registers

variable {f : Registers}

theorem groups_alloc (f : Registers) (k : Kind) :
    (f.alloc k).2.groups = f.groups.reserve (.owned .integer) := by
  have hroot : (f.alloc k).2.resolve = f.resolve := funext (f.resolve_alloc k)
  simp [groups,Layout.reserve,hroot]

theorem groups_join (hwf : f.groups.WellFormed) (ha : a < f.size) (hb : b < f.size) :
    (f.join a b).2.groups = f.groups.merge a b := by
  have hroot : (f.join a b).2.resolve = (f.groups.merge a b).root := by
    funext r
    rcases lt_or_ge r f.size with hr | hr
    · exact f.resolve_join a b r hr
    -- A register that is not allocated is its own root, and too large to be one of the two that are
    -- merged.
    · have ha' : f.resolve a < f.size := hwf.root_lt ha
      have hb' : f.resolve b < f.size := hwf.root_lt hb
      have hne : f.resolve r ≠ max (f.resolve a) (f.resolve b) := by
        rw [f.resolve_of_size_le hr]
        exact ((Nat.max_lt.2 ⟨ha', hb'⟩).trans_le hr).ne'
      rw [resolve_of_size_le _ (by rwa [size_join]),Layout.merge_root]
      exact (f.resolve_of_size_le hr).symm.trans (if_neg hne).symm
  simp only [groups,size_join,hroot]
  rfl

section

variable (f : Registers)

theorem groups_release (r : Register) : (f.release r).groups = f.groups := by
  have hroot : (f.release r).resolve = f.resolve := funext (f.resolve_release r)
  simp only [groups,size_release,hroot]

theorem kinds_join (a b : Register) : (f.join a b).2.kinds = f.kinds := by
  simp only [kinds,join,map_map]
  refine map_congr_left fun c _ => ?_
  simp only [Function.comp]
  split <;> rfl

theorem kinds_release (r : Register) : (f.release r).kinds = f.kinds := by
  simp only [kinds,release,map_map]
  refine map_congr_left fun c _ => ?_
  simp only [Function.comp]
  split <;> rfl

theorem kinds_withLive (flags : List Bool) : (f.withLive flags).kinds = f.kinds := by
  refine ext_getElem (by simp [kinds,withLive]) fun i _ _ => ?_
  simp [kinds,withLive]

theorem liveness_release (r : Register) :
    (f.release r).liveness = f.liveness.mapIdx fun i live => live && f.resolve i != f.resolve r := by
  refine ext_getElem? fun i => ?_
  simp only [liveness,getElem?_map,getElem?_mapIdx,getElem?_release]
  cases hcell : f.cells[i]? with
  | none => rfl
  | some c =>
    have hroot : f.resolve i = c.root := by rw [resolve,hcell]; rfl
    by_cases h : c.root = f.resolve r <;> simp [hroot,h]

theorem liveness_join (a b : Register) : (f.join a b).2.liveness = f.liveness := by
  simp only [liveness,join,map_map]
  refine map_congr_left fun c _ => ?_
  simp only [Function.comp]
  split <;> rfl

theorem liveness_withLive (flags : List Bool) :
    (f.withLive flags).liveness = (List.range f.size).map fun i => flags.getD i false := by
  refine ext_getElem (by simp) fun i hi _ => ?_
  simp [liveness,withLive]

theorem slots_eq_map : f.slots = (List.range f.size).map f.resolve := by
  refine ext_getElem (by simp [slots,size]) fun i hi _ => ?_
  have hcell : i < f.cells.length := by simpa [slots] using hi
  simp [slots,resolve,getElem?_eq_getElem hcell]

theorem groups_withLive (flags : List Bool) : (f.withLive flags).groups = f.groups := by
  have hroot : (f.withLive flags).resolve = f.resolve := funext (f.resolve_withLive flags)
  simp only [groups,size_withLive,hroot]

end

end Registers

end Groups

section Trees

variable {t : Forest} {l : Layout}

namespace Forest.Stands

/-- Flags are cleared by groups, and every look into the forest leaves the groups as they are. -/
theorem clear_eq (h : t.Stands l) (hwf : l.WellFormed) (root : Register) (i : Nat) (flags : List Bool)
    (hflags : ∀ j, flags.getD j false = true → i + j < l.size) :
    ∃ t', t.clear root i flags = .ok (flags.mapIdx fun j live => live && l.root (i + j) != root, t') ∧
      t'.Stands l := by
  induction flags generalizing t i with
  | nil => exact ⟨t, rfl, h⟩
  | cons live flags ih =>
    have hrest : ∀ j, flags.getD j false = true → i + 1 + j < l.size := fun j hj => by
      have := hflags (j + 1) hj
      omega
    have hindex : ∀ j, i + 1 + j = i + (j + 1) := fun j => by omega
    cases live with
    | false =>
      obtain ⟨t',ht',hs⟩ := ih h (i + 1) hrest
      refine ⟨t', ?_, hs⟩
      simp only [Forest.clear,ht',bind,Except.bind,pure,Except.pure,mapIdx_cons,Bool.false_and,hindex]
    | true =>
      obtain ⟨u,hu,hus⟩ := h.resolve_eq hwf (hflags 0 rfl)
      obtain ⟨t',ht',hs⟩ := ih hus (i + 1) hrest
      refine ⟨t', ?_, hs⟩
      simp only [Nat.add_zero] at hu
      simp only [Forest.clear,hu,ht',bind,Except.bind,pure,Except.pure,mapIdx_cons,Bool.true_and,
        hindex,Nat.add_zero]

theorem resolveAll_eq (h : t.Stands l) (hwf : l.WellFormed) (rs : List Register)
    (hrs : ∀ r ∈ rs, r < l.size) :
    ∃ t', t.resolveAll rs = .ok (rs.map l.root, t') ∧ t'.Stands l := by
  induction rs generalizing t with
  | nil => exact ⟨t, rfl, h⟩
  | cons r rs ih =>
    obtain ⟨u,hu,hus⟩ := h.resolve_eq hwf (hrs r mem_cons_self)
    obtain ⟨t',ht',hs⟩ := ih hus fun s hs => hrs s (mem_cons_of_mem _ hs)
    exact ⟨t', by simp only [Forest.resolveAll,hu,ht',bind,Except.bind,pure,Except.pure,map_cons], hs⟩

end Forest.Stands

end Trees

section Refinement

variable {p : Partition} {f : Registers} {g : Grove} {c : Call}

structure Registers.Reflects (f : Registers) (p : Partition) : Prop where
  groups : f.groups.Reflects p
  live : f.liveness = p.live

/-- The grove holds the registers, with their groups as trees. -/
structure Grove.Holds (g : Grove) (f : Registers) : Prop where
  kinds : g.kinds = f.kinds
  forest : g.forest.Stands f.groups
  live : g.live = f.liveness

namespace Registers.Reflects

section

variable (h : f.Reflects p)

include h

theorem cleared (r : Register) (flags : List Bool) : p.Cleared r flags (f.releaseFlags r flags) := by
  refine ⟨f.length_releaseFlags r flags, fun i => ?_⟩
  rw [f.getD_releaseFlags,← h.groups.root_eq_iff i r]
  rfl

theorem alloc (k : Kind) :
    (f.alloc k).2.Reflects { p with size := p.size + 1, live := p.live ++ [true] } where
  groups := by
    rw [f.groups_alloc]
    exact ⟨h.groups.wf.reserve _, congrArg (· + 1) h.groups.size, h.groups.root_eq_iff⟩
  live := by simp [Registers.liveness,Registers.alloc,← h.live]

theorem join (ha : a < f.size) (hb : b < f.size) :
    (f.join a b).2.Reflects { p with joins := p.joins ++ [(a, b)] } where
  groups := by
    rw [f.groups_join h.groups.wf ha hb]
    exact ⟨h.groups.wf.merge ha hb rfl, h.groups.size, h.groups.connected_merge a b⟩
  live := (f.liveness_join a b).trans h.live

theorem withLive {g : Registers} (hgroups : g.groups = f.groups) :
    g.Reflects { p with live := g.liveness } where
  groups := by
    rw [hgroups]
    exact ⟨h.groups.wf, h.groups.size, h.groups.root_eq_iff⟩
  live := rfl

theorem step (hc : ∀ r ∈ c.touched, r < f.size) :
    ∃ q, p.Step c (f.answer c).1 q ∧ (f.answer c).2.Reflects q ∧
      (f.answer c).2.size = c.count f.size := by
  have hsize : f.size = p.size := h.groups.size
  cases c with
  | alloc k =>
    have hreply : (f.answer (.alloc k)).1 = .index p.size := congrArg Reply.index hsize
    exact ⟨_, hreply ▸ .alloc k, h.alloc k, f.size_alloc k⟩
  | join a b =>
    have ha := hc a mem_cons_self
    have hb := hc b (mem_cons_of_mem _ mem_cons_self)
    have hlow : (f.join a b).2.groups.root a = min (f.resolve a) (f.resolve b) := by
      rw [f.groups_join h.groups.wf ha hb]
      exact f.groups.root_merge_left a b
    exact ⟨_, .join (hlow ▸ (h.join ha hb).groups.least a), h.join ha hb, f.size_join a b⟩
  | resolve r => exact ⟨p, .resolve (h.groups.least r), h, rfl⟩
  | isJoined a b =>
    refine ⟨p, .isJoined ?_, h, rfl⟩
    rw [Registers.isJoined,beq_iff_eq]
    exact h.groups.root_eq_iff a b
  | release r =>
    have hlive : (f.release r).liveness = f.releaseFlags r p.live := h.live ▸ f.liveness_release r
    exact ⟨_, .release (hlive ▸ h.cleared r p.live), h.withLive (f.groups_release r), f.size_release r⟩
  | restore saved =>
    have hlive := f.liveness_withLive saved
    rw [hsize] at hlive
    exact ⟨_, hlive ▸ .restore saved, h.withLive (f.groups_withLive saved), f.size_withLive saved⟩
  | releaseFlags r flags => exact ⟨p, .releaseFlags (h.cleared r flags), h, rfl⟩
  | slots =>
    refine ⟨p, .slots ?_ fun i root hroot => ?_, h, rfl⟩
    · rw [f.slots_eq_map,length_map,length_range,hsize]
    · rw [f.slots_eq_map,getElem?_map] at hroot
      obtain ⟨j,hj,rfl⟩ := Option.map_eq_some_iff.1 hroot
      obtain ⟨_,rfl⟩ := List.getElem?_eq_some_iff.1 hj
      rw [getElem_range]
      exact h.groups.least i

end

end Registers.Reflects

namespace Grove.Holds

theorem mem_touched {flags : List Bool} {i : Nat} (h : flags.getD i false = true) :
    i ∈ (Call.releaseFlags r flags).touched := by
  have hi : i < flags.length := by
    by_contra hle
    simp [getD_eq_getElem?_getD,getElem?_eq_none (Nat.le_of_not_lt hle)] at h
  exact mem_cons_of_mem _ (mem_filter.2 ⟨mem_range.2 hi, h⟩)

theorem clear (h : g.Holds f) (hwf : f.groups.WellFormed) (hr : r < f.size) (flags : List Bool)
    (hflags : ∀ i, flags.getD i false = true → i < f.size) :
    ∃ t u, g.forest.resolve r = .ok (f.resolve r, t) ∧
      t.clear (f.resolve r) 0 flags = .ok (f.releaseFlags r flags, u) ∧ u.Stands f.groups := by
  obtain ⟨t,ht,hs⟩ := h.forest.resolve_eq hwf hr
  obtain ⟨u,hu,hs'⟩ := hs.clear_eq hwf (f.resolve r) 0 flags fun j hj => by
    rw [Nat.zero_add]
    exact hflags j hj
  simp only [Nat.zero_add] at hu
  exact ⟨t, u, ht, hu, hs'⟩

/-- A call finds its way through the trees and replies what the registers reply. -/
theorem step (h : g.Holds f) (hwf : f.groups.WellFormed) (hc : ∀ r ∈ c.touched, r < f.size) :
    ∃ g', g.answer c = .ok ((f.answer c).1, g') ∧ g'.Holds (f.answer c).2 := by
  have hlength : g.kinds.length = f.size := by
    rw [h.kinds,Registers.kinds,length_map]
    rfl
  cases c with
  | alloc k =>
    have hforest : g.forest.grow.Stands (f.alloc k).2.groups := f.groups_alloc k ▸ h.forest.grow hwf _
    refine ⟨_, by rw [Grove.answer,hlength]; rfl, ?_, hforest, ?_⟩
    · simp [Registers.answer,Registers.kinds,Registers.alloc,h.kinds]
    · simp [Registers.answer,Registers.liveness,Registers.alloc,h.live]
  | join a b =>
    have ha := hc a mem_cons_self
    have hb := hc b (mem_cons_of_mem _ mem_cons_self)
    obtain ⟨t,ht,hs⟩ := h.forest.join_eq hwf ha hb
    refine ⟨{ g with forest := t }, ?_, ?_, ?_, ?_⟩
    · rw [Grove.answer,ht]
      rfl
    · exact h.kinds.trans (f.kinds_join a b).symm
    · exact f.groups_join hwf ha hb ▸ hs
    · exact h.live.trans (f.liveness_join a b).symm
  | resolve r =>
    obtain ⟨t,ht,hs⟩ := h.forest.resolve_eq hwf (hc r mem_cons_self)
    exact ⟨{ g with forest := t }, by rw [Grove.answer,ht]; rfl, h.kinds, hs, h.live⟩
  | isJoined a b =>
    obtain ⟨t,ht,hs⟩ := h.forest.resolve_eq hwf (hc a mem_cons_self)
    obtain ⟨u,hu,hs'⟩ := hs.resolve_eq hwf (hc b (mem_cons_of_mem _ mem_cons_self))
    refine ⟨{ g with forest := u }, ?_, h.kinds, hs', h.live⟩
    simp only [Grove.answer,ht,hu,bind,Except.bind]
    rfl
  | release r =>
    obtain ⟨t,u,ht,hu,hs⟩ := h.clear hwf (hc r mem_cons_self) g.live fun i hi => by
      rw [h.live,f.getD_liveness] at hi
      exact f.lt_size_of_isLive hi
    refine ⟨{ g with forest := u, live := f.releaseFlags r g.live }, ?_, ?_, ?_, ?_⟩
    · simp only [Grove.answer,ht,hu,bind,Except.bind]
      rfl
    · exact h.kinds.trans (f.kinds_release r).symm
    · exact f.groups_release r ▸ hs
    · rw [h.live]
      exact (f.liveness_release r).symm
  | restore saved =>
    refine ⟨_, rfl, h.kinds.trans (f.kinds_withLive saved).symm, f.groups_withLive saved ▸ h.forest, ?_⟩
    refine Eq.trans ?_ (f.liveness_withLive saved).symm
    refine ext_getElem (by simp [h.live]) fun i _ _ => ?_
    simp
  | releaseFlags r flags =>
    obtain ⟨t,u,ht,hu,hs⟩ := h.clear hwf (hc r mem_cons_self) flags fun i hi => hc i (mem_touched hi)
    refine ⟨{ g with forest := u }, ?_, h.kinds, hs, h.live⟩
    simp only [Grove.answer,ht,hu,bind,Except.bind]
    rfl
  | slots =>
    obtain ⟨t,ht,hs⟩ := h.forest.resolveAll_eq hwf (List.range f.size) fun r hr => mem_range.1 hr
    refine ⟨{ g with forest := t }, ?_, h.kinds, hs, h.live⟩
    rw [Registers.answer,f.slots_eq_map,Grove.answer,hlength,ht]
    rfl

end Grove.Holds

/-- Whatever is asked, the trees give the replies of the registers, and both are right about the
partition. -/
theorem exists_run (hf : f.Reflects p) (hg : g.Holds f) {calls : List Call}
    (hcalls : admissible f.size calls = true) :
    ∃ replies g' f' q, g.answers calls = .ok (replies, g') ∧ f.answers calls = (replies, f') ∧
      p.Run calls replies q ∧ f'.Reflects q ∧ g'.Holds f' := by
  induction calls generalizing p f g with
  | nil => exact ⟨[], g, f, p, rfl, rfl, .nil p, hf, hg⟩
  | cons c cs ih =>
    obtain ⟨htouched,hcs⟩ := Bool.and_eq_true_iff.1 hcalls
    have hc : ∀ r ∈ c.touched, r < f.size := fun r hr => of_decide_eq_true (all_eq_true.1 htouched r hr)
    obtain ⟨q,hstep,hfq,hsize⟩ := hf.step hc
    obtain ⟨_,hanswer,hg₁⟩ := hg.step hf.groups.wf hc
    obtain ⟨replies,g',f',s,hrun,hrun',hsteps,hfs,hgs⟩ := ih hfq hg₁ (hsize ▸ hcs)
    refine ⟨(f.answer c).1 :: replies, g', f', s, ?_, ?_, .cons hstep hsteps, hfs, hgs⟩
    · simp only [Grove.answers,hanswer,hrun,bind,Except.bind]
      rfl
    · simp only [Registers.answers,hrun']
      rfl

theorem reflects_empty : Registers.empty.Reflects .empty where
  groups := by
    have hroot : ∀ r, Registers.empty.resolve r = r :=
      fun r => Registers.resolve_of_size_le _ (Nat.zero_le r)
    refine ⟨⟨fun r => (hroot r).le, fun r => hroot _, fun _ => rfl, fun r _ => hroot r⟩, rfl,
      fun a b => ?_⟩
    show Registers.empty.resolve a = Registers.empty.resolve b ↔ _
    rw [hroot,hroot]
    constructor
    · rintro rfl
      exact .refl a
    · exact Partition.Connected.eq (v := id) fun _ _ h => absurd h not_mem_nil
  live := rfl

theorem holds_empty : Grove.empty.Holds .empty := ⟨rfl, ⟨rfl, fun _ _ h => nomatch h⟩, rfl⟩

end Refinement

/-- Any calls for allocated registers, from the empty file on. No look into the trees fails, the replies
are those that the partition allows, and the cells give the same. Behind the calls every register is
found at the smallest one that joins connect it with, and whichever register is looked for, the trees
lead every other one to where it was before. -/
theorem refines_partition (calls : List Call) (h : admissible 0 calls = true) :
    ∃ replies g f p, Grove.empty.answers calls = .ok (replies, g) ∧
      Registers.empty.answers calls = (replies, f) ∧
      Partition.empty.Run calls replies p ∧ g.live = p.live ∧ f.liveness = p.live ∧
      ∀ r < p.size, ∃ root t, p.Least r root ∧ f.resolve r = root ∧ g.forest.resolve r = .ok (root, t) ∧
        ∀ s < p.size, t.find s = g.forest.find s := by
  obtain ⟨replies,g,f,p,hg,hf,hrun,hreflects,hholds⟩ := exists_run reflects_empty holds_empty h
  refine ⟨replies, g, f, p, hg, hf, hrun, hholds.live.trans hreflects.live, hreflects.live,
    fun r hr => ?_⟩
  have hsize : f.groups.size = p.size := hreflects.groups.size
  obtain ⟨t,ht,hstands⟩ := hholds.forest.resolve_eq hreflects.groups.wf (hsize.symm ▸ hr)
  refine ⟨f.resolve r, t, hreflects.groups.least r, rfl, ht, fun s hs => ?_⟩
  rw [hstands.find_eq (hsize.symm ▸ hs),hholds.forest.find_eq (hsize.symm ▸ hs)]

/-- Joins that put a root below another one, with groups given up in between. -/
def bouquet : List Call :=
  [.alloc (.owned .string), .alloc (.lent .string), .alloc (.owned .tuple), .alloc (.owned .integer),
    .join 3 1, .join 1 2,
    .release 2, .join 0 3, .isJoined 2 0, .releaseFlags 3 [true, false, true],
      .restore [true, false], .slots]

def bouquetReplies : List Reply :=
  [.index 0, .index 1, .index 2, .index 3, .index 1, .index 1, .done, .index 0, .truth true,
    .truths [false, false, false],
    .done, .indexes [0, 0, 0, 0]]

theorem bouquet_refines_partition : admissible 0 bouquet = true ∧
    ∃ (g : Grove) (f : Registers) (p : Partition),
      Grove.empty.answers bouquet = .ok (bouquetReplies, g) ∧
      Registers.empty.answers bouquet = (bouquetReplies, f) ∧
      Partition.empty.Run bouquet bouquetReplies p ∧ g.live = p.live ∧ f.liveness = p.live ∧
      ∀ r < p.size, ∃ root t, p.Least r root ∧ f.resolve r = root ∧ g.forest.resolve r = .ok (root, t) ∧
        ∀ s < p.size, t.find s = g.forest.find s := by
  have hadmissible : admissible 0 bouquet = true := by decide
  obtain ⟨replies,g,f,p,hg,hf,hfacts⟩ := refines_partition bouquet hadmissible
  obtain rfl : replies = bouquetReplies := (congrArg Prod.fst hf).symm
  exact ⟨hadmissible, g, f, p, hg, hf, hfacts⟩

end Polled
