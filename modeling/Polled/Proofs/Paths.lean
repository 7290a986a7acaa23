import Mathlib.Data.List.Basic
import Polled.Lowering

/-!
Paths through a routine.

A path chooses one target of every branch that it meets, and consists of the operations under its
conditions up to the first exit. `Walk` is a path on its way.
-/

namespace Polled

open List

variable {gs : List GuardedOp} {c a b : Condition} {test : Register}

namespace Op

/-- Registers whose values an operation looks at, the arguments of a child call among them. -/
def reads : Op → List Register
  | .callAsync _ args _ _ _ => args
  | op => op.needs

/-- Every register that an operation names. -/
def mentions (op : Op) : List Register := op.reads ++ op.provides ++ op.frees

def isBranch : Op → Bool
  | .branch _ _ _ => true
  | _ => false

/-- The operation neither splits a path nor ends it. -/
abbrev Inline (op : Op) : Prop := op.isBranch = false ∧ op.endsActivation = false

/-- The conditions that a branch may open. -/
def targets : Op → List Condition
  | .branch _ ifTrue ifFalse => [ifTrue, ifFalse]
  | _ => []

theorem targets_of_not_branch {op : Op} (hbranch : op.isBranch = false) : op.targets = [] := by
  cases op with
  | branch => cases hbranch
  | _ => rfl

end Op

/-- How far a path has come. -/
structure Walk where
  /-- The conditions on the path. -/
  chosen : List Condition
  trace : List Op
  ended : Bool
  deriving DecidableEq, Repr

variable {w v : Walk}

namespace Walk

def start : Walk := ⟨[.entry], [], false⟩

/-- A branch splits the walk and an exit ends it. Operations under other conditions are passed by. -/
def next (w : Walk) (g : GuardedOp) : List Walk :=
  if w.ended || !w.chosen.contains g.condition then [w]
  else
    match g.op with
    | .branch test ifTrue ifFalse =>
      [⟨ifTrue :: w.chosen, w.trace ++ [.branch test ifTrue ifFalse], false⟩,
        ⟨ifFalse :: w.chosen, w.trace ++ [.branch test ifTrue ifFalse], false⟩]
    | op => [⟨w.chosen, w.trace ++ [op], op.endsActivation⟩]

def through : List GuardedOp → Walk → List Walk
  | [], w => [w]
  | g :: gs, w => (w.next g).flatMap (through gs)

def Passes (w : Walk) (g : GuardedOp) : Prop := w.ended = true ∨ g.condition ∉ w.chosen

theorem next_of_passes {w : Walk} {g : GuardedOp} (h : w.Passes g) : w.next g = [w] := by
  unfold next
  rcases h with h | h <;> simp [h]

theorem through_of_passes (h : ∀ g ∈ gs, w.Passes g) : w.through gs = [w] := by
  induction gs with
  | nil => rfl
  | cons g gs ih =>
    have hg := next_of_passes (h g mem_cons_self)
    have hgs := ih fun g' hg' => h g' (mem_cons_of_mem g hg')
    simp [through,hg,hgs]

theorem eq_of_ended (h : w.ended = true) (hv : v ∈ w.through gs) : v = w := by
  rwa [through_of_passes fun _ _ => .inl h,mem_singleton] at hv

theorem through_append (gs hs : List GuardedOp) (w : Walk) :
    w.through (gs ++ hs) = (w.through gs).flatMap (through hs) := by
  induction gs generalizing w with
  | nil => simp [through]
  | cons g gs ih =>
    simp only [cons_append,through,flatMap_assoc]
    congr 1
    funext v
    exact ih v

theorem mem_through_append {hs : List GuardedOp} :
    v ∈ w.through (gs ++ hs) ↔ ∃ u ∈ w.through gs, v ∈ u.through hs := by
  simp [through_append]

theorem next_op {w : Walk} {c : Condition} {op : Op} (he : w.ended = false) (hc : c ∈ w.chosen)
    (hb : op.isBranch = false) :
    w.next ⟨c, op⟩ = [⟨w.chosen, w.trace ++ [op], op.endsActivation⟩] := by
  cases op <;> simp_all [next,Op.isBranch]

theorem next_branch (he : w.ended = false) (hc : c ∈ w.chosen) : w.next ⟨c, .branch test a b⟩ =
      [⟨a :: w.chosen, w.trace ++ [.branch test a b], false⟩,
        ⟨b :: w.chosen, w.trace ++ [.branch test a b], false⟩] := by
  simp [next,he,hc]

theorem through_plain {w : Walk} {c : Condition} (ops : List Op) (he : w.ended = false)
    (hc : c ∈ w.chosen) (hb : ∀ op ∈ ops, op.Inline) :
    w.through (ops.map (GuardedOp.mk c)) = [⟨w.chosen, w.trace ++ ops, false⟩] := by
  induction ops generalizing w with
  | nil =>
    obtain ⟨chosen,trace,_⟩ := w
    simp_all [through]
  | cons op ops ih =>
    obtain ⟨h1,h2⟩ := hb op mem_cons_self
    have hn := next_op (w := w) (c := c) he hc h1
    rw [h2] at hn
    have hrest := ih (w := ⟨w.chosen, w.trace ++ [op], false⟩) rfl hc
      fun o ho => hb o (mem_cons_of_mem op ho)
    simp [through,hn,hrest]

theorem mem_through_branch {line : List Op} (he : w.ended = false) (hc : c ∈ w.chosen)
    (hb : ∀ op ∈ line, op.Inline) :
    v ∈ w.through (line.map (GuardedOp.mk c) ++ ([⟨c, .branch test a b⟩] ++ gs)) ↔
      v ∈ through gs ⟨a :: w.chosen, w.trace ++ line ++ [.branch test a b], false⟩ ∨
        v ∈ through gs ⟨b :: w.chosen, w.trace ++ line ++ [.branch test a b], false⟩ := by
  rw [mem_through_append,through_plain line he hc hb]
  simp only [mem_singleton,exists_eq_left,singleton_append,through]
  have hc : c ∈ (⟨w.chosen, w.trace ++ line, false⟩ : Walk).chosen := hc
  rw [next_branch rfl hc]
  simp

theorem through_other {w : Walk} {c : Condition} (ops : List Op) (hc : c ∉ w.chosen) :
    w.through (ops.map (GuardedOp.mk c)) = [w] := by
  refine through_of_passes fun g hg => .inr ?_
  obtain ⟨_,-,rfl⟩ := mem_map.1 hg
  exact hc

section

variable {line opsA opsB : List Op} {opA opB : Op} {n : Condition} (he : w.ended = false)
  (hc : c ∈ w.chosen)
variable (hb : ∀ op ∈ line, op.Inline) (hnew : ∀ c ∈ w.chosen, c < n)

include he hc hb hnew

theorem mem_through_sides (hA : ∀ op ∈ opsA, op.Inline) (hB : ∀ op ∈ opsB, op.Inline) :
    v ∈ w.through (line.map (GuardedOp.mk c) ++ ([⟨c, .branch test n (n + 1)⟩] ++
        (opsA.map (GuardedOp.mk n) ++ opsB.map (GuardedOp.mk (n + 1))))) ↔
      v = ⟨n :: w.chosen, w.trace ++ line ++ [.branch test n (n + 1)] ++ opsA, false⟩ ∨
        v = ⟨(n + 1) :: w.chosen, w.trace ++ line ++ [.branch test n (n + 1)] ++ opsB, false⟩ := by
  have hfirst : n ∉ w.chosen := fun h => Nat.lt_irrefl _ (hnew _ h)
  have hsecond : n + 1 ∉ w.chosen := fun h => Nat.lt_irrefl _ (Nat.lt_of_succ_lt (hnew _ h))
  generalize hT : w.trace ++ line ++ [.branch test n (n + 1)] = T
  have hplainA := @through_plain ⟨n :: w.chosen, T, false⟩ n opsA rfl mem_cons_self hA
  have hotherA := @through_other ⟨n :: w.chosen, T ++ opsA, false⟩ (n + 1) opsB (by simp [hsecond])
  have hotherB := @through_other ⟨(n + 1) :: w.chosen, T, false⟩ n opsA (by simp [hfirst])
  have hplainB := @through_plain ⟨(n + 1) :: w.chosen, T, false⟩ (n + 1) opsB rfl mem_cons_self hB
  rw [mem_through_branch he hc hb,hT,through_append,through_append,hplainA,hotherB,flatMap_singleton,
    flatMap_singleton,hotherA,hplainB,mem_singleton,mem_singleton]

theorem mem_through_exits (hA : opA.isBranch = false ∧ opA.endsActivation = true)
    (hB : opB.isBranch = false ∧ opB.endsActivation = true) :
    v ∈ w.through
      (line.map (GuardedOp.mk c) ++ ([⟨c, .branch test n (n + 1)⟩] ++ [⟨n, opA⟩, ⟨n + 1, opB⟩])) ↔
      v = ⟨n :: w.chosen, w.trace ++ line ++ [.branch test n (n + 1)] ++ [opA], true⟩ ∨
        v = ⟨(n + 1) :: w.chosen, w.trace ++ line ++ [.branch test n (n + 1)] ++ [opB], true⟩ := by
  have hfirst : n ∉ w.chosen := fun h => Nat.lt_irrefl _ (hnew _ h)
  generalize hT : w.trace ++ line ++ [.branch test n (n + 1)] = T
  have htaken := @next_op ⟨n :: w.chosen, T, false⟩ n opA rfl mem_cons_self hA.1
  have hpassed := @next_of_passes ⟨n :: w.chosen, T ++ [opA], true⟩ ⟨n + 1, opB⟩ (.inl rfl)
  have hpasses := @next_of_passes ⟨(n + 1) :: w.chosen, T, false⟩ ⟨n, opA⟩ (.inr (by simp [hfirst]))
  have hsecond := @next_op ⟨(n + 1) :: w.chosen, T, false⟩ (n + 1) opB rfl mem_cons_self hB.1
  rw [hA.2] at htaken
  rw [hB.2] at hsecond
  rw [mem_through_branch he hc hb,hT]
  simp [through,htaken,hpassed,hpasses,hsecond]

end

/-- Of operations that neither split nor end a walk, it takes those under its conditions. -/
theorem through_filter (gs : List GuardedOp) (he : w.ended = false) (hb : ∀ g ∈ gs, g.op.Inline) :
    w.through gs =
      [⟨w.chosen, w.trace ++ (gs.filter fun g => w.chosen.contains g.condition).map (·.op), false⟩] := by
  induction gs generalizing w with
  | nil =>
    obtain ⟨chosen,trace,_⟩ := w
    simp_all [through]
  | cons g gs ih =>
    obtain ⟨h1,h2⟩ := hb g mem_cons_self
    have hrest := fun g' hg' => hb g' (mem_cons_of_mem g hg')
    by_cases hc : g.condition ∈ w.chosen
    · have hn : w.next g = [⟨w.chosen, w.trace ++ [g.op], false⟩] := by
        have := next_op (w := w) (c := g.condition) he hc h1
        rwa [h2] at this
      have hgs := ih (w := ⟨w.chosen, w.trace ++ [g.op], false⟩) rfl hrest
      simp [through,hn,hgs,hc]
    · have hn := next_of_passes (w := w) (g := g) (.inr hc)
      simp [through,hn,ih he hrest,hc]

theorem chosen_of_next {g : GuardedOp} (h : v ∈ w.next g) :
    (∀ c ∈ w.chosen, c ∈ v.chosen) ∧ ∀ c ∈ v.chosen, c ∈ w.chosen ∨ c ∈ g.op.targets := by
  unfold next at h
  split at h
  · rw [mem_singleton.1 h]
    exact ⟨fun _ hc => hc, fun _ hc => .inl hc⟩
  · split at h
    · rename_i test a b hop
      simp only [mem_cons,not_mem_nil,or_false] at h
      rcases h with rfl | rfl
      all_goals
        refine ⟨fun _ hc => mem_cons_of_mem _ hc, fun c hc => ?_⟩
        exact (mem_cons.1 hc).symm.imp_right fun hc => by simp [hop,Op.targets,hc]
    · rw [mem_singleton.1 h]
      exact ⟨fun _ hc => hc, fun _ hc => .inl hc⟩

theorem chosen_of_through (h : v ∈ w.through gs) :
    (∀ c ∈ w.chosen, c ∈ v.chosen) ∧ ∀ c ∈ v.chosen, c ∈ w.chosen ∨ ∃ g ∈ gs, c ∈ g.op.targets := by
  induction gs generalizing w with
  | nil =>
    rw [mem_singleton.1 h]
    exact ⟨fun _ hc => hc, fun _ hc => .inl hc⟩
  | cons g gs ih =>
    obtain ⟨u,hu,hv⟩ := mem_flatMap.1 h
    obtain ⟨hkept,hmet⟩ := chosen_of_next hu
    obtain ⟨hkept',hmet'⟩ := ih hv
    refine ⟨fun c hc => hkept' c (hkept c hc), fun c hc => ?_⟩
    rw [exists_mem_cons_iff,← or_assoc]
    exact (hmet' c hc).imp_left (hmet c)

end Walk

/-- The operations of every path. -/
def Routine.paths (f : Routine) : List (List Op) := (Walk.start.through f.ops).map (·.trace)

end Polled
