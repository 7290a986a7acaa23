import Mathlib.Logic.Function.Basic
import Polled.CSource.Block

/-!
Calls in child activations, as the blocks of a record carry them out.

A record lives through moments: one of its blocks runs, a value arrives in a slot, or a child comes to
its end. `Once` says that a child is created at most once and not scheduled after it finished.
`phase_of_lives` gives the calls that keep to that, and `exists_created_twice` those that do not.
-/

namespace Polled

open Function List

variable {k : ChildSlot} {results : List Register} {g : GuardedOp}

namespace CSource

/-- What tests can see of an activation record. -/
structure Fields where
  flag : Condition → Bool
  ready : Register → Bool
  /-- The child slot holds a record. -/
  child : ChildSlot → Bool
  /-- The child of the slot has returned. -/
  done : ChildSlot → Bool

def Test.holds (s : Fields) : Test → Bool
  | .flag c => s.flag c
  | .ready slot => s.ready slot
  | .childDone k => s.done k
  | .childAbsent k => !s.child k
  | .not t => !t.holds s

/-- What an action does to its own record; `truth` is what the slots hold. Values that a child or a
routine written elsewhere puts into slots count as arriving after the block. -/
def Action.apply (truth : Register → Bool) (s : Fields) : Action → Fields
  | .copy .self index slot | .pass .ready .self index slot =>
    { s with ready := update s.ready index (s.ready slot) }
  | .markReady slot => { s with ready := update s.ready slot true }
  | .raise c => { s with flag := update s.flag c true }
  | .follow c test outcome => { s with flag := update s.flag c (truth test == outcome) }
  | .create (.call k) _ _ => { s with child := update s.child k true }
  | .forget k => { s with child := update s.child k false }
  | .clearDone k => { s with done := update s.done k false }
  | _ => s

def Step.taken (s : Fields) : Step → List Action
  | .act a => [a]
  | .when tests actions => if tests.all (Test.holds s) then actions else []

/-- The record after some steps, and the actions on the way. -/
def runSteps (truth : Register → Bool) (s : Fields) : List Step → Fields × List Action
  | [] => (s, [])
  | step :: rest =>
    let after := runSteps truth ((step.taken s).foldl (Action.apply truth) s) rest
    (after.1, step.taken s ++ after.2)

def Block.run (truth : Register → Bool) (s : Fields) (b : Block) : Fields × List Action :=
  if b.tests.all (Test.holds s) then runSteps truth s b.steps else (s, [])

/-- What can become of the child in a slot. -/
inductive Deed where
  | created
  | scheduled
  | finished
  deriving DecidableEq, Repr

def Action.deed? (k : ChildSlot) : Action → Option Deed
  | .create (.call j) _ _ => if j = k then some .created else none
  | .schedule (.call j) _ => if j = k then some .scheduled else none
  | _ => none

end CSource

open CSource

variable {s' : Fields}

variable {a : Action}

section Effects

variable {truth : Register → Bool} {s : Fields}

theorem guardTests_hold_iff {g : Guard} : (guardTests g).all (Test.holds s) = true ↔
      s.flag g.condition = true ∧ (∀ x ∈ g.needs, s.ready x = true) ∧
        (∀ x ∈ g.provides, s.ready x = false) ∧ ∀ c ∈ g.unset, s.flag c = false := by
  simp [guardTests,Test.holds]

/-- Flags stay set and slots stay ready. -/
structure CSource.Fields.Grows (s s' : Fields) : Prop where
  flag : ∀ c, s.flag c = true → s'.flag c = true
  ready : ∀ x, s.ready x = true → s'.ready x = true

theorem CSource.Fields.Grows.refl (s : Fields) : s.Grows s := ⟨fun _ h => h, fun _ h => h⟩

theorem CSource.Fields.Grows.trans {s'' : Fields} (h : s.Grows s') (h' : s'.Grows s'') : s.Grows s'' :=
  ⟨fun c hc => h'.flag c (h.flag c hc), fun x hx => h'.ready x (h.ready x hx)⟩

/-- Actions that can only set flags and only make slots ready. -/
def CSource.Action.lifts : Action → Bool
  | .copy .self _ _ | .pass .ready .self _ _ | .follow _ _ _ => false
  | _ => true

/-- Actions on the child of a slot. -/
def CSource.Action.touches (k : ChildSlot) : Action → Bool
  | .create (.call j) _ _ | .schedule (.call j) _ | .forget j | .clearDone j => j = k
  | _ => false

def CSource.Step.actions : Step → List Action
  | .act a => [a]
  | .when _ actions => actions

theorem CSource.Step.taken_subset (s : Fields) (step : Step) : step.taken s ⊆ step.actions := by
  cases step with
  | act a => exact List.Subset.refl _
  | when tests body =>
    simp only [taken,actions]
    split <;> simp

theorem grows_apply (h : a.lifts = true) : s.Grows (a.apply truth s) := by
  constructor <;> intro x hx <;> fun_cases Action.apply <;> simp_all [Action.lifts,update_apply]

theorem apply_of_not_touches (h : a.touches k = false) :
    (a.apply truth s).child k = s.child k ∧ (a.apply truth s).done k = s.done k := by
  fun_cases Action.apply <;> grind [Action.touches,update_apply]

theorem deed?_of_not_touches (h : a.touches k = false) : a.deed? k = none := by
  fun_cases Action.deed? <;> simp_all [Action.touches]

variable {steps : List Step}

theorem runSteps_induction {P : Fields → Prop} (hs : P s)
    (h : ∀ a ∈ steps.flatMap Step.actions, ∀ s, P s → P (a.apply truth s)) :
    P (runSteps truth s steps).1 := by
  induction steps generalizing s with
  | nil => exact hs
  | cons step rest ih =>
    simp only [flatMap_cons,mem_append,or_imp,forall_and] at h
    refine ih (foldlRecOn _ _ hs fun s hs a ha => h.1 a (step.taken_subset _ ha) s hs) h.2

theorem taken_runSteps (h : a ∈ (runSteps truth s steps).2) : a ∈ steps.flatMap Step.actions := by
  induction steps generalizing s with
  | nil => exact absurd h not_mem_nil
  | cons step rest ih =>
    rw [flatMap_cons,mem_append]
    exact (mem_append.1 h).imp (step.taken_subset _ ·) ih

end Effects

/-- The slot of the child that an operation calls. -/
def Op.childSlot? : Op → Option ChildSlot
  | .callAsync _ _ _ k _ => some k
  | _ => none

/-- A child that returns says so, and all its results are there. -/
def CSource.Fields.finish (s : Fields) (k : ChildSlot) (results : List Register) : Fields :=
  { s with
    ready := fun x => s.ready x || decide (x ∈ results)
    done := update s.done k true }

/-- The moments of an activation, with what becomes of the child in slot `k`. -/
inductive Lives (p : Program) (r : Routine) (k : ChildSlot) (results : List Register) :
    Fields → List Deed → Fields → Prop
  | start {s : Fields} : Lives p r k results s [] s
  | run {s s' : Fields} {deeds : List Deed} (g : GuardedOp) (truth : Register → Bool) :
    Lives p r k results s deeds s' → g ∈ r.ops →
      Lives p r k results s (deeds ++ ((r.block p g).run truth s').2.filterMap (Action.deed? k))
        ((r.block p g).run truth s').1
  | arrive {s s' : Fields} {deeds : List Deed} (slot : Register) :
    Lives p r k results s deeds s' →
      Lives p r k results s deeds { s' with ready := update s'.ready slot true }
  | finish {s s' : Fields} {deeds : List Deed} :
    Lives p r k results s deeds s' → s'.child k = true → s'.done k = false →
      Lives p r k results s (deeds ++ [.finished]) (s'.finish k results)

/-- One pass of a poll: the blocks in order, up to one that leaves. -/
def Routine.sweepBlocks (p : Program) (r : Routine) (truth : Register → Bool) (s : Fields) :
    Fields × List Action :=
  r.ops.foldl (fun past g =>
    if Action.leave ∈ past.2 then past
    else (((r.block p g).run truth past.1).1, past.2 ++ ((r.block p g).run truth past.1).2)) (s, [])

variable {s : Fields} {deeds : List Deed}

theorem Lives.sweepBlocks {p : Program} {r : Routine} (h : Lives p r k results s deeds s')
    (truth : Register → Bool) :
    Lives p r k results s (deeds ++ (r.sweepBlocks p truth s').2.filterMap (Action.deed? k))
      (r.sweepBlocks p truth s').1 := by
  refine foldlRecOn (motive := fun past : Fields × List Action =>
    Lives p r k results s (deeds ++ past.2.filterMap (Action.deed? k)) past.1) _ _ (by simpa using h) ?_
  intro past hpast g hg
  split
  · exact hpast
  · simpa [filterMap_append,append_assoc] using hpast.run g truth hg

/-- One child, which is left alone once it has finished. -/
def Once (deeds : List Deed) : Prop :=
  deeds.count .created ≤ 1 ∧
    ∀ before after, deeds = before ++ .finished :: after → Deed.scheduled ∉ after

section Blocks

variable (p : Program) (r : Routine)

theorem actions_act (actions : List Action) : (act actions).flatMap Step.actions = actions := by
  induction actions with
  | nil => rfl
  | cons a rest ih => exact congrArg (a :: ·) ih

theorem actions_callInChild {callee : String} {args : List Register} {done : Option Condition}
    (h : a ∈ (callInChild r callee args results k done).flatMap Step.actions) :
    a = .create (.call k) callee (.self r.name) ∨ a = .schedule (.call k) callee ∨ a = .forget k ∨
      a = .clearDone k ∨ a = .linkDone k ∨ a = .progress ∨ (∃ c, a = .raise c) ∨
        (∃ j slot, a = .link (.call k) j slot) ∨ ∃ part i slot, a = .pass part (.call k) i slot := by
  simp only [callInChild,flatMap_append,mem_append,mem_flatMap,mem_map,mem_cons,
    not_mem_nil,or_false,exists_eq_or_imp,exists_eq_left,Step.actions,mem_flatten,mem_mapIdx] at h
  grind [Step.actions]

/-- Only renames and branches can take a value or a flag back, and only the call of a child touches its
slot. -/
theorem framed_block (ha : a ∈ (r.block p g).steps.flatMap Step.actions) :
    (a.lifts = true ∨ (∃ source dest, g.op = .rename source dest) ∨ ∃ test c c',
      g.op = .branch test c c') ∧ ∀ k, a.touches k = true → g.op.childSlot? = some k := by
  obtain ⟨c,op⟩ := g
  rw [Routine.block,flatMap_append,mem_append] at ha
  cases op with
  | callAsync callee args results j done =>
    have := actions_callInChild r (ha.resolve_right not_mem_nil)
    grind [Action.lifts,Action.touches,Op.childSlot?]
  | _ =>
    simp only [opSteps,callInPlace,progressSteps,actions_act,garbageActions] at ha
    grind [Action.lifts,Action.touches,Step.actions,mem_flatten]

/-- A rename copies what is ready, and a branch sets flags that were not set. -/
theorem grows_run (g : GuardedOp) (truth : Register → Bool) (s : Fields) :
    s.Grows ((r.block p g).run truth s).1 := by
  rw [Block.run]
  split
  · next h =>
    obtain ⟨c,op⟩ := g
    obtain ⟨-,needs,-,unset⟩ := guardTests_hold_iff.1 h
    cases op with
    | rename source dest =>
      have hsource := needs (r.slot source) (by simp [Routine.guard,Op.needs])
      exact ⟨fun x hx => hx, fun x hx => by
        simp [Routine.block,opSteps,act,progressSteps,runSteps,Step.taken,Action.apply,update_apply,
          hsource,hx]⟩
    | branch test ifTrue ifFalse =>
      have hflags : ∀ x ∈ [ifTrue, ifFalse], s.flag x = false := unset
      exact ⟨fun x hx => by
        have : x ∉ [ifTrue, ifFalse] := fun hm => by simp [hflags x hm] at hx
        simp_all [Routine.block,opSteps,act,progressSteps,runSteps,Step.taken,Action.apply],
        fun x hx => hx⟩
    | _ =>
      refine runSteps_induction (.refl s) fun a ha s' hs' => hs'.trans (grows_apply ?_)
      simpa using (framed_block p r ha).1
  · exact .refl s

theorem run_of_childSlot? (h : g.op.childSlot? ≠ some k) (truth : Register → Bool) (s : Fields) :
    ((r.block p g).run truth s).1.child k = s.child k ∧ ((r.block p g).run truth s).1.done k = s.done k ∧
      ((r.block p g).run truth s).2.filterMap (Action.deed? k) = [] := by
  have hk : ∀ a ∈ (r.block p g).steps.flatMap Step.actions, a.touches k = false := fun a ha =>
    Bool.eq_false_iff.2 fun hk => h ((framed_block p r ha).2 k hk)
  rw [Block.run]
  split
  · refine and_assoc.1 ⟨?_, ?_⟩
    · refine runSteps_induction (P := fun s' => s'.child k = s.child k ∧
        s'.done k = s.done k) ⟨rfl, rfl⟩ ?_
      intro a ha s' hs'
      obtain ⟨hchild,hdone⟩ := apply_of_not_touches (s := s') (hk a ha)
      exact ⟨hchild.trans hs'.1, hdone.trans hs'.2⟩
    · exact filterMap_eq_nil_iff.2 fun a ha => deed?_of_not_touches (hk a (taken_runSteps ha))
  · exact ⟨rfl, rfl, rfl⟩

/-- A child that is done gives its flag, if it has one, and is forgotten. -/
def CSource.Fields.settle (s : Fields) (k : ChildSlot) : Option Condition → Fields
  | some c =>
    if s.done k then
      { s with
        flag := update s.flag c true
        child := update s.child k false
        done := update s.done k false }
    else s
  | none => s

/-- A child that is not done is there afterwards and is scheduled. -/
def CSource.Fields.engage (s : Fields) (k : ChildSlot) : Fields × List Deed :=
  if s.done k then (s, [])
  else ({ s with child := update s.child k true },
    (if s.child k then [] else [.created]) ++ [.scheduled])

section Call

variable {callee : String} {args : List Register} {done : Option Condition}
variable {truth : Register → Bool}

/-- What some actions do is not seen in the record and is no deed. -/
def CSource.Silent (truth : Register → Bool) (k : ChildSlot) (actions : List Action) : Prop :=
  (∀ s, actions.foldl (Action.apply truth) s = s) ∧ actions.filterMap (Action.deed? k) = []

theorem silent_of_mem {actions : List Action} (h : ∀ a ∈ actions, (∀ s, a.apply truth s = s) ∧
    a.deed? k = none) :
    Silent truth k actions :=
  ⟨fun s => foldlRecOn (motive := (· = s)) _ _ rfl fun s' hs a ha => ((h a ha).1 s').trans hs,
    filterMap_eq_nil_iff.2 fun a ha => (h a ha).2⟩

/-- A run of steps, with what becomes of the child. -/
def CSource.deedsOf (truth : Register → Bool) (k : ChildSlot) (s : Fields) (steps : List Step) :
    Fields × List Deed :=
  ((runSteps truth s steps).1, (runSteps truth s steps).2.filterMap (Action.deed? k))

theorem deedsOf_append (s : Fields) (steps more : List Step) : deedsOf truth k s (steps ++ more) =
      ((deedsOf truth k (deedsOf truth k s steps).1 more).1,
        (deedsOf truth k s steps).2 ++ (deedsOf truth k (deedsOf truth k s steps).1 more).2) := by
  induction steps generalizing s with
  | nil => rfl
  | cons step rest ih =>
    have := ih ((step.taken s).foldl (Action.apply truth) s)
    simp only [deedsOf,Prod.mk.injEq,cons_append,runSteps,filterMap_append,append_assoc] at this ⊢
    exact ⟨this.1, by rw [this.2]⟩

theorem deedsOf_settle (s : Fields) (done : Option Condition) :
    deedsOf truth k s (done.toList.map fun c => .when [.childDone k]
      [.raise c, .forget k, .clearDone k, .progress]) = (s.settle k done, []) := by
  cases done <;> cases hd : s.done k <;>
    simp [deedsOf,runSteps,Step.taken,Test.holds,hd,Fields.settle,Action.apply,Action.deed?]

theorem deedsOf_engage {links passes : List Action} (hl : Silent truth k links)
    (hp : Silent truth k passes) (s : Fields) (waker : Waker) :
    deedsOf truth k s
        [.when [.childAbsent k, .not (.childDone k)] (.create (.call k) callee waker :: links),
          .when [.not (.childDone k)] (passes ++ [.schedule (.call k) callee])] =
      s.engage k := by
  cases hd : s.done k with
  | true => simp [deedsOf,runSteps,Step.taken,Test.holds,hd,Fields.engage]
  | false =>
    cases hc : s.child k with
    | true =>
      have : update s.child k true = s.child := update_eq_self_iff.2 hc.symm
      simp [deedsOf,runSteps,Step.taken,Test.holds,hd,hc,Fields.engage,hp.1,hp.2,Action.apply,
        Action.deed?,this]
    | false =>
      simp [deedsOf,runSteps,Step.taken,Test.holds,hd,hc,Fields.engage,hl.1,hl.2,hp.1,hp.2,Action.apply,
        Action.deed?]

/-- The block of a call settles a finished child and then engages one, whether the slot was settled or
not. -/
theorem deedsOf_callInChild (truth : Register → Bool) (callee : String) (args results : List Register)
    (k : ChildSlot) (done : Option Condition) (s : Fields) :
    deedsOf truth k s (callInChild r callee args results k done) = (s.settle k done).engage k := by
  have hl : Silent truth k (.linkDone k :: results.mapIdx fun j x => .link (.call k) j (r.slot x)) :=
    silent_of_mem fun a ha => by
      obtain rfl | ha := mem_cons.1 ha
      · exact ⟨fun s => rfl, rfl⟩
      · obtain ⟨j,_,rfl⟩ := mem_mapIdx.1 ha
        exact ⟨fun s => rfl, rfl⟩
  have hp : Silent truth k (args.mapIdx fun i x => [Action.pass .value (.call k) i (r.slot x),
      .pass .ready (.call k) i (r.slot x), .pass .cancelled (.call k) i (r.slot x)]).flatten :=
    silent_of_mem fun a ha => by
      obtain ⟨_,hm,ha⟩ := mem_flatten.1 ha
      obtain ⟨i,_,rfl⟩ := mem_mapIdx.1 hm
      simp only [mem_cons,not_mem_nil,or_false] at ha
      obtain rfl | rfl | rfl := ha <;> exact ⟨fun s => rfl, rfl⟩
  rw [callInChild,deedsOf_append,deedsOf_settle,deedsOf_engage hl hp,nil_append]

theorem run_call (truth : Register → Bool) (hop : g.op = .callAsync callee args results k done)
    (h : (r.block p g).tests.all (Test.holds s) = true) :
    ((r.block p g).run truth s).1 = ((s.settle k done).engage k).1 ∧
      ((r.block p g).run truth s).2.filterMap (Action.deed? k) = ((s.settle k done).engage k).2 := by
  have hsteps : (r.block p g).steps = callInChild r callee args results k done := by
    simp [Routine.block,hop,opSteps,progressSteps]
  have := deedsOf_callInChild r truth callee args results k done s
  rw [Block.run,if_pos h,hsteps,← this]
  exact ⟨rfl, rfl⟩

end Call

end Blocks

/-- How far the child of a slot has come, by the record and by the deeds so far. -/
inductive Phase (k : ChildSlot) (results : List Register) (s : Fields) (deeds : List Deed) : Prop
  | absent (child : s.child k = false) (done : s.done k = false) (hc : Deed.created ∉ deeds)
    (hf : Deed.finished ∉ deeds)
  | busy (child : s.child k = true) (done : s.done k = false) (hc : deeds.count .created = 1)
    (hf : Deed.finished ∉ deeds)
  | ended (child : s.child k = true) (done : s.done k = true) (ready : ∀ x ∈ results, s.ready x = true)
    (before : List Deed) (eq : deeds = before ++ [.finished]) (hc : before.count .created = 1)
    (hf : Deed.finished ∉ before)

namespace Phase

variable {k : ChildSlot} {results : List Register} {s s' : Fields} {deeds : List Deed}

section

variable (h : Phase k results s deeds)

include h

theorem once : Once deeds := by
  cases h with
  | absent child done hc hf =>
    exact ⟨by simp [count_eq_zero.2 hc], fun before after eq => absurd (by simp [eq]) hf⟩
  | busy child done hc hf => exact ⟨Nat.le_of_eq hc, fun before after eq => absurd (by simp [eq]) hf⟩
  | ended child done ready early eq hc hf =>
    subst eq
    refine ⟨by simp [hc], fun before after eq => ?_⟩
    have hafter : after = [] := by
      obtain ⟨rest,rfl,h⟩ | ⟨rest,rfl,h⟩ := append_eq_append_iff.1 eq
      · exact (append_eq_singleton_iff.1 h.symm).elim (fun h => by simpa using h.2) fun h => by simp at h
      · cases rest with
        | nil => simpa using h
        | cons d rest => simp_all
    simp [hafter]

theorem mono (hg : s.Grows s') (hc : s'.child k = s.child k) (hd : s'.done k = s.done k) :
    Phase k results s' deeds := by
  cases h with
  | absent child done hc' hf => exact .absent (hc.trans child) (hd.trans done) hc' hf
  | busy child done hc' hf => exact .busy (hc.trans child) (hd.trans done) hc' hf
  | ended child done ready before eq hc' hf =>
    exact .ended (hc.trans child) (hd.trans done) (fun x hx => hg.ready x (ready x hx)) before eq hc' hf

theorem finish (hc : s.child k = true) (hd : s.done k = false) :
    Phase k results (s.finish k results) (deeds ++ [.finished]) := by
  cases h with
  | absent child => simp [child] at hc
  | busy child done hc hf =>
    exact .ended child (by simp [Fields.finish]) (fun x hx => by simp [Fields.finish,hx]) deeds rfl hc hf
  | ended child done => simp [done] at hd

theorem engage (hd : s.done k = false) : Phase k results (s.engage k).1 (deeds ++ (s.engage k).2) := by
  cases h with
  | absent child done hc hf =>
    exact .busy (by simp [Fields.engage,hd]) (by simp [Fields.engage,hd])
      (by simp [Fields.engage,hd,child,count_eq_zero.2 hc]) (by simp [Fields.engage,hd,child,hf])
  | busy child done hc hf =>
    exact .busy (by simp [Fields.engage,hd]) (by simp [Fields.engage,hd])
      (by simp [Fields.engage,hd,child,hc]) (by simp [Fields.engage,hd,child,hf])
  | ended child done => simp [done] at hd

end

theorem call {p : Program} {r : Routine} {g : GuardedOp} {callee : String} {args results : List Register}
    {done : Option Condition} (hop : g.op = .callAsync callee args results k done)
    {truth : Register → Bool} (h : Phase k (results.map r.slot) s deeds)
    (hw : results ≠ [] ∨ ∀ x ∈ done, ((r.block p g).run truth s).1.flag x = false) :
    Phase k (results.map r.slot) ((r.block p g).run truth s).1
      (deeds ++ ((r.block p g).run truth s).2.filterMap (Action.deed? k)) := by
  by_cases hg : (r.block p g).tests.all (Test.holds s) = true
  · obtain ⟨hrun,hdeeds⟩ := run_call p r truth hop hg
    rw [hrun] at hw ⊢
    rw [hdeeds]
    cases hd : s.done k with
    | false =>
      have hs : s.settle k done = s := by cases done <;> simp [Fields.settle,hd]
      rw [hs]
      exact h.engage hd
    | true =>
      have hnone : results = [] := eq_nil_iff_forall_not_mem.2 fun x hx => by
        cases h with
        | absent child done => simp [done] at hd
        | busy child done => simp [done] at hd
        | ended child done ready =>
          have hunready := (guardTests_hold_iff.1 hg).2.2.1 (r.slot x)
            (mem_map_of_mem (by simpa [Routine.guard,hop,Op.provides] using hx))
          simp [ready _ (mem_map_of_mem hx)] at hunready
      have hflag := hw.resolve_left (fun h => h hnone)
      cases done with
      | none => simpa [Fields.settle,Fields.engage,hd] using h
      | some x => simp [Fields.settle,Fields.engage,hd] at hflag
  · rw [Block.run,if_neg hg]
    simpa using h

end Phase

section Promise

variable {p : Program} {r : Routine} {g : GuardedOp} {callee : String} {args results : List Register}
  {k : ChildSlot}
variable {done : Option Condition}

/-- The call runs on one child as long as it waits for results, or as long as its flag is not set. -/
theorem phase_of_lives (hop : g.op = .callAsync callee args results k done)
    (hsole : ∀ g' ∈ r.ops, g'.op.childSlot? = some k → g' = g) (hchild : s.child k = false)
    (hdone : s.done k = false) (h : Lives p r k (results.map r.slot) s deeds s')
    (hw : results ≠ [] ∨ ∀ x ∈ done, s'.flag x = false) :
    Phase k (results.map r.slot) s' deeds := by
  induction h with
  | start => exact .absent hchild hdone not_mem_nil not_mem_nil
  | arrive slot h ih =>
    exact (ih hw).mono ⟨fun c hc => hc, fun x hx => by simp [update_apply,hx]⟩ rfl rfl
  | finish h hc hd ih => exact (ih hw).finish hc hd
  | @run s' _ g' truth _ hg ih =>
    have hgrow := grows_run p r g' truth s'
    have hphase := ih <| hw.imp_right fun hw x hx => Bool.eq_false_iff.2 fun hs' => by
      have := hgrow.flag x hs'
      simp [hw x hx] at this
    by_cases hk : g'.op.childSlot? = some k
    · obtain rfl := hsole g' hg hk
      exact hphase.call hop hw
    · obtain ⟨hchild,hdone,hdeeds⟩ := run_of_childSlot? p r hk truth s'
      rw [hdeeds,append_nil]
      exact hphase.mono hgrow hchild hdone

theorem Lives.call {s s' : Fields} {slots : List Register} {deeds : List Deed}
    (h : Lives p r k slots s deeds s') (hop : g.op = .callAsync callee args results k done)
    (hg : g ∈ r.ops) (htests : (r.block p g).tests.all (Test.holds s') = true) :
    Lives p r k slots s (deeds ++ ((s'.settle k done).engage k).2) ((s'.settle k done).engage k).1 := by
  obtain ⟨hrun,hdeeds⟩ := run_call p r (fun _ => false) hop htests
  have := h.run g (fun _ => false) hg
  rwa [hrun,hdeeds] at this

/-- Without results and with a flag, the block that settles a finished child creates the next one. -/
theorem exists_created_twice {x : Condition} (hop : g.op = .callAsync callee args [] k (some x))
    (hg : g ∈ r.ops) (hne : g.condition ≠ x) :
    ∃ s deeds s', s.child k = false ∧ s.done k = false ∧ Lives p r k [] s deeds s' ∧
      deeds.count .created = 2 := by
  let opened : Fields :=
    ⟨fun c => decide (c = g.condition), fun _ => false, fun _ => false, fun _ => false⟩
  let engaged : Fields := { opened with child := update opened.child k true }
  have htests : ∀ s : Fields, s.flag = opened.flag → (r.block p g).tests.all (Test.holds s) = true :=
    fun s hs =>
    guardTests_hold_iff.2
      (by simp [Routine.guard,hop,Op.needs,Op.provides,Op.completionFlags,hs,opened,hne.symm])
  -- The flag is not set before the block finds the finished child, so its guard still holds then.
  have hfirst : Lives p r k [] opened [.created, .scheduled] engaged :=
    Lives.start.call hop hg (htests opened rfl)
  have hfinish := hfirst.finish (by simp [engaged]) rfl
  have hsecond := hfinish.call hop hg (htests _ rfl)
  exact ⟨opened, _, _, rfl, rfl, hsecond, by simp [Fields.settle,Fields.engage,Fields.finish]⟩

end Promise

end Polled
