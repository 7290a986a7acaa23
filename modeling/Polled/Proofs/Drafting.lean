import Polled.Lowering
import Polled.Proofs.Activation

/-!
Runs of lowering steps that succeed, taken apart.

`bind_eq_ok` splits a sequence of steps, and the `_eq_ok` lemmas say what a single step has done when it
succeeds.
-/

namespace Polled

variable {rs : List Register} {span : Span} {a : Unit}

namespace Draft

/-- The condition that comes next. -/
abbrev count (d : Draft) : Nat := d.control.conditionCount

/-- The register that comes next. -/
abbrev size (d : Draft) : Nat := d.registers.size

def reserve (d : Draft) (k : Kind) : Draft := { d with registers := (d.registers.alloc k).2 }

def reserveAll (d : Draft) : List Kind → Draft
  | [] => d
  | k :: ks => (d.reserve k).reserveAll ks

def disown (d : Draft) (r : Register) : Draft := { d with registers := d.registers.release r }

def emit (d : Draft) (c : Condition) (op : Op) : Draft := { d with ops := d.ops ++ [⟨c, op⟩] }

def tick (d : Draft) : Draft := { d with control := d.control.condition.2 }

def giveName (d : Draft) (x : String) (r : Register) : Draft :=
  { d with scope :=
      (if (d.registers.kind r).ownsHeap then d.scope.forget d.registers r else d.scope).bind x r }

def handOver (d : Draft) (r : Register) : Draft :=
  { d with registers := d.registers.release r, scope := d.scope.forget (d.registers.release r) r }

def giveNames (d : Draft) : List String → List Register → Draft
  | x :: xs, r :: rs => (d.giveName x r).giveNames xs rs
  | _, _ => d

def logged (d : Draft) (e : Event) : Draft := { d with log := d.log ++ [e] }

def withChild (d : Draft) (callee : String) : Draft :=
  { d with control := (d.control.newChild callee).2 }

def disownAll (d : Draft) : List Register → Draft
  | [] => d
  | r :: rs => (d.disown r).disownAll rs

/-- A group is freed under a condition, with a flag of its own. -/
def free (d : Draft) (f : Frame) (c : Condition) (r : Register) : Draft :=
  ((d.tick.logged (.freed f.name r c)).emit c (.free r d.control.conditionCount)).disown r

def freeAll (d : Draft) (f : Frame) : List (Register × Condition) → Draft
  | [] => d
  | (r, c) :: rest => (d.free f c r).freeAll f rest

end Draft

/-- The operations that free groups, where `count` flags have been handed out before. -/
def freeOps (count : Nat) (rs : List (Register × Condition)) : List GuardedOp :=
  (rs.zipIdx count).map fun (p, k) => ⟨p.2, .free p.1 k⟩

namespace Lower

variable {α β : Type} {d d' : Draft}

theorem bind_eq_ok (m : Lower α) (k : α → Lower β) (b : β) :
    (m >>= k) d = .ok (b, d') ↔ ∃ a e, m d = .ok (a, e) ∧ k a e = .ok (b, d') := by
  show Except.bind (m d) (fun r => k r.1 r.2) = _ ↔ _
  cases m d with
  | error halt => simp [Except.bind]
  | ok r =>
    obtain ⟨a,e⟩ := r
    constructor
    · exact fun h => ⟨a, e, rfl, h⟩
    · rintro ⟨_,_,hae,h⟩
      cases hae
      exact h

theorem pure_eq_ok (a b : α) : (pure a : Lower α) d = .ok (b, d') ↔ b = a ∧ d' = d := by
  show Except.ok (a, d) = .ok (b, d') ↔ _
  simp [eq_comm]

theorem get_eq_ok (e : Draft) : (get : Lower Draft) d = .ok (e, d') ↔ e = d ∧ d' = d := by
  show Except.ok (d, d) = .ok (e, d') ↔ _
  simp [eq_comm]

theorem set_eq_ok (e : Draft) (a : PUnit) : (set e : Lower PUnit) d = .ok (a, d') ↔ d' = e := by
  show Except.ok (PUnit.unit, e) = .ok (a, d') ↔ _
  simp [eq_comm]

theorem modify_eq_ok (g : Draft → Draft) (a : PUnit) :
    (modify g : Lower PUnit) d = .ok (a, d') ↔ d' = g d := by
  show Except.ok (PUnit.unit, g d) = .ok (a, d') ↔ _
  simp [eq_comm]

theorem refuse_eq_ok (fault : SourceFault) (span : Span) (a : α) :
    refuse fault span d = .ok (a, d') ↔ False := by
  simp [refuse]

theorem unless_eq_ok (p : Prop) [Decidable p] (fault : SourceFault) (span : Span) (m : Lower β) (b : β) :
    (if p then (refuse fault span : Lower PUnit) >>= fun _ => m else m) d = .ok (b, d') ↔
      ¬p ∧ m d = .ok (b, d') := by
  split
  · simp_all [bind_eq_ok,refuse_eq_ok]
  · simp_all

theorem ensure_eq_ok (outcome : Except Kind.Clash Unit) (fault : Kind.Clash → SourceFault) (span : Span)
    (a : Unit) : ensure outcome fault span d = .ok (a, d') ↔ outcome = .ok () ∧ d' = d := by
  cases outcome with
  | ok _ => simp [ensure,pure_eq_ok]
  | error clash => simp [ensure,refuse_eq_ok]

theorem placing_eq_ok (span : Span) (m : Lower α) (a : α) :
    placing span m d = .ok (a, d') ↔ m d = .ok (a, d') := by
  unfold placing
  cases m d <;> simp

theorem note_eq_ok (e : Event) (a : Unit) : note e d = .ok (a, d') ↔ d' = d.logged e := modify_eq_ok _ _

theorem alloc_eq_ok (k : Kind) (r : Register) :
    alloc k d = .ok (r, d') ↔ r = d.size ∧ d' = d.reserve k := by
  show Except.ok (d.size, d.reserve k) = .ok (r, d') ↔ _
  simp [eq_comm]

theorem allocAll_eq_ok (ks : List Kind) (rs : List Register) : allocAll ks d = .ok (rs, d') ↔
      rs = List.range' d.size ks.length ∧ d' = d.reserveAll ks := by
  induction ks generalizing d d' rs with
  | nil => exact pure_eq_ok _ _
  | cons k ks ih =>
    simp only [allocAll,bind_eq_ok,alloc_eq_ok,ih,pure_eq_ok]
    have hsize : (d.reserve k).size = d.size + 1 := Registers.size_alloc _ k
    constructor
    · rintro ⟨_,_,⟨rfl,rfl⟩,_,_,⟨rfl,rfl⟩,rfl,rfl⟩
      exact ⟨by rw [hsize,List.length_cons,List.range'_succ], rfl⟩
    · rintro ⟨rfl,rfl⟩
      exact ⟨_, _, ⟨rfl, rfl⟩, _, _, ⟨rfl, rfl⟩, by rw [hsize,List.length_cons,List.range'_succ], rfl⟩

theorem kindOf_eq_ok (r : Register) (k : Kind) :
    kindOf r d = .ok (k, d') ↔ k = d.registers.kind r ∧ d' = d := by
  simp only [kindOf,bind_eq_ok,get_eq_ok,pure_eq_ok]
  constructor
  · rintro ⟨_,_,⟨rfl,rfl⟩,h⟩
    exact h
  · exact fun h => ⟨d, d, ⟨rfl, rfl⟩, h⟩

theorem release_eq_ok (r : Register) (a : Unit) : release r d = .ok (a, d') ↔ d' = d.disown r :=
  modify_eq_ok _ _

theorem releaseAll_eq_ok (rs : List Register) (a : Unit) :
    releaseAll rs d = .ok (a, d') ↔ d' = d.disownAll rs := by
  induction rs generalizing d d' with
  | nil => exact (pure_eq_ok _ _).trans (by simp [Draft.disownAll])
  | cons r rs ih => simp [releaseAll,bind_eq_ok,release_eq_ok,ih,Draft.disownAll]

theorem collectAtExit_eq_ok (keep garbage : List Register) : collectAtExit keep d = .ok (garbage, d') ↔
      garbage = d.registers.unreachable (orderedSet (keep.map d.registers.resolve)) ∧
        d' = d.disownAll (garbage ++ orderedSet (keep.map d.registers.resolve)) := by
  simp only [collectAtExit,bind_eq_ok,get_eq_ok,releaseAll_eq_ok,pure_eq_ok]
  constructor
  · rintro ⟨_,_,⟨rfl,rfl⟩,_,_,rfl,rfl,rfl⟩
    exact ⟨rfl, rfl⟩
  · rintro ⟨rfl,rfl⟩
    exact ⟨d, d, ⟨rfl, rfl⟩, (), _, rfl, rfl, rfl⟩

theorem condition_eq_ok (c : Condition) : condition d = .ok (c, d') ↔ c = d.count ∧ d' = d.tick := by
  show Except.ok (d.count, d.tick) = .ok (c, d') ↔ _
  simp [eq_comm]

theorem doneFlag_eq_ok {done : Option Condition} (h : doneFlag rs d = .ok (done, d')) :
    ∃ control, d' = { d with control } ∧
      (rs = [] ∧ done = some d.count ∧ control.conditionCount = d.count + 1 ∨
        rs ≠ [] ∧ done = none ∧ control.conditionCount = d.count) := by
  unfold doneFlag at h
  split at h
  · rename_i hrs
    simp only [bind_eq_ok,condition_eq_ok,pure_eq_ok] at h
    obtain ⟨_,_,⟨rfl,rfl⟩,rfl,rfl⟩ := h
    exact ⟨_, rfl, .inl ⟨List.isEmpty_iff.1 hrs, rfl, rfl⟩⟩
  · rename_i hrs
    obtain ⟨rfl,rfl⟩ := (pure_eq_ok _ _).1 h
    exact ⟨_, rfl, .inr ⟨fun hnil => hrs (List.isEmpty_iff.2 hnil), rfl, rfl⟩⟩

theorem checkTruth_eq_ok {r : Register} {statement : Conditional}
    (h : checkTruth r span statement d = .ok (a, d')) :
    (d.registers.kind r).convert (.lent .boolean) = .ok () ∧ d = d' := by
  simp only [checkTruth,bind_eq_ok,kindOf_eq_ok,ensure_eq_ok] at h
  obtain ⟨_,_,⟨rfl,rfl⟩,hconv,rfl⟩ := h
  exact ⟨hconv, rfl⟩

theorem newChild_eq_ok (callee : String) (k : ChildSlot) :
    newChild callee d = .ok (k, d') ↔ k = d.control.childCalls.length ∧ d' = d.withChild callee := by
  show Except.ok (d.control.childCalls.length, d.withChild callee) = .ok (k, d') ↔ _
  simp [eq_comm]

theorem pushUnder_eq_ok (c : Condition) (op : Op) (a : Unit) :
    pushUnder c op d = .ok (a, d') ↔ d' = d.emit c op :=
  modify_eq_ok _ _

theorem push_eq_ok (op : Op) (a : Unit) : push op d = .ok (a, d') ↔ d' = d.emit d.current op := by
  show Except.ok (PUnit.unit, d.emit d.current op) = .ok (a, d') ↔ _
  simp [eq_comm]

theorem read_eq_ok (x : String) (fault : SourceFault) (span : Span) (r : Register) :
    read x fault span d = .ok (r, d') ↔ d.scope.get? x = some r ∧ d' = d := by
  simp only [read,lookup?,bind_eq_ok,get_eq_ok,pure_eq_ok]
  constructor
  · rintro ⟨found,_,⟨_,_,⟨rfl,rfl⟩,hx,rfl⟩,h⟩
    cases found with
    | none => exact ((refuse_eq_ok _ _ _).1 h).elim
    | some s =>
      obtain ⟨rfl,rfl⟩ := (pure_eq_ok _ _).1 h
      exact ⟨hx.symm, rfl⟩
  · rintro ⟨hx,rfl⟩
    refine ⟨_, _, ⟨_, _, ⟨rfl, rfl⟩, rfl, rfl⟩, ?_⟩
    rw [hx]
    exact (pure_eq_ok _ _).2 ⟨rfl, rfl⟩

theorem bindName_eq_ok (x : String) (r : Register) (a : Unit) :
    bindName x r d = .ok (a, d') ↔ d' = d.giveName x r :=
  modify_eq_ok _ _

theorem bindNames_eq_ok (xs : List String) (rs : List Register) (a : Unit) :
    bindNames xs rs d = .ok (a, d') ↔ d' = d.giveNames xs rs := by
  induction xs generalizing d d' rs with
  | nil => exact (pure_eq_ok _ _).trans (by simp [Draft.giveNames])
  | cons x xs ih =>
    cases rs with
    | nil => exact (pure_eq_ok _ _).trans (by simp [Draft.giveNames])
    | cons r rs => simp [bindNames,bind_eq_ok,bindName_eq_ok,ih,Draft.giveNames]

theorem handOver_eq_ok (r : Register) (a : Unit) : handOver r d = .ok (a, d') ↔ d' = d.handOver r :=
  modify_eq_ok _ _

theorem freeUnder_eq_ok (f : Frame) (c : Condition) (r : Register) (a : Unit) :
    freeUnder f c r d = .ok (a, d') ↔ d' = d.free f c r := by
  show Except.ok (PUnit.unit, d.free f c r) = .ok (a, d') ↔ _
  simp [eq_comm]

theorem freeAllUnder_eq_ok (f : Frame) (rs : List (Register × Condition)) (a : Unit) :
    freeAllUnder f rs d = .ok (a, d') ↔ d' = d.freeAll f rs := by
  induction rs generalizing d d' with
  | nil => exact (pure_eq_ok _ _).trans (by simp [Draft.freeAll])
  | cons p rs ih => simp [freeAllUnder,bind_eq_ok,freeUnder_eq_ok,ih,Draft.freeAll]

theorem sweep_eq_ok (f : Frame) (a : Unit) : sweep f d = .ok (a, d') ↔
      d' = d.freeAll f ((d.registers.unreachable (d.scope.reachable d.registers)).map fun r =>
        (r, d.current)) := by
  simp only [sweep,bind_eq_ok,get_eq_ok,freeAllUnder_eq_ok]
  constructor
  · rintro ⟨_,_,⟨rfl,rfl⟩,h⟩
    exact h
  · exact fun h => ⟨d, d, ⟨rfl, rfl⟩, h⟩

theorem single_eq_ok (place : ValueUse) (span : Span) (m : Lower (List Register)) (r : Register) :
    single place span m d = .ok (r, d') ↔ m d = .ok ([r], d') := by
  simp only [single,bind_eq_ok]
  constructor
  · rintro ⟨_,e,hm,h⟩
    split at h
    · obtain ⟨rfl,rfl⟩ := (pure_eq_ok _ _).1 h
      exact hm
    · exact ((refuse_eq_ok _ _ _).1 h).elim
  · exact fun h => ⟨[r], d', h, (pure_eq_ok _ _).2 ⟨rfl, rfl⟩⟩

theorem checkReturns_eq_ok {position : Nat} {ks : List Kind}
    (h : checkReturns span position rs ks d = .ok (a, d')) :
    d' = d ∧ ∀ p ∈ rs.zip ks, (d.registers.kind p.1).convert p.2 = .ok () := by
  induction rs generalizing position ks with
  | nil => exact ⟨((pure_eq_ok _ _).1 h).2, by simp⟩
  | cons r rs ih =>
    cases ks with
    | nil => exact ⟨((pure_eq_ok _ _).1 h).2, by simp⟩
    | cons k ks =>
      simp only [checkReturns,bind_eq_ok,kindOf_eq_ok,ensure_eq_ok] at h
      obtain ⟨_,_,⟨rfl,rfl⟩,_,_,⟨hconv,rfl⟩,h⟩ := h
      obtain ⟨rfl,hrest⟩ := ih h
      exact ⟨rfl, by simpa using ⟨hconv, fun r k => hrest (r, k)⟩⟩

theorem checkReturnedOnce_eq_ok {seen : List Register}
    (h : checkReturnedOnce span seen rs d = .ok (a, d')) : d' = d := by
  induction rs generalizing seen with
  | nil => exact ((pure_eq_ok _ _).1 h).2
  | cons r rs ih =>
    simp only [checkReturnedOnce,bind_eq_ok,get_eq_ok] at h
    obtain ⟨_,_,⟨rfl,rfl⟩,h⟩ := h
    split at h
    · rw [unless_eq_ok] at h
      exact ih h.2
    · exact ih h

/-- The values that an exit hands on. -/
def exitValues (f : Frame) : Option Expr → Lower (List Register)
  | some e => e.lower f
  | none => pure []

theorem lowerExit_eq_ok {f : Frame} {value : Option Expr} {flow : Flow}
    (h : lowerExit f span value d = .ok (flow, d')) :
    ∃ rs e garbage, flow = .returns ∧ f.inLoop = false ∧ exitValues f value d = .ok (rs, e) ∧
      rs.length = f.returnKinds.length ∧
      (∀ p ∈ rs.zip f.returnKinds, (e.registers.kind p.1).convert p.2 = .ok ()) ∧
      garbage = e.registers.unreachable (orderedSet (rs.map e.registers.resolve)) ∧
      d' = (e.disownAll (garbage ++ orderedSet (rs.map e.registers.resolve))).emit
        (e.disownAll (garbage ++ orderedSet (rs.map e.registers.resolve))).current
          (.ret rs garbage) := by
  have hvalues : lowerExit f span value = do
      if f.inLoop then
        refuse .returnInLoop span
      let values ← exitValues f value
      if values.length ≠ f.returnKinds.length then
        refuse (.returnCount f.name f.returnKinds.length values.length) span
      checkReturns span 1 values f.returnKinds
      checkReturnedOnce span [] values
      let garbage ← collectAtExit values
      push (.ret values garbage)
      return .returns := by
    cases value <;> rfl
  simp only [hvalues,bind_eq_ok,pure_eq_ok,unless_eq_ok,collectAtExit_eq_ok,push_eq_ok] at h
  obtain ⟨hloop,rs,e,hlower,hlen,_,_,hreturns,_,_,honce,garbage,_,⟨hgarbage,rfl⟩,_,_,rfl,rfl,
    rfl⟩ := h
  obtain ⟨rfl,hkinds⟩ := checkReturns_eq_ok hreturns
  obtain rfl := checkReturnedOnce_eq_ok honce
  exact ⟨rs, _, garbage, rfl, by simpa using hloop, hlower, not_not.1 hlen, hkinds, hgarbage, rfl⟩

end Lower

end Polled
