import Mathlib.Logic.Relation
import Polled.Proofs.Starting

/-!
Activation records in memory.

A record points to its children, and a child to the done flag and the slots of its parent that it writes
when it returns. `World.Move` is all that can happen to memory and to the polls under way. What slots
hold is left open, so that a branch goes either way.
-/

namespace Polled

open Function

namespace CSource

/-- Where a record is. No address is used twice. -/
abbrev Address := Nat

/-- A poll function and the record to call it with. -/
structure Wake where
  routine : String
  record : Address
  deriving DecidableEq, Repr

/-- What ties a record to others. -/
structure Ties where
  routine : String
  call : ChildSlot → Option Address
  done : ChildSlot → Bool
  /-- Whom it wakes when it returns. -/
  caller : Option Wake
  /-- The done flag that it sets when it returns. -/
  finished : Option (Address × ChildSlot)

namespace Ties

def setCall (t : Ties) (k : ChildSlot) (c : Option Address) : Ties :=
  { t with call := update t.call k c }

def setDone (t : Ties) (k : ChildSlot) (b : Bool) : Ties := { t with done := update t.done k b }

def reportTo (t : Ties) (target : Option (Address × ChildSlot)) : Ties := { t with finished := target }

section

variable (t : Ties) (k j : ChildSlot) (c : Option Address) (b : Bool)
  (target : Option (Address × ChildSlot))

@[simp] theorem call_setCall : (t.setCall k c).call j = if j = k then c else t.call j := by
  simp [setCall,update_apply]

@[simp] theorem done_setDone : (t.setDone k b).done j = if j = k then b else t.done j := by
  simp [setDone,update_apply]

@[simp] theorem call_setDone : (t.setDone k b).call = t.call := rfl

end

end Ties

structure Activation where
  ties : Ties
  flag : Condition → Bool
  ready : Register → Bool
  /-- The slots that its results go to. -/
  result : Nat → Option (Address × Register)

namespace Activation

def fresh (routine : String) (caller : Option Wake) : Activation where
  ties := ⟨routine, fun _ => none, fun _ => false, caller, none⟩
  flag c := decide (c = .entry)
  ready _ := false
  result _ := none

def retie (f : Ties → Ties) (r : Activation) : Activation := { r with ties := f r.ties }

/-- What tests can see of the record. -/
def fields (r : Activation) : Fields := ⟨r.flag, r.ready, fun k => (r.ties.call k).isSome, r.ties.done⟩

end Activation

/-- What has become of a record. -/
inductive Cell (α : Type) where
  | standing (record : α)
  | returned
  /-- It was a round of a loop, and the next round has a record of its own. -/
  | replaced (next : Address)

namespace Cell

variable {α β : Type}

def record? : Cell α → Option α
  | .standing r => some r
  | _ => none

def map (f : α → β) : Cell α → Cell β
  | .standing r => .standing (f r)
  | .returned => .returned
  | .replaced next => .replaced next

/-- A record that stands goes; what is gone stays as it is. -/
def remove (next : Option Address) : Cell α → Cell α
  | .standing _ => next.elim .returned .replaced
  | c => c

end Cell

structure Memory where
  cells : List (Cell Activation)
  /-- What has been scheduled. -/
  queue : List Wake

namespace Memory

def record? (m : Memory) (a : Address) : Option Activation := m.cells[a]?.bind Cell.record?

def add (m : Memory) (r : Activation) : Memory := { m with cells := m.cells ++ [.standing r] }

/-- Writes through a pointer. Nothing comes of a write into a record that is gone. -/
def write (m : Memory) (target : Option Address) (f : Activation → Activation) : Memory :=
  match target with
  | some a => { m with cells := m.cells.modify a (Cell.map f) }
  | none => m

def remove (m : Memory) (a : Address) (next : Option Address) : Memory :=
  { m with cells := m.cells.modify a (Cell.remove next) }

def schedule (m : Memory) (w : Option Wake) : Memory := { m with queue := m.queue ++ w.toList }

def ready (m : Memory) (a : Address) (slot : Register) : Bool := (m.record? a).any (·.ready slot)

def passes (m : Memory) (a : Address) (tests : List Test) : Bool :=
  (m.record? a).any fun r => tests.all (Test.holds r.fields)

/-- A record that returns says so in the done flag that it was given. -/
def report (m : Memory) (a : Address) : Memory :=
  match (m.record? a).bind (·.ties.finished) with
  | some (parent, k) => m.write (some parent) (.retie (·.setDone k true))
  | none => m

def caller (m : Memory) (a : Address) : Option Wake := (m.record? a).bind (·.ties.caller)

def depart (m : Memory) (a : Address) : Memory :=
  ((m.report a).schedule ((m.report a).caller a)).remove a none

end Memory

/-- The memory as one block of a poll sees it. The names of a child or of a next round last as long as
the block. -/
structure Scene where
  memory : Memory
  child : Option Address
  next : Option Address
  progress : Bool

namespace Scene

/-- The record that an action means, in a poll of the record at `sp`. -/
def locate (s : Scene) (sp : Address) : Record → Option Address
  | .self => some sp
  | .child => s.child
  | .next => s.next
  | .call k => (s.memory.record? sp).bind (·.ties.call k)

def write (s : Scene) (target : Option Address) (f : Activation → Activation) : Scene :=
  { s with memory := s.memory.write target f }

/-- Puts a new record where its pointer is kept. -/
def create (s : Scene) (sp : Address) (record : Record) (r : Activation) : Scene :=
  let made : Scene := { s with memory := s.memory.add r }
  let a := s.memory.cells.length
  match record with
  | .self => made
  | .child => { made with child := some a }
  | .next => { made with next := some a }
  | .call k => made.write (some sp) (.retie (·.setCall k (some a)))

def wakes (s : Scene) (sp : Address) : Waker → Option Wake
  | .none => none
  | .self routine => some ⟨routine, sp⟩
  | .caller => s.memory.caller sp

end Scene

/-- What an action does in a poll of the record at `sp`. Values are left out. -/
def Action.perform (truth : Register → Bool) (sp : Address) (s : Scene) : Action → Scene
  | .copy record index slot | .pass .ready record index slot =>
    s.write (s.locate sp record) fun r =>
      { r with ready := update r.ready index (s.memory.ready sp slot) }
  | .markReady slot => s.write (some sp) fun r => { r with ready := update r.ready slot true }
  | .raise c => s.write (some sp) fun r => { r with flag := update r.flag c true }
  | .follow c test outcome =>
    s.write (some sp) fun r => { r with flag := update r.flag c (truth test == outcome) }
  | .create record routine waker => s.create sp record (.fresh routine (s.wakes sp waker))
  | .link record index slot =>
    s.write (s.locate sp record) fun r => { r with result := update r.result index (some (sp, slot)) }
  | .linkDone k => s.write (s.locate sp (.call k)) (.retie (·.reportTo (some (sp, k))))
  | .schedule record routine =>
    { s with memory := s.memory.schedule ((s.locate sp record).map (Wake.mk routine)) }
  | .forget k => s.write (some sp) (.retie (·.setCall k none))
  | .clearDone k => s.write (some sp) (.retie (·.setDone k false))
  | .progress => { s with progress := true }
  | .inheritDone => s.write s.next (.retie (·.reportTo ((s.memory.record? sp).bind (·.ties.finished))))
  | .inheritResult index =>
    s.write s.next fun r =>
      { r with result := update r.result index ((s.memory.record? sp).bind (·.result index)) }
  | .giveResult index slot =>
    match (s.memory.record? sp).bind (·.result index) with
    | some (a, x) =>
      s.write (some a) fun r => { r with ready := update r.ready x (s.memory.ready sp slot) }
    | none => s
  | .reportDone => { s with memory := s.memory.report sp }
  | .wakeCaller => { s with memory := s.memory.schedule (s.memory.caller sp) }
  | .dispose => { s with memory := s.memory.remove sp s.next }
  | _ => s

def Step.perform (truth : Register → Bool) (sp : Address) (s : Scene) : Step → Scene
  | .act a => a.perform truth sp s
  | .when tests actions =>
    if s.memory.passes sp tests then actions.foldl (Action.perform truth sp) s else s

/-- The step hands over to another poll, or back to the one that called this one. -/
def Step.yields : Step → Bool
  | .act (.poll _ _) | .act .leave => true
  | _ => false

/-- A poll that is under way. -/
structure Poll where
  routine : Routine
  record : Address
  child : Option Address
  next : Option Address
  progress : Bool
  /-- What is left of the block that runs. -/
  rest : List Step
  /-- The blocks behind it. -/
  later : List Block

namespace Poll

def start (p : Program) (r : Routine) (a : Address) : Poll where
  routine := r
  record := a
  child := none
  next := none
  progress := false
  rest := []
  later := r.ops.map (r.block p)

def scene (q : Poll) (m : Memory) : Scene := ⟨m, q.child, q.next, q.progress⟩

/-- Steps up to one that yields are taken without anyone else coming in between. -/
def proceed (truth : Register → Bool) (m : Memory) (q : Poll) : Scene :=
  (q.rest.takeWhile (!·.yields)).foldl (Step.perform truth q.record) (q.scene m)

def onward (q : Poll) (s : Scene) : Poll :=
  { q with
    child := s.child
    next := s.next
    progress := s.progress
    rest := q.rest.dropWhile (!·.yields) }

end Poll

/-- The memory and the polls that are under way, each of them called by the one behind it. -/
structure World where
  memory : Memory
  polls : List Poll

/-- A routine that is written elsewhere returns: its results are there. -/
def Memory.answer (m : Memory) (w : Wake) (results : Nat) : Memory :=
  let give (m : Memory) (j : Nat) : Memory :=
    match (m.record? w.record).bind (·.result j) with
    | some (a, x) => m.write (some a) fun r => { r with ready := update r.ready x true }
    | none => m
  ((List.range results).foldl give m).depart w.record

/-- What the environment decides. -/
inductive Happening where
  /-- The scheduler polls a record that is still there. -/
  | wake (w : Wake)
  /-- A routine that is written elsewhere returns. -/
  | answer (w : Wake)
  /-- The poll that is under way goes on, with this in its slots. -/
  | go (truth : Register → Bool)

namespace World

/-- The innermost poll goes on: the block that it is in, the next block, the next pass. -/
def go (p : Program) (truth : Register → Bool) (m : Memory) (q : Poll) (qs : List Poll) : World :=
  match q.rest, q.later with
  | .act (.poll record routine) :: rest, _ =>
    match (q.scene m).locate q.record record, p.routine? routine with
    | some a, some r => ⟨m, .start p r a :: { q with rest } :: qs⟩
    | _, _ => ⟨m, { q with rest } :: qs⟩
  | .act .leave :: _, _ => ⟨m, qs⟩
  | _ :: _, _ => ⟨(q.proceed truth m).memory, q.onward (q.proceed truth m) :: qs⟩
  | [], b :: later =>
    if m.passes q.record b.tests then
      ⟨m, { q with child := none, next := none, rest := b.steps, later } :: qs⟩
    else ⟨m, { q with later } :: qs⟩
  | [], [] =>
    if q.progress then ⟨m, .start p q.routine q.record :: qs⟩ else ⟨m, qs⟩

def step? (p : Program) (s : World) : Happening → Option World
  | .wake w =>
    match s.polls, p.routine? w.routine with
    | [], some r =>
      if w ∈ s.memory.queue ∧ (s.memory.record? w.record).isSome ∧ p.generates w.routine then
        some ⟨{ s.memory with queue := s.memory.queue.erase w }, [.start p r w.record]⟩
      else none
    | _, _ => none
  | .answer w =>
    match s.polls, p.routine? w.routine with
    | [], some r =>
      if w ∈ s.memory.queue ∧ (s.memory.record? w.record).isSome ∧ !p.generates w.routine then
        some ⟨s.memory.answer w r.returnKinds.length, []⟩
      else none
    | _, _ => none
  | .go truth =>
    match s.polls with
    | [] => none
    | q :: qs => some (go p truth s.memory q qs)

/-- The main routine has been scheduled, with those of its arguments that are ready. -/
def start (p : Program) (ready : Register → Bool) : World :=
  let arguments := (p.routine? mainRoutine).elim 0 Routine.paramCount
  let main := { Activation.fresh mainRoutine none with
      ready := fun x => decide (x < arguments) && ready x }
  ⟨⟨[.standing main], [⟨mainRoutine, 0⟩]⟩, []⟩

def Move (p : Program) (s s' : World) : Prop := ∃ c, s.step? p c = some s'

def Reaches (p : Program) (s : World) : Prop := ∃ ready, Relation.ReflTransGen (Move p) (start p ready) s

theorem reaches_of_happenings {p : Program} {s : World} (ready : Register → Bool)
    (happenings : List Happening) (h : happenings.foldlM (step? p) (start p ready) = some s) :
    Reaches p s := by
  refine ⟨ready, ?_⟩
  generalize start p ready = s₀ at h
  induction happenings generalizing s₀ with
  | nil =>
    cases h
    exact .refl
  | cons c happenings ih =>
    rw [List.foldlM_cons,Option.bind_eq_bind,Option.bind_eq_some_iff] at h
    obtain ⟨s₁,hs₁,h⟩ := h
    exact .head ⟨c, hs₁⟩ (ih s₁ h)

end World

end CSource

end Polled
