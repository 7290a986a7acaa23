import Polled.Proofs.Resources

/-!
Activations step by step, as far as guards can tell.

`Routine.Move` lets any operation whose guard holds fire, and lets a call come back at any later moment.
`Routine.Polling` is the same under a schedule: every poll fires, in order, all operations whose guards
hold when they are come to.
-/

namespace Polled

variable {op : Op}

namespace Op

def startsChild : Op → Bool
  | .callAsync _ _ _ _ _ => true
  | _ => false

/-- The flags that an operation sets. A branch sets one of its two. -/
def raises (goes : Bool) : Op → List Condition
  | .branch _ ifTrue ifFalse => [if goes then ifTrue else ifFalse]
  | op => op.completionFlags

theorem raises_subset (goes : Bool) (op : Op) : op.raises goes ⊆ op.completionFlags := by
  cases op <;> cases goes <;> simp [raises,completionFlags]

theorem silent_of_exit (h : op.endsActivation = true) : op.provides = [] ∧ op.completionFlags = [] := by
  cases op <;> simp_all [endsActivation,provides,completionFlags]

theorem raises_ne_nil (goes : Bool) (h : op.completionFlags ≠ []) : op.raises goes ≠ [] := by
  cases op <;> simp_all [raises,completionFlags]

end Op

/-- How far an activation has come. The calls that are under way are known by the positions of their
operations. -/
structure Stage where
  ready : List Register
  flags : List Condition
  children : List Nat
  deriving DecidableEq, Repr

/-- Which way the branch at a position goes. -/
abbrev Outcomes := Nat → Bool

variable {s s' : Stage}

namespace Routine

variable (r : Routine) (o : Outcomes)

def opening (known : List Register) : Stage := ⟨known.map r.slot, [.entry], []⟩

def complete (s : Stage) (i : Nat) (op : Op) : Stage :=
  { s with ready := op.provides.map r.slot ++ s.ready, flags := op.raises (o i) ++ s.flags }

/-- The operation at position `i` has fired. A call in a child is only under way then. -/
def launch (s : Stage) (i : Nat) (op : Op) : Stage :=
  if op.startsChild then { s with children := s.children.insert i } else r.complete o s i op

def deliver (s : Stage) (i : Nat) (op : Op) : Stage :=
  r.complete o { s with children := s.children.filter (· != i) } i op

def Enabled (s : Stage) (i : Nat) (g : GuardedOp) : Prop :=
  r.ops[i]? = some g ∧ (r.guard g).holds s.ready s.flags = true

/-- What happens next, by the position of the operation. -/
inductive Turn where
  | fire (position : Nat)
  | back (position : Nat)
  deriving DecidableEq, Repr

/-- An exit has no stage behind it. -/
def turn (s : Stage) : Turn → Option Stage
  | .fire i =>
    match r.ops[i]? with
    | some g =>
      if (r.guard g).holds s.ready s.flags && !g.op.endsActivation then some
        (r.launch o s i g.op) else none
    | none => none
  | .back i =>
    match r.ops[i]? with
    | some g => if s.children.contains i then some (r.deliver o s i g.op) else none
    | none => none

def Move (s s' : Stage) : Prop := ∃ t, r.turn o s t = some s'

variable {r o}

theorem turn_eq_some {t : Turn} : r.turn o s t = some s' ↔
      (∃ i g, t = .fire i ∧ r.Enabled s i g ∧ g.op.endsActivation = false ∧ s' = r.launch o s i g.op) ∨
        ∃ i g, t = .back i ∧ i ∈ s.children ∧ r.ops[i]? = some g ∧ s' = r.deliver o s i g.op := by
  constructor
  · intro h
    cases t with
    | fire i =>
      cases hg : r.ops[i]? with
      | none => simp [turn,hg] at h
      | some g =>
        simp only [turn,hg,Option.ite_none_right_eq_some,Bool.and_eq_true,Bool.not_eq_true',
          Option.some.injEq] at h
        exact .inl ⟨i, g, rfl, ⟨hg, h.1.1⟩, h.1.2, h.2.symm⟩
    | back i =>
      cases hg : r.ops[i]? with
      | none => simp [turn,hg] at h
      | some g =>
        simp only [turn,hg,Option.ite_none_right_eq_some,List.contains_iff_mem,Option.some.injEq] at h
        exact .inr ⟨i, g, rfl, h.1, hg, h.2.symm⟩
  · rintro (⟨i,g,rfl,⟨hg,hholds⟩,hgoes,rfl⟩ | ⟨i,g,rfl,hi,hg,rfl⟩)
    · simp [turn,hg,hholds,hgoes]
    · simp [turn,hg,hi]

theorem move_iff :
    r.Move o s s' ↔ (∃ i g, r.Enabled s i g ∧ g.op.endsActivation = false ∧ s' = r.launch o s i g.op) ∨
        ∃ i g, i ∈ s.children ∧ r.ops[i]? = some g ∧ s' = r.deliver o s i g.op := by
  constructor
  · rintro ⟨t,h⟩
    rcases turn_eq_some.1 h with ⟨i,g,-,hfire⟩ | ⟨i,g,-,hback⟩
    · exact .inl ⟨i, g, hfire⟩
    · exact .inr ⟨i, g, hback⟩
  · rintro (⟨i,g,hfire⟩ | ⟨i,g,hback⟩)
    · exact ⟨.fire i, turn_eq_some.2 (.inl ⟨i, g, rfl, hfire⟩)⟩
    · exact ⟨.back i, turn_eq_some.2 (.inr ⟨i, g, rfl, hback⟩)⟩

variable (r o)

/-- The stages of an activation that starts with some of its parameters. -/
def Reaches (s : Stage) : Prop :=
  ∃ known, (∀ k ∈ known, k < r.paramCount) ∧ Relation.ReflTransGen (r.Move o) (r.opening known) s

def EndsAt (i : Nat) : Prop := ∃ s g, r.Reaches o s ∧ r.Enabled s i g ∧ g.op.endsActivation = true

variable {r o}

theorem Reaches.move (hs : r.Reaches o s) (h : r.Move o s s') : r.Reaches o s' := by
  obtain ⟨known,hknown,hmoves⟩ := hs
  exact ⟨known, hknown, hmoves.tail h⟩

theorem reaches_of_turns (known : List Register) (turns : List Turn)
    (hknown : ∀ k ∈ known, k < r.paramCount) (h : turns.foldlM (r.turn o) (r.opening known) = some s) :
    r.Reaches o s := by
  refine ⟨known, hknown, ?_⟩
  generalize r.opening known = s₀ at h
  induction turns generalizing s₀ with
  | nil =>
    cases h
    exact .refl
  | cons t turns ih =>
    rw [List.foldlM_cons,Option.bind_eq_bind,Option.bind_eq_some_iff] at h
    obtain ⟨s₁,hs₁,h⟩ := h
    exact .head ⟨t, hs₁⟩ (ih s₁ h)

end Routine

/-- What operations wait for: a slot that is ready, or a condition that is set. -/
inductive Fact where
  | ready (slot : Register)
  | raised (c : Condition)
  deriving DecidableEq, Repr

def Stage.Has (s : Stage) : Fact → Prop
  | .ready x => x ∈ s.ready
  | .raised c => c ∈ s.flags

namespace Routine

variable (r : Routine) (o : Outcomes)

def waits (g : GuardedOp) : List Fact := .raised g.condition :: g.op.needs.map fun x => .ready (r.slot x)

def yields (i : Nat) (op : Op) : List Fact :=
  (op.provides.map fun x => .ready (r.slot x)) ++ (op.raises (o i)).map .raised

def Initial (q : Fact) : Prop := (∃ k < r.paramCount, q = .ready (r.slot k)) ∨ q = .raised .entry

/-- The condition is set in some run. -/
def Raised (c : Condition) : Prop := ∃ s, r.Reaches o s ∧ c ∈ s.flags

/-- All that is there was there at the start, or is due to an operation that is open in some run and not
one of `stop`. -/
def Sourced (stop : Nat → Prop) (s : Stage) : Prop :=
  ∀ q, s.Has q → r.Initial q ∨ ∃ (k : Nat) (g : GuardedOp), r.ops[k]? = some g ∧ ¬stop k ∧
    r.Raised o g.condition ∧
    q ∈ r.yields o k g.op ∧ ∀ q ∈ r.yields o k g.op, s.Has q

variable {r o} {i k : Nat} {g : GuardedOp} {q : Fact} {stop : Nat → Prop}

theorem ready_mem_yields {x : Register} :
    .ready x ∈ r.yields o i g.op ↔ x ∈ g.op.provides.map r.slot := by
  simp [yields]

theorem raised_mem_yields {c : Condition} : .raised c ∈ r.yields o i g.op ↔ c ∈ g.op.raises (o i) := by
  simp [yields]

theorem has_complete : (r.complete o s i g.op).Has q ↔ q ∈ r.yields o i g.op ∨ s.Has q := by
  cases q <;> simp [Stage.Has,complete,yields]

theorem has_opening (known : List Register) : (r.opening known).Has q ↔
    (∃ k ∈ known, q = .ready (r.slot k)) ∨ q = .raised .entry := by
  cases q <;> simp [Stage.Has,opening,eq_comm]

theorem enabled_iff : r.Enabled s i g ↔ r.ops[i]? = some g ∧ (∀ w ∈ r.waits g, s.Has w) ∧
    (∀ x ∈ g.op.provides.map r.slot, x ∉ s.ready) ∧ ∀ c ∈ g.op.completionFlags, c ∉ s.flags := by
  simp [Enabled,Guard.holds,guard,waits,Stage.Has,and_assoc]

theorem enabled_of_exit (hg : r.ops[i]? = some g) (hexit : g.op.endsActivation = true)
    (hwaits : ∀ w ∈ r.waits g, s.Has w) : r.Enabled s i g := by
  obtain ⟨hprovides,hflags⟩ := Op.silent_of_exit hexit
  exact enabled_iff.2 ⟨hg, hwaits, by simp [hprovides], by simp [hflags]⟩

theorem Enabled.condition (h : r.Enabled s i g) : g.condition ∈ s.flags :=
  (enabled_iff.1 h).2.1 _ List.mem_cons_self

theorem sourced_opening (known : List Register) (hknown : ∀ k ∈ known, k < r.paramCount) :
    r.Sourced o stop (r.opening known) := fun _ hq =>
  .inl (((has_opening known).1 hq).imp_left fun ⟨k, hk, heq⟩ => ⟨k, hknown k hk, heq⟩)

theorem Sourced.complete (h : r.Sourced o stop s) (hg : r.ops[k]? = some g) (hk : ¬stop k)
    (hopen : r.Raised o g.condition) :
    r.Sourced o stop (r.complete o s k g.op) := by
  intro q hq
  rcases has_complete.1 hq with hq | hq
  · exact .inr ⟨k, g, hg, hk, hopen, hq, fun q hq => has_complete.2 (.inl hq)⟩
  · refine (h q hq).imp_right fun ⟨k', g', hg', hk', hopen', hq', hall⟩ => ?_
    exact ⟨k', g', hg', hk', hopen', hq', fun q hq => has_complete.2 (.inr (hall q hq))⟩

variable (r o)

/-- Where the facts and the calls of a stage come from. -/
structure Accounted (s : Stage) : Prop where
  facts : r.Sourced o (fun _ => False) s
  children : ∀ i ∈ s.children, ∃ g, r.ops[i]? = some g ∧ g.op.startsChild = true ∧ r.Raised o g.condition

variable {r o}

theorem Accounted.move (h : r.Accounted o s) (hs : r.Reaches o s) (hmove : r.Move o s s') :
    r.Accounted o s' := by
  rcases move_iff.1 hmove with ⟨i,g,henabled,-,rfl⟩ | ⟨i,g,hi,hg,rfl⟩
  · have hopen : r.Raised o g.condition := ⟨s, hs, henabled.condition⟩
    unfold launch
    split
    · rename_i hchild
      refine ⟨h.facts, fun k hk => ?_⟩
      rcases List.mem_insert_iff.1 hk with rfl | hk
      · exact ⟨g, henabled.1, hchild, hopen⟩
      · exact h.children k hk
    · exact ⟨h.facts.complete henabled.1 id hopen, h.children⟩
  · obtain ⟨g',hg',-,hopen⟩ := h.children i hi
    obtain rfl : g = g' := Option.some.inj (hg.symm.trans hg')
    have hfacts : r.Sourced o (fun _ => False) { s with children := s.children.filter (· != i) } :=
      h.facts
    exact ⟨hfacts.complete hg id hopen, fun k hk => h.children k (List.mem_of_mem_filter hk)⟩

theorem Reaches.accounted (h : r.Reaches o s) : r.Accounted o s := by
  obtain ⟨known,hknown,hmoves⟩ := h
  induction hmoves with
  | refl => exact ⟨sourced_opening known hknown, fun i hi => absurd hi List.not_mem_nil⟩
  | tail hmoves hmove ih => exact ih.move ⟨known, hknown, hmoves⟩ hmove

end Routine

/-- An operation that fired, by its position, and the calls that were under way at that moment. -/
structure Firing where
  position : Nat
  children : List Nat
  deriving DecidableEq, Repr

namespace Routine

variable (r : Routine) (o : Outcomes)

/-- One pass over operations, with what fired in it. There is no stage behind an exit. -/
def pass : List (GuardedOp × Nat) → Stage → List Firing × Option Stage
  | [], s => ([], some s)
  | (g, i) :: rest, s =>
    if (r.guard g).holds s.ready s.flags then
      if g.op.endsActivation then ([⟨i, s.children⟩], none)
      else
        let (fired, s') := pass rest (r.launch o s i g.op)
        (⟨i, s.children⟩ :: fired, s')
    else pass rest s

/-- What fires from a stage on, in polls between which calls come back. -/
inductive Polling : Stage → List Firing → Prop
  | stop (s : Stage) : Polling s []
  | poll {s s' : Stage} {fired later : List Firing} (h : r.pass o r.ops.zipIdx s = (fired, some s'))
      (hlater : Polling s' later) : Polling s (fired ++ later)
  | exit {s : Stage} {fired : List Firing} (h : r.pass o r.ops.zipIdx s = (fired, none)) :
      Polling s fired
  | back {s : Stage} {i : Nat} {g : GuardedOp} {later : List Firing} (hi : i ∈ s.children)
      (hg : r.ops[i]? = some g) (hlater : Polling (r.deliver o s i g.op) later) : Polling s later

end Routine

end Polled
