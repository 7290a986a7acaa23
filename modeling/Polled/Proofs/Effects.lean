import Polled.Proofs.Reading

/-!
What the text of a block does.

The head of a block holds just when the guard of its operation does, its lines reach only what the guard
names, and a block that runs to its end in one go makes its own guard false (`block_implements_guard`).
-/

namespace Polled

open List

variable {c : Condition} {r : Register} {guard : Guard}

namespace CSource

namespace Layout

mutual
def lines : Layout → List Line
  | .blank => []
  | .line l => [l]
  | .block first body last => first :: (linesAll body ++ [last])

def linesAll : List Layout → List Line
  | [] => []
  | x :: xs => x.lines ++ linesAll xs
end

theorem linesAll_eq_flatMap (xs : List Layout) : linesAll xs = xs.flatMap lines := by
  induction xs with
  | nil => rfl
  | cons x xs ih => rw [linesAll,ih,flatMap_cons]

theorem linesAll_line (ls : List Line) : linesAll (ls.map .line) = ls := by
  simp [linesAll_eq_flatMap,flatMap_map,lines]

end Layout

/-- Puts something into a set or takes it out. -/
def put (x : Nat) (v : Bool) (s : List Nat) : List Nat := if v then x :: s else s.filter (· ≠ x)

@[simp] theorem mem_put {x y : Nat} {v : Bool} {s : List Nat} :
    y ∈ put x v s ↔ if y = x then v = true else y ∈ s := by
  by_cases h : y = x <;> cases v <;> simp [put,h]

/-- What is known of a record while a block runs. -/
structure Board where
  /-- The slots that are ready. -/
  ready : List Register
  /-- The flags that are set. -/
  flags : List Condition
  /-- The slots that hold the truth. -/
  truths : List Register
  /-- The slots that pointers have been handed out to. -/
  lent : List Register
  deriving DecidableEq, Repr

def Board.fields (b : Board) : Fields :=
  ⟨b.flags.contains, b.ready.contains, fun _ => false, fun _ => false⟩

/-- The line as its text is read. -/
def Line.statement (l : Line) : Statement := .read l.write.toList

namespace Statement

/-- Slots that the statement writes, or lets others write. -/
def slots : Statement → List Register
  | .ready r | .copy r _ | .fill r | .spoil r => [r]
  | .lend rs => rs
  | _ => []

def flags : Statement → List Condition
  | .raise c | .follow c _ _ | .upset c => [c]
  | _ => []

/-- What a statement can do. What is called writes only where pointers lead that were handed out. -/
inductive Runs : Statement → Board → Board → Prop
  | ready {r : Register} {b : Board} : Runs (.ready r) b { b with ready := put r true b.ready }
  | copy {r s : Register} {b : Board} :
      Runs (.copy r s) b
        { b with
          ready := put r (b.ready.contains s) b.ready, truths := put r (b.truths.contains s) b.truths }
  | fill {r : Register} {b : Board} (v : Bool) : Runs (.fill r) b { b with truths := put r v b.truths }
  | spoil {r : Register} {b : Board} (v w : Bool) :
      Runs (.spoil r) b { b with ready := put r v b.ready, truths := put r w b.truths }
  | raise {c : Condition} {b : Board} : Runs (.raise c) b { b with flags := put c true b.flags }
  | follow {c : Condition} {test : Register} {outcome : Bool} {b : Board} :
      Runs (.follow c test outcome) b
        { b with flags := put c (b.truths.contains test == outcome) b.flags }
  | upset {c : Condition} {b : Board} (v : Bool) : Runs (.upset c) b { b with flags := put c v b.flags }
  | lend {rs : List Register} {b : Board} : Runs (.lend rs) b { b with lent := rs ++ b.lent }
  | call {b : Board} {ready truths : List Register} (hready : ∀ r, r ∉ b.lent →
      (r ∈ ready ↔ r ∈ b.ready))
      (htruths : ∀ r, r ∉ b.lent → (r ∈ truths ↔ r ∈ b.truths)) : Runs .call b { b with ready, truths }
  | other {b : Board} : Runs .other b b

inductive RunsAll : List Statement → Board → Board → Prop
  | nil {b : Board} : RunsAll [] b b
  | cons {s : Statement} {ss : List Statement} {b b' b'' : Board} (h : s.Runs b b')
      (hs : RunsAll ss b' b'') :
      RunsAll (s :: ss) b b''

theorem exists_runs (s : Statement) (b : Board) : ∃ b', s.Runs b b' := by
  cases s with
  | fill => exact ⟨_, .fill true⟩
  | spoil => exact ⟨_, .spoil true true⟩
  | upset => exact ⟨_, .upset true⟩
  | call => exact ⟨_, @Runs.call b b.ready b.truths (fun _ _ => .rfl) fun _ _ => .rfl⟩
  | ready => exact ⟨_, .ready⟩
  | copy => exact ⟨_, .copy⟩
  | raise => exact ⟨_, .raise⟩
  | follow => exact ⟨_, .follow⟩
  | lend => exact ⟨_, .lend⟩
  | other => exact ⟨_, .other⟩

theorem exists_runsAll (ss : List Statement) (b : Board) : ∃ b', RunsAll ss b b' := by
  induction ss generalizing b with
  | nil => exact ⟨b, .nil⟩
  | cons s ss ih =>
    obtain ⟨b₁,h₁⟩ := s.exists_runs b
    obtain ⟨b₂,h₂⟩ := ih b₁
    exact ⟨b₂, .cons h₁ h₂⟩

/-- The statement does not take back that the slot is ready. -/
def sparesReady (r : Register) : Statement → Bool
  | .copy s _ | .spoil s => r ≠ s
  | .call => false
  | _ => true

def sparesFlag (c : Condition) : Statement → Bool
  | .follow d _ _ | .upset d => c ≠ d
  | _ => true

variable {s : Statement} {ss before after : List Statement} {b b' : Board}

theorem Runs.ready_mem (h : s.Runs b b') (hs : s.sparesReady r = true) (hr : r ∈ b.ready) :
    r ∈ b'.ready := by
  cases h <;> simp_all [sparesReady]

theorem Runs.flag_mem (h : s.Runs b b') (hs : s.sparesFlag c = true) (hc : c ∈ b.flags) :
    c ∈ b'.flags := by
  cases h <;> simp_all [sparesFlag]

theorem RunsAll.ready_mem (h : RunsAll ss b b') (hs : ∀ s ∈ ss, s.sparesReady r = true)
    (hr : r ∈ b.ready) : r ∈ b'.ready := by
  induction h with
  | nil => exact hr
  | cons h _ ih =>
    exact ih (fun s hmem => hs s (mem_cons_of_mem _ hmem)) (h.ready_mem (hs _ mem_cons_self) hr)

theorem RunsAll.flag_mem (h : RunsAll ss b b') (hs : ∀ s ∈ ss, s.sparesFlag c = true)
    (hc : c ∈ b.flags) : c ∈ b'.flags := by
  induction h with
  | nil => exact hc
  | cons h _ ih =>
    exact ih (fun s hmem => hs s (mem_cons_of_mem _ hmem)) (h.flag_mem (hs _ mem_cons_self) hc)

theorem RunsAll.split (h : RunsAll (before ++ after) b b') :
    ∃ b₁, RunsAll before b b₁ ∧ RunsAll after b₁ b' := by
  induction before generalizing b with
  | nil => exact ⟨b, .nil, h⟩
  | cons s before ih =>
    cases h with
    | cons hs h =>
      obtain ⟨b₁,h₁,h₂⟩ := ih h
      exact ⟨b₁, .cons hs h₁, h₂⟩

theorem RunsAll.ready_of_marked (h : RunsAll (before ++ .ready r :: after) b b')
    (hs : ∀ s ∈ after, s.sparesReady r = true) : r ∈ b'.ready := by
  obtain ⟨_,-,h⟩ := h.split
  cases h with
  | cons hready h =>
    cases hready with
    | ready => exact h.ready_mem hs (by simp)

theorem RunsAll.flag_of_raised (h : RunsAll (before ++ .raise c :: after) b b')
    (hs : ∀ s ∈ after, s.sparesFlag c = true) :
    c ∈ b'.flags := by
  obtain ⟨_,-,h⟩ := h.split
  cases h with
  | cons hraise h =>
    cases hraise with
    | raise => exact h.flag_mem hs (by simp)

end Statement

end CSource

open CSource Statement

/-- The operation is over when its block has run once. -/
def Op.endsAtOnce (p : Program) : Op → Bool
  | .callAsync _ _ _ _ _ | .restartLoop _ _ | .ret _ _ => false
  | .callSync callee _ _ _ => !p.generates callee
  | .branch _ ifTrue ifFalse => ifTrue ≠ ifFalse
  | _ => true

variable {b : Board}

section

variable (p : Program) (f : Routine) (g : GuardedOp)

theorem plain_guardTests (guard : Guard) : ∀ t ∈ guardTests guard, t.plain = true := by
  simp only [guardTests,mem_append,mem_cons,mem_map]
  rintro t ((((rfl | ⟨r,-,rfl⟩) | ⟨r,-,rfl⟩)) | ⟨c,-,rfl⟩) <;> rfl

theorem guardTests_holds (guard : Guard) (b : Board) :
    (guardTests guard).all (Test.holds b.fields) = guard.holds b.ready b.flags := by
  have hcontains (s : List Nat) : s.contains = fun x => decide (x ∈ s) := by
    funext x
    simp
  simp [guardTests,Guard.holds,Test.holds,Board.fields,all_map,Function.comp_def,
    Bool.and_assoc,hcontains]

theorem mem_lines_of_steps {steps : List Step} {line : Line}
    (h : line ∈ Layout.linesAll (steps.map Step.layout)) :
    (∃ a ∈ steps.flatMap Step.actions, line = a.line) ∨ (∃ tests, line = testLine tests) ∨
      line = [Piece.text "\x7d"] := by
  rw [Layout.linesAll_eq_flatMap,flatMap_map,mem_flatMap] at h
  obtain ⟨step,hstep,hline⟩ := h
  cases step with
  | act a =>
    rw [Step.layout,Layout.lines,mem_singleton] at hline
    exact .inl ⟨a, mem_flatMap.2 ⟨_, hstep, by simp [Step.actions]⟩, hline⟩
  | when tests actions =>
    have hinner : Layout.linesAll (actions.map fun a => Layout.line a.line) =
        actions.map Action.line := by
      rw [← Layout.linesAll_line (actions.map Action.line),map_map]
      rfl
    rw [Step.layout,Layout.lines,hinner,mem_cons,mem_append,mem_map,mem_singleton] at hline
    rcases hline with rfl | ⟨a,ha,rfl⟩ | rfl
    · exact .inr (.inl ⟨tests, rfl⟩)
    · exact .inl ⟨a, mem_flatMap.2 ⟨_, hstep, ha⟩, rfl⟩
    · exact .inr (.inr rfl)

/-- The action writes only what the guard provides, and its flags. -/
def CSource.Action.Within (guard : Guard) (a : Action) : Prop :=
  a.statement.slots ⊆ guard.provides ∧ a.statement.flags ⊆ guard.unset

section

variable {args results : List Register} {callee : String} {done : Option Condition}

theorem within_of_idle {a : Action} (h : a.statement = .other ∨ a.statement = .call) :
    a.Within guard := by
  rcases h with h | h <;> simp [Action.Within,h,Statement.slots,Statement.flags]

theorem within_of_slots {a : Action} (hslots : a.statement.slots ⊆ guard.provides)
    (hflags : a.statement.flags = []) :
    a.Within guard :=
  ⟨hslots, by simp [hflags]⟩

theorem within_raise (h : c ∈ guard.unset) : (Action.raise c).Within guard :=
  ⟨by simp [Action.statement,Statement.slots], by simpa [Action.statement,Statement.flags] using h⟩

theorem within_link {record : Record} {j : Nat} (h : r ∈ guard.provides) :
    (Action.link record j r).Within guard :=
  within_of_slots (by simpa [Action.statement,Statement.slots] using h) rfl

theorem within_callInChild {k : ChildSlot} (hresults : results.map f.slot ⊆ guard.provides)
    (hdone : done.toList ⊆ guard.unset) :
    ∀ a ∈ (callInChild f callee args results k done).flatMap Step.actions, a.Within guard := by
  intro a ha
  simp only [callInChild,flatMap_append,flatMap_cons,flatMap_nil,flatMap_map,mem_append,
    mem_flatMap,Step.actions,mem_cons,not_mem_nil,or_false,mem_mapIdx,mem_flatten] at ha
  rcases ha with ⟨d,hd,rfl | rfl | rfl | rfl⟩ | (rfl | rfl | ⟨j,hj,rfl⟩) | ⟨l,⟨i,_,rfl⟩,hl⟩ | rfl
  · exact within_raise (hdone hd)
  · exact within_of_idle (.inl rfl)
  · exact within_of_idle (.inl rfl)
  · exact within_of_idle (.inl rfl)
  · exact within_of_idle (.inr rfl)
  · exact within_of_idle (.inl rfl)
  · exact within_link (hresults (mem_map_of_mem (getElem_mem hj)))
  · simp only [mem_cons,not_mem_nil,or_false] at hl
    rcases hl with rfl | rfl | rfl <;> exact within_of_idle (.inl rfl)
  · exact within_of_idle (.inr rfl)

theorem within_callInPlace (hresults : results.map f.slot ⊆ guard.provides) :
    ∀ a ∈ callInPlace p f callee args results, a.Within guard := by
  intro a ha
  rw [callInPlace] at ha
  split at ha
  · simp only [mem_cons,mem_append,mem_mapIdx,not_mem_nil,or_false] at ha
    rcases ha with ((rfl | ⟨i,_,rfl⟩) | ⟨j,hj,rfl⟩) | rfl
    · exact within_of_idle (.inr rfl)
    · exact within_of_idle (.inl rfl)
    · exact within_link (hresults (getElem_mem hj))
    · exact within_of_idle (.inr rfl)
  · simp only [mem_cons,mem_append,mem_map,not_mem_nil,or_false] at ha
    rcases ha with (rfl | rfl | rfl) | ⟨_,⟨x,hx,rfl⟩,rfl⟩
    · exact within_of_idle (.inl rfl)
    · exact within_of_slots hresults rfl
    · exact within_of_idle (.inr rfl)
    · exact within_of_slots
        (by simpa [Action.statement,Statement.slots] using hresults (mem_map_of_mem hx)) rfl

theorem within_garbage (garbage : List Register) : ∀ a ∈ garbageActions f garbage, a.Within guard := by
  intro a ha
  obtain ⟨x,-,rfl⟩ := mem_map.1 ha
  exact within_of_idle (.inr rfl)

end

theorem within_block : ∀ a ∈ (f.block p g).steps.flatMap Step.actions, a.Within (f.guard g) := by
  obtain ⟨c,op⟩ := g
  rw [Routine.block,flatMap_append,forall_mem_append]
  refine ⟨?_, ?_⟩
  · cases op with
    | callAsync => exact within_callInChild f (List.Subset.refl _) (List.Subset.refl _)
    | callSync callee args results done =>
      rw [opSteps,actions_act,forall_mem_append]
      refine ⟨within_callInPlace p f (List.Subset.refl _), ?_⟩
      intro a ha
      obtain ⟨d,hd,rfl⟩ := mem_map.1 ha
      exact within_raise hd
    | ret values garbage =>
      rw [opSteps,actions_act,forall_mem_append,forall_mem_append]
      refine ⟨⟨?_, within_garbage f garbage⟩, ?_⟩
      · intro a ha
        obtain ⟨j,_,rfl⟩ := mem_mapIdx.1 ha
        exact within_of_idle (.inl rfl)
      · simp [Action.Within,Action.statement,Statement.slots,Statement.flags]
    | restartLoop args garbage =>
      rw [opSteps,actions_act,forall_mem_append,forall_mem_append,forall_mem_append]
      refine ⟨⟨⟨?_, ?_⟩, within_garbage f garbage⟩, ?_⟩
      · simp [Action.Within,Action.statement,Statement.slots,Statement.flags]
      · intro a ha
        obtain ⟨i,_,rfl⟩ := mem_mapIdx.1 ha
        exact within_of_idle (.inl rfl)
      · simp [Action.Within,Action.statement,Statement.slots,Statement.flags]
    | makeTuple items result =>
      have hresult : (f.guard ⟨c, .makeTuple items result⟩).provides = [f.slot result] := rfl
      rw [opSteps,actions_act,forall_mem_append,forall_mem_cons,forall_mem_singleton]
      refine ⟨⟨within_of_slots ?_ rfl, ?_⟩, within_of_slots ?_ rfl⟩
      · rw [hresult]
        exact List.Subset.refl _
      · intro a ha
        obtain ⟨i,_,rfl⟩ := mem_mapIdx.1 ha
        exact within_of_idle (.inr rfl)
      · rw [hresult]
        exact List.Subset.refl _
    | unpackTuple tuple items =>
      intro a ha
      rw [opSteps,actions_act,mem_flatten] at ha
      obtain ⟨l,hl,ha⟩ := ha
      obtain ⟨i,hi,rfl⟩ := mem_mapIdx.1 hl
      have hslot : f.slot items[i] ∈ (f.guard ⟨c, .unpackTuple tuple items⟩).provides :=
        mem_map_of_mem (getElem_mem hi)
      simp only [mem_cons,not_mem_nil,or_false] at ha
      rcases ha with rfl | rfl <;>
        exact within_of_slots (by simpa [Action.statement,Statement.slots] using hslot) rfl
    | _ =>
      simp [opSteps,actions_act,Action.Within,Action.statement,Statement.slots,Statement.flags,
        Routine.guard, Op.provides,Op.completionFlags]
  · cases op <;>
      simp [progressSteps,Step.actions,Action.Within,Action.statement,Statement.slots,Statement.flags]

variable {p f g}

theorem holds_eq_false_of_ready (hr : r ∈ guard.provides) (h : r ∈ b.ready) :
    guard.holds b.ready b.flags = false := by
  rw [Bool.eq_false_iff,Ne,Guard.holds,Bool.and_eq_true,Bool.and_eq_true,Bool.and_eq_true]
  rintro ⟨⟨-,hprovides⟩,-⟩
  simpa [h] using all_eq_true.1 hprovides r hr

theorem holds_eq_false_of_flag (hc : c ∈ guard.unset) (h : c ∈ b.flags) :
    guard.holds b.ready b.flags = false := by
  rw [Bool.eq_false_iff,Ne,Guard.holds,Bool.and_eq_true]
  rintro ⟨-,hunset⟩
  simpa [h] using all_eq_true.1 hunset c hc

/-- The statements make the guard false where it held. -/
def CSource.Disarms (guard : Guard) (ss : List Statement) : Prop :=
  ∀ b b' : Board, guard.holds b.ready b.flags = true → RunsAll ss b b' →
    guard.holds b'.ready b'.flags = false

theorem disarms_of_ready {guard : Guard} {r : Register} {before after : List Statement}
    (hr : r ∈ guard.provides) (hafter : ∀ s ∈ after, s.sparesReady r = true) :
    Disarms guard (before ++ .ready r :: after) :=
  fun _ _ _ hrun => holds_eq_false_of_ready hr (hrun.ready_of_marked hafter)

theorem disarms_of_raise {guard : Guard} {c : Condition} {before after : List Statement}
    (hc : c ∈ guard.unset) (hafter : ∀ s ∈ after, s.sparesFlag c = true) :
    Disarms guard (before ++ .raise c :: after) :=
  fun _ _ _ hrun => holds_eq_false_of_flag hc (hrun.flag_of_raised hafter)

theorem disarms_of_store {datum : Datum} (hr : r ∈ guard.provides) :
    Disarms guard ([.store r datum, .markReady r, .progress].map Action.statement) :=
  @disarms_of_ready guard r [.fill r] [.other] hr (by simp [sparesReady])

theorem disarms_block (hop : g.op.endsAtOnce p = true) (hmarks : (f.guard g).provides ≠ [] ∨
    (f.guard g).unset ≠ []) :
    ∃ actions, (f.block p g).steps = act actions ∧
      Disarms (f.guard g) (actions.map Action.statement) := by
  obtain ⟨c,op⟩ := g
  cases op with
  | rename source dest =>
    refine ⟨[.copy .self (f.slot dest) (f.slot source), .progress], rfl, ?_⟩
    rintro b b' _ (_ | ⟨hcopy,hrest⟩)
    have hsource : f.slot source ∈ b.ready := by simp_all [Guard.holds,Routine.guard,Op.needs]
    cases hcopy
    refine holds_eq_false_of_ready (r := f.slot dest) (by simp [Routine.guard,Op.provides])
      (hrest.ready_mem ?_ ?_)
    · simp [Action.statement,sparesReady]
    · simp [hsource]
  | loadInteger | loadString | compare | checkUnionTag | extractUnionValue =>
    exact ⟨_, rfl, disarms_of_store (by simp [Routine.guard,Op.provides])⟩
  | free register done =>
    refine ⟨[.release _ _, .raise done, .progress], rfl, ?_⟩
    refine @disarms_of_raise _ done [_] [_] (by simp [Routine.guard,Op.completionFlags]) ?_
    simp [Action.statement,sparesFlag]
  | callSync callee args results done =>
    have hnative : p.generates callee = false := by simpa [Op.endsAtOnce] using hop
    refine ⟨[.argumentList (args.map f.slot), .resultList (results.map f.slot), .callNative callee] ++
      (results.map f.slot).map .markReady ++ done.toList.map .raise ++ [.progress], ?_, ?_⟩
    · simp [Routine.block,opSteps,callInPlace,hnative,progressSteps,act]
    · cases results with
      | cons r rs =>
        refine @disarms_of_ready _ (f.slot r) [_, _, _] _ (by simp [Routine.guard,Op.provides]) ?_
        simp [Action.statement,sparesReady,or_imp,forall_and]
      | nil =>
        obtain ⟨d,rfl⟩ : ∃ d, done = some d := by
          simpa [Routine.guard,Op.provides,Op.completionFlags,Option.ne_none_iff_exists'] using hmarks
        refine @disarms_of_raise _ d [_, _, _] [_] (by simp [Routine.guard,Op.completionFlags]) ?_
        simp [Action.statement,sparesFlag]
  | branch test ifTrue ifFalse =>
    have hne : ifTrue ≠ ifFalse := by simpa [Op.endsAtOnce] using hop
    refine ⟨[.follow ifTrue (f.slot test) true, .follow ifFalse (f.slot test) false, .progress], rfl, ?_⟩
    rintro b _ - (_ | ⟨hfirst,_ | ⟨hsecond,hrest⟩⟩)
    cases hfirst
    cases hsecond
    by_cases htruth : f.slot test ∈ b.truths
    · refine holds_eq_false_of_flag (c := ifTrue) (by simp [Routine.guard,Op.completionFlags])
        (hrest.flag_mem ?_ ?_)
      · simp [Action.statement,sparesFlag]
      · simp [htruth,hne]
    · refine holds_eq_false_of_flag (c := ifFalse) (by simp [Routine.guard,Op.completionFlags])
        (hrest.flag_mem ?_ ?_)
      · simp [Action.statement,sparesFlag]
      · simp [htruth]
  | makeTuple items result =>
    refine ⟨.store (f.slot result) (.tuple items.length) ::
      items.mapIdx (fun i r => .storeItem (f.slot result) i (f.slot r)) ++ [.markReady (f.slot result),
        .progress], ?_, ?_⟩
    · simp [Routine.block,opSteps,progressSteps,act]
    · rw [map_append]
      refine @disarms_of_ready _ (f.slot result) _ [_] (by simp [Routine.guard,Op.provides]) ?_
      simp [Action.statement,sparesReady]
  | unpackTuple tuple items =>
    cases items with
    | nil => simp [Routine.guard,Op.provides,Op.completionFlags] at hmarks
    | cons r rs =>
      refine ⟨((r :: rs).mapIdx fun i r =>
        [Action.store (f.slot r) (.item (f.slot tuple) i), .markReady (f.slot r)]).flatten ++
          [.progress], ?_, ?_⟩
      · simp [Routine.block,opSteps,progressSteps,act]
      · rw [mapIdx_cons,flatten_cons]
        let others := (rs.mapIdx fun i r =>
          [Action.store (f.slot r) (.item (f.slot tuple) (i + 1)), .markReady (f.slot r)]).flatten
        refine @disarms_of_ready _ (f.slot r) [_]
          ((others ++ [Action.progress]).map Action.statement) ?_ ?_
        · simp [Routine.guard,Op.provides]
        intro s hs
        simp only [others,mem_map,mem_append,mem_flatten,mem_mapIdx,mem_singleton] at hs
        obtain ⟨a,⟨l,⟨i,_,rfl⟩,ha⟩ | rfl,rfl⟩ := hs
        · simp only [mem_cons,not_mem_nil,or_false] at ha
          rcases ha with rfl | rfl <;> rfl
        · rfl
  | _ => cases hop

variable (p f g)

/-- The head of the block of an operation holds just where its guard does. What the lines of the block
write is what the guard provides and its flags. Where the operation is over when its block has run once,
and has something to show for it, the guard is false behind the block. -/
theorem block_implements_guard : ∃ (head : Line) (body : List Layout),
    (f.block p g).layout = [.line ["/* " ++ g.op.tag ++ " */"], .block head body ["\x7d"]] ∧
    (∃ tests, Test.readAll head.write.toList = some tests ∧
      ∀ b : Board, tests.all (Test.holds b.fields) = (f.guard g).holds b.ready b.flags) ∧
    (∀ line ∈ Layout.linesAll body,
      line.statement.slots ⊆ (f.guard g).provides ∧ line.statement.flags ⊆ (f.guard g).unset) ∧
    (g.op.endsAtOnce p = true → ((f.guard g).provides ≠ [] ∨ (f.guard g).unset ≠ []) →
      ∃ lines : List Line, body = lines.map .line ∧ ∀ b :
    Board, (f.guard g).holds b.ready b.flags = true → (∃ b', RunsAll (lines.map Line.statement) b b') ∧
        ∀ b', RunsAll (lines.map Line.statement) b b' →
          (f.guard g).holds b'.ready b'.flags = false) := by
  refine ⟨_, _, rfl, ⟨_, Test.readAll_testLine (by simp [Routine.block,guardTests]) ?_, ?_⟩, ?_, ?_⟩
  · exact plain_guardTests _
  · exact guardTests_holds _
  · intro line hline
    rcases mem_lines_of_steps hline with ⟨a,ha,rfl⟩ | ⟨tests,rfl⟩ | rfl
    · rw [Line.statement,Statement.read_line]
      exact within_block p f g a ha
    · have hcall : (testLine tests).statement = .call := by
        refine read_call "if (" (by decide) ?_ ?_ <;> simp [Line.toList_write,testLine,cons_prefix_cons]
      simp [hcall,Statement.slots,Statement.flags]
    · have hother : Line.statement [Piece.text "\x7d"] = .other :=
        read_other "\x7d" (by decide) (by decide) (by decide)
      simp [hother,Statement.slots,Statement.flags]
  · intro hop hmarks
    obtain ⟨actions,hsteps,hdisarms⟩ := disarms_block hop hmarks
    have hread : (actions.map Action.line).map Line.statement = actions.map Action.statement := by
      rw [map_map]
      exact map_congr_left fun a _ => Statement.read_line a
    refine ⟨actions.map Action.line, by rw [hsteps]; simp [act,Step.layout,Function.comp_def],
      fun b hb => ?_⟩
    rw [hread]
    exact ⟨exists_runsAll _ b, fun b' => hdisarms b b' hb⟩

end

/-- `ask` is called in place, and nothing else. -/
def asking : Routine where
  name := "main"
  isSync := false
  isNative := false
  paramCount := 1
  returnKinds := []
  registerKinds := [.owned .integer, .owned .boolean]
  slots := [0, 1]
  ops := [⟨.entry, .callSync "ask" [0] [1] none⟩]
  childCalls := []
  conditionCount := 1

theorem asking_block_implements_guard : ∃ (head : Line) (lines : List Line),
    (asking.block ⟨"main", [asking]⟩ ⟨.entry, .callSync "ask" [0] [1] none⟩).layout =
      [.line ["/* call_sync */"], .block head (lines.map .line) ["\x7d"]] ∧
    (asking.guard ⟨.entry, .callSync "ask" [0] [1] none⟩).holds [0] [.entry] = true ∧
    ∀ b', RunsAll (lines.map Line.statement) ⟨[0], [.entry], [], []⟩ b' →
      (asking.guard ⟨.entry, .callSync "ask" [0] [1] none⟩).holds b'.ready b'.flags = false := by
  obtain ⟨head,_,hlayout,-,-,hruns⟩ := block_implements_guard ⟨"main", [asking]⟩ asking
    ⟨.entry, .callSync "ask" [0] [1] none⟩
  obtain ⟨lines,rfl,hlines⟩ := hruns (by decide) (.inl (by decide))
  have hguard : (asking.guard ⟨.entry, .callSync "ask" [0] [1] none⟩).holds [0] [.entry] =
      true := by decide
  exact ⟨head, lines, hlayout, hguard, (hlines ⟨[0], [.entry], [], []⟩ hguard).2⟩

end Polled
