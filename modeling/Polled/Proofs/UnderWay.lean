import Polled.Proofs.Pointers
import Polled.Proofs.Roster

/-!
Calls that are under way.

A round of a loop goes without telling the record that called it, so a pointer to it is left behind; what
is called under a declared name stands until it is done.
-/

namespace Polled

open CSource Relation List

variable {r : Routine} {w : Wake}

namespace CSource

/-- The poll runs blocks of its routine on a record of it. -/
structure Poll.Sound (p : Program) (m : Memory) (q : Poll) : Prop where
  known : p.routine? q.routine.name = some q.routine
  named : Named m.ties ⟨q.routine.name, q.record⟩
  later : ∀ b ∈ q.later, ∃ g ∈ q.routine.ops, b = q.routine.block p g
  rest : (q.next = none ∧ ∃ g ∈ q.routine.ops, q.rest = (q.routine.block p g).steps) ∨
    ∀ step ∈ q.rest, (q.scene m).Closes q.record step

namespace Poll.Sound

variable {p : Program} {m m' : Memory} {q : Poll} {truth : Register → Bool}

theorem outlive (h : q.Sound p m) (hm : Outlives m.ties m'.ties) : q.Sound p m' where
  known := h.known
  named := h.named.outlive hm
  later := h.later
  rest := h.rest.imp_right fun hrest step hstep => (hrest step hstep).outlive rfl rfl hm

theorem start {a : Address} (hr : p.routine? r.name = some r) (hname : Named m.ties ⟨r.name, a⟩) :
    (Poll.start p r a).Sound p m where
  known := hr
  named := hname
  later b hb := by
    obtain ⟨g,hg,rfl⟩ := mem_map.1 hb
    exact ⟨g, hg, rfl⟩
  rest := .inr fun _ hstep => by cases hstep

variable (truth) in
theorem settles (h : q.Sound p m) (hp : p.Assigned) (hm : m.Held p) :
    (q.scene m).Settles p truth q.record q.rest := by
  rcases h.rest with ⟨hnext,g,hg,hrest⟩ | hrest
  · rw [hrest]
    exact settles_block hm hp h.known hg h.named hnext
  · exact Scene.settles_closes hm hrest

theorem onward (h : q.Sound p m) (hs : (q.scene m).Settles p truth q.record q.rest) :
    (q.onward (q.proceed truth m)).Sound p (q.proceed truth m).memory where
  known := h.known
  named := h.named.outlive hs.1.outlives
  later := h.later
  rest := .inr hs.2

theorem tail (h : q.Sound p m) (hp : p.Assigned) (hm : m.Held p) {step : Step} {rest : List Step}
    (hq : q.rest = step :: rest) (hyields : step.yields = true) :
    (q.scene m).Closes q.record step ∧ Poll.Sound p m { q with rest } := by
  have hclose := (h.settles (fun _ => true) hp hm).2
  rw [hq] at hclose
  simp only [takeWhile_cons,dropWhile_cons,hyields,Bool.not_true,Bool.false_eq_true,if_false,
    foldl_nil] at hclose
  exact ⟨hclose step mem_cons_self, h.known, h.named, h.later, .inr fun x hx => hclose x
    (mem_cons_of_mem _ hx)⟩

end Poll.Sound

structure World.Sound (p : Program) (s : World) : Prop where
  held : s.memory.Held p
  polls : ∀ q ∈ s.polls, q.Sound p s.memory

namespace World

variable {p : Program} {s s' : World} {m : Memory} {q : Poll} {qs : List Poll} {truth : Register → Bool}

theorem sound_go (hp : p.Assigned) (h : Sound p ⟨m, q :: qs⟩) : Sound p (go p truth m q qs) := by
  obtain ⟨hq,hqs⟩ := forall_mem_cons.1 h.polls
  unfold go
  split
  · rename_i record routine rest hrest
    obtain ⟨hclose,htail⟩ := hq.tail hp h.held hrest rfl
    split
    · rename_i a r ha hr
      refine ⟨h.held, forall_mem_cons.2 ⟨.start ?_ ?_, forall_mem_cons.2 ⟨htail, hqs⟩⟩⟩
      · have hname : r.name = routine := by simpa using find?_some hr
        rw [hname,hr]
      · rcases hclose with ⟨c,hc⟩ | hc | hc | ⟨_,name,_,heq,-,ha',hnamed⟩
        · cases hc
        · cases hc
        · cases hc
        · cases heq
          obtain rfl := Option.some.inj (ha.symm.trans ha')
          have hname : r.name = routine := by simpa using find?_some hr
          rw [hname]
          exact hnamed
    · exact ⟨h.held, forall_mem_cons.2 ⟨htail, hqs⟩⟩
  · exact ⟨h.held, hqs⟩
  · have hsettles := hq.settles truth hp h.held
    refine ⟨hsettles.1.held, forall_mem_cons.2 ⟨hq.onward hsettles, fun q' hq' => ?_⟩⟩
    exact (hqs q' hq').outlive hsettles.1.outlives
  · rename_i b later hrest hlater
    have hmore : ∀ b ∈ later, ∃ g ∈ q.routine.ops, b = q.routine.block p g := fun b' hb' =>
      hq.later b' (hlater ▸ mem_cons_of_mem _ hb')
    obtain ⟨g,hg,rfl⟩ := hq.later b (hlater ▸ mem_cons_self)
    split
    · exact ⟨h.held, forall_mem_cons.2 ⟨⟨hq.known, hq.named, hmore, .inl ⟨rfl, g, hg, rfl⟩⟩, hqs⟩⟩
    · refine ⟨h.held, forall_mem_cons.2 ⟨⟨hq.known, hq.named, hmore, .inr ?_⟩, hqs⟩⟩
      simp [hrest]
  · split
    · exact ⟨h.held, forall_mem_cons.2 ⟨.start hq.known hq.named, hqs⟩⟩
    · exact ⟨h.held, hqs⟩

theorem sound_wake (h : Sound p s) (hw : w ∈ s.memory.queue) (hr : p.routine? w.routine = some r) :
    Sound p ⟨{ s.memory with queue := s.memory.queue.erase w }, [.start p r w.record]⟩ where
  held := ⟨h.held.calls, h.held.callers, fun w' hw' => h.held.queue w' (mem_of_mem_erase hw')⟩
  polls := by
    have hname : r.name = w.routine := by simpa using find?_some hr
    refine forall_mem_cons.2 ⟨.start (by rw [hname,hr]) ?_, by simp⟩
    rw [hname]
    exact h.held.queue w hw

theorem held_answer {n : Nat} (h : m.Held p) : (m.answer w n).Held p := by
  refine Memory.Held.depart (foldlRecOn (motive := Memory.Held p) _ _ h fun m' hm' j _ => ?_)
  split
  · rename_i a x _
    have hties : (m'.write (some a) fun r => { r with ready := Function.update r.ready x true }).ties =
        m'.ties :=
      Memory.ties_write_of_eq fun _ => rfl
    rw [Memory.Held,hties,Memory.queue_write]
    exact hm'
  · exact hm'

theorem sound_step (hp : p.Assigned) (h : Sound p s) (hs : Move p s s') : Sound p s' := by
  obtain ⟨c,hc⟩ := hs
  obtain ⟨m,polls⟩ := s
  cases c with
  | wake w =>
    simp only [step?] at hc
    split at hc
    · rename_i r hr
      split at hc
      · next hready =>
        cases hc
        exact sound_wake h hready.1 hr
      · cases hc
    · cases hc
  | answer w =>
    simp only [step?] at hc
    split at hc
    · split at hc
      · cases hc
        exact ⟨held_answer h.held, by simp⟩
      · cases hc
    · cases hc
  | go truth =>
    cases polls with
    | nil => cases hc
    | cons q qs =>
      cases hc
      exact sound_go hp h

theorem sound_start (ready : Register → Bool) : Sound p (start p ready) where
  held := by
    have hties : (start p ready).memory.ties = [.standing (Activation.fresh mainRoutine none).ties] :=
      rfl
    have hstands : ∀ (a : Address) (t : Ties), (start p ready).memory.ties[a]? = some (.standing t) →
        t = (Activation.fresh mainRoutine none).ties := by
      intro a t ht
      rw [hties] at ht
      have hmem := mem_of_getElem? ht
      simpa using hmem
    refine ⟨fun a t ht k c hc => ?_, fun a t ht w hw => ?_, fun w hw => ?_⟩
    · rw [hstands a t ht] at hc
      cases hc
    · rw [hstands a t ht] at hw
      cases hw
    · obtain rfl : w = ⟨mainRoutine, 0⟩ := by simpa [start] using hw
      refine ⟨by simp [hties], fun t ht => ?_⟩
      rw [hstands 0 t ht]
      rfl
  polls := by simp [start]

theorem sound_of_reaches (hp : p.Assigned) (h : Reaches p s) : Sound p s := by
  obtain ⟨ready,hsteps⟩ := h
  induction hsteps with
  | refl => exact sound_start ready
  | tail _ hstep ih => exact sound_step hp ih hstep

end World

end CSource

/-- Lowered code starts no loop over; only the round of a loop does, at its end. -/
theorem Lowers.starts_nothing_over {callees : Callees} {f : Frame} {c : Code}
    {d d' : Draft} {flow : Flow} (h : Lowers callees f c d flow d') :
    ∀ g ∈ d'.ops, g ∈ d.ops ∨ ∀ args garbage, g.op ≠ .restartLoop args garbage := by
  intro g hg
  -- the kinds are right for parameters of any kinds, but a round of a loop returns what it takes
  have hown : Outline.returns ⟨false, .owned .integer :: f.returnKinds, f.returnKinds⟩ = f.returnKinds :=
    rfl
  have hkinded := h.kinded knowsTable_any (fun _ _ => trivial) hown (fun _ _ => rfl) g hg
  refine hkinded.imp_right fun hkinded args garbage hop => ?_
  rw [hop] at hkinded
  simpa using congrArg length hkinded.2

theorem Generates.starts_nothing_over {table : SignatureTable} {d : Decl} {rs : List Routine}
    (h : Generates table d rs) (hr : r ∈ rs) (hname : table.lookup? r.name ≠ none) :
    ∀ g ∈ r.ops, ∀ args garbage, g.op ≠ .restartLoop args garbage := by
  rcases h with ⟨-,rfl⟩ | ⟨_,_,l,-,hl,rfl⟩
  · obtain rfl := mem_singleton.1 hr
    exact fun g hg => by cases hg
  · rcases mem_cons.1 hr with rfl | hr
    · obtain ⟨_,_,_,-,-,hbody,rfl⟩ := lowers_of_lowerFunction hl
      exact fun g hg => (hbody.starts_nothing_over g hg).resolve_left not_mem_nil
    · exact absurd (closure_of_lowerFunction hl hr).2.lookup? hname

section

variable {b : Bundle} {table : SignatureTable} {log log' : List Event} {p : Program}

theorem assigned_of_generate (h : b.generate table log = .ok (p, log')) : p.Assigned := by
  obtain ⟨_,hparts,-,hroutines⟩ := generatesAll_of_generate h
  intro name r hr
  have hmem : r ∈ p.routines := mem_of_find?_eq_some hr
  obtain ⟨part,hpart,hr⟩ := mem_flatMap.1 (hroutines ▸ hmem)
  rcases hparts part hpart with ⟨-,hrs⟩ | ⟨_,_,l,-,hl,hrs⟩
  · obtain rfl := mem_singleton.1 (hrs ▸ hr)
    rfl
  · exact (wellFormed_of_lowerFunction hl (hrs ▸ hr)).children

theorem not_restarts_of_declared (h : b.generate table log = .ok (p, log')) {name : String}
    (hname : table.contains name = true) : ¬ p.Restarts name := by
  rintro ⟨r,hr,g,hg,args,garbage,hop⟩
  obtain ⟨_,hparts,-,hroutines⟩ := generatesAll_of_generate h
  have hmem : r ∈ p.routines := mem_of_find?_eq_some hr
  obtain ⟨part,hpart,hmem⟩ := mem_flatMap.1 (hroutines ▸ hmem)
  have hlookup : table.lookup? r.name ≠ none := by
    have hr' : r.name = name := by simpa using find?_some hr
    rw [hr']
    exact Option.isSome_iff_ne_none.1 hname
  exact (hparts part hpart).starts_nothing_over hmem hlookup g hg args garbage hop

/-- A call of a standing record that is not done is under way: the rounds that have taken the place of
the record it was made for lead to a record of the callee, which stands and sets the done flag of this
call when it returns. Only the closure of a loop can be replaced; a declared function has the record that
the call points to. -/
theorem call_under_way (h : b.generate table log = .ok (p, log')) {s : World}
    (hs : s.Reaches p) {a : Address} {r : Activation} (hr : s.memory.record? a = some r) {f : Routine}
    (hf : p.routine? r.ties.routine = some f) {g : GuardedOp} (hg : g ∈ f.ops) {callee : String}
    {args results : List Register} {k : ChildSlot} {done : Option Condition}
    (hop : g.op = .callAsync callee args results k done) {c : Address} (hcall : r.ties.call k = some c)
    (hdone : r.ties.done k = false) :
    ∃ d round, ReflTransGen (Replaced s.memory.ties) c d ∧ s.memory.record? d = some round ∧
      round.ties.routine = callee ∧ round.ties.finished = some (a, k) ∧
        (table.contains callee = true → c = d) := by
  have hp := assigned_of_generate h
  have hheld := (World.sound_of_reaches hp hs).held
  obtain ⟨_,hchild,-,hreports⟩ := hheld.calls a r.ties (Memory.exists_standing hr) k c hcall
  have hmem : (callee, k) ∈ childrenIn f.ops := mem_flatMap.2 ⟨g, hg, by simp [hop,Op.child]⟩
  obtain rfl := hp.sole ⟨f, hf, hmem⟩ hchild
  obtain ⟨d,t,hchain,hd,hfinished,hname,hend⟩ := hreports hdone
  obtain ⟨round,hround,rfl⟩ := Memory.standing_ties.1 hd
  exact ⟨d, round, hchain, hround, hname, hfinished, fun hdeclared =>
    hend.resolve_right (not_restarts_of_declared h hdeclared)⟩

end

/-- Part of a main function: `while more() { let n = nap(n) } return (n, tick())`. -/
def vigilBody : Block where
  span := .nowhere
  stmts :=
    [.loop .nowhere (.call .nowhere (bare "more") [])
        ⟨.nowhere, [.bind .nowhere [bare "n"]
          (.call .nowhere (bare "nap") [.value (.name .nowhere "n")])]⟩,
      .ret .nowhere (some (.tuple .nowhere [.name .nowhere "n", .call .nowhere (bare "tick") []]))]

/-- `sync native func more(): Boolean`, `native func nap(n: Integer): Integer`, `native func tick():
Integer` and `func main(n: Integer): (Integer, Integer)`. -/
def vigil : Bundle where
  entry := "main"
  modules := [⟨"main", 0, ⟨[],
    [{ refill with
        name := bare "more"
        isSync := true
        isNative := true
        params := []
        returns := [bare (.owned .boolean)] },
      { refill with
        name := bare "nap"
        isNative := true
        params := [⟨bare "n", bare (.owned .integer)⟩]
        returns := [bare (.owned .integer)] },
      { refill with
        name := bare "tick", isNative := true, params := [], returns := [bare (.owned .integer)] },
      { refill with
        name := bare "main"
        params := [⟨bare "n", bare (.owned .integer)⟩]
        returns := [bare (.owned .integer), bare (.owned .integer)]
        body := some vigilBody }]⟩⟩]

def vigilTable : SignatureTable :=
  match vigil.signatures with
  | .ok table => table
  | .error _ => .empty

def vigilant : Program :=
  match vigil.generate vigilTable [] with
  | .ok (prog, _) => prog
  | .error _ => ⟨"", []⟩

theorem signatures_vigil : vigil.signatures = .ok vigilTable := by cbv

theorem generate_vigil : ∃ log, vigil.generate vigilTable [] = .ok (vigilant, log) := ⟨_, by cbv⟩

def vigilCall : GuardedOp := ⟨1, .callAsync "main_1" [0] [1] 0 none⟩

/-- Two polls of the loop and one of the main routine, with the ends of their children in between; then
the main routine is polled once more, up to the call of the loop. -/
def night : List Happening :=
  let on (n : Nat) : List Happening := List.replicate n (.go fun _ => true)
  Happening.wake ⟨"main", 0⟩ :: on 20 ++ Happening.wake ⟨"main_1", 1⟩ :: on 16 ++
    Happening.answer ⟨"nap", 3⟩ :: Happening.wake ⟨"main_1", 1⟩ :: on 23 ++
    Happening.answer ⟨"tick", 2⟩ :: Happening.wake ⟨"main", 0⟩ :: on 3

def dawn : Option World := night.foldlM (World.step? vigilant) (World.start vigilant fun _ => true)

theorem reaches_dawn {s : World} (h : dawn = some s) : s.Reaches vigilant :=
  World.reaches_of_happenings _ night h

theorem exists_dawn :
    ∃ s q qs r, dawn = some s ∧ s.polls = q :: qs ∧ s.memory.record? q.record = some r ∧
    vigilant.routine? r.ties.routine = some q.routine ∧ vigilCall ∈ q.routine.ops ∧
    q.rest = (q.routine.block vigilant vigilCall).steps ∧
    (guardTests (q.routine.guard vigilCall)).all (Test.holds r.fields) = true ∧ r.ties.call 0 = some 1 ∧
    r.ties.done 0 = false ∧ s.memory.record? 1 = none := by
  have hdawn : (dawn.any fun s => s.polls.head?.any fun q => (s.memory.record? q.record).any fun r =>
      decide (vigilant.routine? r.ties.routine = some q.routine) && decide (vigilCall ∈ q.routine.ops) &&
      decide (q.rest = (q.routine.block vigilant vigilCall).steps) &&
      (guardTests (q.routine.guard vigilCall)).all (Test.holds r.fields) && decide
        (r.ties.call 0 = some 1) &&
      decide (r.ties.done 0 = false) && (s.memory.record? 1).isNone) = true := by
    decide +kernel
  simp only [Option.any_eq_true,head?_eq_some_iff,Bool.and_eq_true,decide_eq_true_eq,
    Option.isNone_iff_eq_none] at hdawn
  obtain ⟨s,hs,q,⟨qs,hq⟩,r,hr,⟨⟨⟨⟨⟨hname,hcall⟩,hrest⟩,htests⟩,hpointer⟩,hdone⟩,hgone⟩ := hdawn
  exact ⟨s, q, qs, r, hs, hq, hr, hname, hcall, hrest, htests, hpointer, hdone, hgone⟩

/-- The main routine waits for the loop, which has come to its second round. -/
theorem vigil_call_under_way : ∃ (s : World) (q : Poll) (r : Activation),
    s.Reaches vigilant ∧ s.memory.record? q.record = some r ∧
    vigilant.routine? r.ties.routine = some q.routine ∧ vigilCall ∈ q.routine.ops ∧
    r.ties.call 0 = some 1 ∧ r.ties.done 0 = false ∧
    ∃ d round, ReflTransGen (Replaced s.memory.ties) 1 d ∧ s.memory.record? d = some round ∧
      round.ties.routine = "main_1" ∧ round.ties.finished = some (q.record, 0) ∧
      (vigilTable.contains "main_1" = true → 1 = d) := by
  obtain ⟨s,q,_,r,hs,-,hr,hname,hcall,-,-,hpointer,hdone,-⟩ := exists_dawn
  obtain ⟨_,hlog⟩ := generate_vigil
  exact ⟨s, q, r, reaches_dawn hs, hr, hname, hcall, hpointer, hdone,
    call_under_way hlog (reaches_dawn hs) hr hname hcall rfl hpointer hdone⟩

/-- A poll comes to a call whose guard holds and which is not done, and the record that it points to is
gone. -/
theorem call_leads_nowhere :
    ∃ table log p, ∃ (s : World) (q : Poll), ∃ qs r g callee args results k done c,
    vigil.signatures = .ok table ∧ vigil.generate table [] = .ok (p, log) ∧ s.Reaches p ∧
    s.polls = q :: qs ∧ s.memory.record? q.record = some r ∧ p.routine? r.ties.routine = some q.routine ∧
    g ∈ q.routine.ops ∧ g.op = .callAsync callee args results k done ∧
    q.rest = (q.routine.block p g).steps ∧
    (guardTests (q.routine.guard g)).all (Test.holds r.fields) = true ∧ r.ties.call k = some c ∧
    r.ties.done k = false ∧ s.memory.record? c = none := by
  obtain ⟨s,q,qs,r,hs,hq,hr,hname,hcall,hrest,htests,hpointer,hdone,hgone⟩ := exists_dawn
  obtain ⟨log,hlog⟩ := generate_vigil
  exact ⟨_, log, vigilant, s, q, qs, r, vigilCall, _, _, _, _, _, 1, signatures_vigil, hlog,
    reaches_dawn hs, hq, hr, hname, hcall, rfl, hrest, htests, hpointer, hdone, hgone⟩

end Polled
