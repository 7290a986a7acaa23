import Polled.Proofs.Lines
import Polled.Proofs.Resources

/-!
One name for each owned value.

`lowerInspected` lowers a body as `lower` does, and looks at the draft around every statement. A look
that finds nothing wrong changes nothing, and in a draft that is in order no two names reach the same
owned value.
-/

namespace Polled

open Lower Draft

variable {body body' : Lower Flow} {f : Frame} {params : List (String × Kind)} {bodySpan condSpan : Span}
variable {look : Lower Unit} {d : Draft}

namespace Lower

/-- Halts at drafts that are not as they should be. -/
def insist (p : Draft → Prop) [DecidablePred p] (halt : Halt) : Lower Unit := fun d =>
  if p d then .ok ((), d) else .error halt

end Lower

mutual
def Stmt.lowerInspected (look : Lower Unit) (f : Frame) : Stmt → Lower Flow
  | .bind span names value => (Stmt.bind span names value).lower f
  | .ret span value => (Stmt.ret span value).lower f
  | .branch span cond onTrue onFalse => do
    let test ← lowerTest f .ifCondition cond
    checkTruth test cond.span .branch
    branchOn f span test (onTrue.lowerInspected look f) (onFalse.lowerInspected look f)
  | .loop _ cond body => do
    loopOver f (loopNames cond body) cond.span body.span
      (fun f => lowerTest f .whileCondition cond) (fun f => body.lowerInspected look f)
    return .continues
  | .run span value => (Stmt.run span value).lower f

def Block.lowerInspected (look : Lower Unit) (f : Frame) : Block → Lower Flow
  | ⟨_, stmts⟩ => Stmt.lowerAllInspected look f stmts

def Stmt.lowerAllInspected (look : Lower Unit) (f : Frame) : List Stmt → Lower Flow
  | [] => do
    look
    return .continues
  | s :: ss => do
    look
    match ← placing s.span (s.lowerInspected look f) with
    | .continues =>
      look
      sweep f
      Stmt.lowerAllInspected look f ss
    | .returns =>
      match ss with
      | [] => return .returns
      | next :: _ => refuse .unreachable next.span
end

def Block.lowerReturningInspected (look : Lower Unit) (f : Frame) (body : Block) : Lower Unit := do
  match ← body.lowerInspected look f with
  | .returns => return ()
  | .continues => refuse (.missingReturn f.name) body.lastByte

/-- Lowers a function and looks at every draft between two statements. -/
def lowerFunctionInspected (look : Lower Unit) (table : SignatureTable) (d : Decl) (body : Block)
    (log : List Event) :
    Except Halt Lowered :=
  match body.lowerReturningInspected look (d.frame table) (.start d.typedParams log) with
  | .ok ((), draft) => .ok ⟨draft.routine (d.frame table), draft.closures, draft.log⟩
  | .error halt => .error halt

namespace Lower

variable {α β : Type}

theorem seq_congr {m m' : Lower α} {k k' : α → Lower β} (hm : m d = m' d)
    (hk : ∀ a e, m' d = .ok (a, e) → k a e = k' a e) : (m >>= k) d = (m' >>= k') d := by
  show Except.bind (m d) (fun r => k r.1 r.2) = Except.bind (m' d) fun r => k' r.1 r.2
  rw [hm]
  cases hrun : m' d with
  | error halt => rfl
  | ok r => exact hk r.1 r.2 hrun

theorem placing_congr {m m' : Lower α} (span : Span) (hm : m d = m' d) :
    placing span m d = placing span m' d := by
  simp only [placing,hm]

theorem arm_congr {c : Condition} (h : body (d.under c) = body' (d.under c)) :
    arm c body d = arm c body' d := by
  refine seq_congr rfl fun _ e he => ?_
  obtain rfl := (modify_eq_ok _ _).1 he
  exact seq_congr h fun _ _ _ => rfl

theorem branchOn_congr {span : Span} {test : Register} {onTrue onTrue' onFalse onFalse' : Lower Flow}
    (hT : onTrue (d.fork test) = onTrue' (d.fork test))
    (hF : ∀ flow dt, onTrue' (d.fork test) = .ok (flow, dt) →
      onFalse (d.second dt) = onFalse' (d.second dt)) :
    branchOn f span test onTrue onFalse d = branchOn f span test onTrue' onFalse' d := by
  unfold branchOn
  refine seq_congr rfl fun c e he => ?_
  obtain ⟨rfl,rfl⟩ := (condition_eq_ok _).1 he
  refine seq_congr rfl fun c' e he => ?_
  obtain ⟨rfl,rfl⟩ := (condition_eq_ok _).1 he
  refine seq_congr rfl fun _ e he => ?_
  obtain rfl := (push_eq_ok _ _).1 he
  refine seq_congr rfl fun start e he => ?_
  obtain ⟨rfl,rfl⟩ := (get_eq_ok _).1 he
  refine seq_congr (arm_congr hT) fun ⟨flowT, armT⟩ e he => ?_
  simp only [arm,bind_eq_ok,modify_eq_ok,get_eq_ok,pure_eq_ok] at he
  obtain ⟨_,_,rfl,_,_,hrun,_,_,⟨rfl,rfl⟩,-,rfl⟩ := he
  refine seq_congr rfl fun _ e' he => ?_
  obtain rfl := (modify_eq_ok _ _).1 he
  exact seq_congr (arm_congr (hF _ _ hrun)) fun _ _ _ => rfl

theorem separately_congr {step step' : Lower Unit}
    (h : step (.start params d.log) = step' (.start params d.log)) :
    separately params step d = separately params step' d := by
  simp only [separately,h]

theorem loopOver_congr {names : List String} {test : Frame → Lower Register}
    {body body' : Frame → Lower Flow}
    (h : ∀ (g : Frame) (log : List Event), body g (.start g.params log) =
      body' g (.start g.params log)) :
    loopOver f names condSpan bodySpan test body d =
      loopOver f names condSpan bodySpan test body' d := by
  unfold loopOver
  refine seq_congr rfl fun captures e _ => seq_congr rfl fun closure e _ => seq_congr rfl
    fun results e _ => ?_
  exact seq_congr (separately_congr (seq_congr (h _ _) fun _ _ _ => rfl)) fun _ _ _ => rfl

end Lower

namespace Draft

variable {f : Frame} {d e : Draft} {flow : Flow}

/-- A draft that lowering in the frame can come to. -/
structure InOrder (f : Frame) (d : Draft) : Prop where
  valid : d.Valid
  current : d.current < d.control.conditionCount
  /-- All its closures have names of their own. -/
  sprouts : ∃ params log, Sprouts f (start params log) d

theorem inOrder_start (f : Frame) (params : List (String × Kind)) (log : List Event) :
    InOrder f (start params log) :=
  ⟨valid_start params log, lt_add_one 0, params, log, Still.sprouts ⟨rfl, rfl⟩⟩

section

variable (h : InOrder f d)

include h

theorem InOrder.sprouts_trans (hsprouts : Sprouts f d e) :
    ∃ params log, Sprouts f (start params log) e := by
  obtain ⟨params,log,hd⟩ := h.sprouts
  exact ⟨params, log, hd.trans hsprouts⟩

theorem InOrder.advances {m : Lower Flow} (hgrows : Grows f m)
    (hm : ∀ callees : Callees, callees.Cover f.table → Proceeding callees False m)
    (hrun : m d = .ok (flow, e)) :
    ∃ callees ops, Advances callees False d e flow ops := by
  obtain ⟨_,_,he⟩ := h.sprouts_trans (hgrows _ _ _ hrun)
  obtain ⟨ops,hops⟩ :=
    (hm _ (Lowered.callees_cover f.table _) d flow e h.valid h.current he.callees_know hrun).advances
  exact ⟨_, ops, hops⟩

theorem InOrder.of_advances {callees : Callees} {ops : List GuardedOp} (hsprouts : Sprouts f d e)
    (hops : Advances callees False d e .continues ops) : InOrder f e :=
  ⟨hops.valid h.valid h.current, hops.extend.current_lt h.current, h.sprouts_trans hsprouts⟩

theorem InOrder.stmt {s : Stmt} (hrun : s.lower f d = .ok (.continues, e)) : InOrder f e := by
  obtain ⟨_,_,hops⟩ := h.advances (s.grows f) (fun _ hcover => s.proceeding hcover False.elim) hrun
  exact h.of_advances (s.grows f _ _ _ hrun) hops

theorem InOrder.sweep {u : Unit} (hrun : Lower.sweep f d = .ok (u, e)) : InOrder f e := by
  obtain ⟨_,hops⟩ := @advances_sweep (fun _ => none) False d e f h.valid hrun
  exact h.of_advances (still_sweep hrun).sprouts hops

theorem InOrder.test {cond : Expr} {t : Register} {place : ValueUse}
    (hrun : lowerTest f place cond d = .ok (t, e)) :
    InOrder f e := by
  rw [lowerTest,single_eq_ok] at hrun
  obtain ⟨⟨_,hline⟩,-⟩ := Expr.straight f.table.callees_cover cond h.valid hrun
  exact ⟨hline.valid h.valid, hline.extend.current_lt h.current,
    h.sprouts_trans (cond.still hrun).sprouts⟩

theorem InOrder.fork (test : Register) : InOrder f (d.fork test) :=
  ⟨h.valid.fork, Nat.lt_succ_of_lt (lt_add_one _), h.sprouts_trans (Still.sprouts ⟨rfl, rfl⟩)⟩

theorem InOrder.resume {b : Block} {test : Register} {dt : Draft}
    (hrun : b.lower f (d.fork test) = .ok (flow, dt)) :
    InOrder f (d.second dt) := by
  obtain ⟨_,_,hops⟩ :=
    (h.fork test).advances (b.grows f) (fun _ hcover => b.proceeding hcover False.elim) hrun
  refine ⟨Valid.resume h.valid hops.extend.grows hops.extend.wf, hops.extend.count_le, ?_⟩
  exact (h.fork test).sprouts_trans ((b.grows f _ _ _ hrun).trans (Still.sprouts ⟨rfl, rfl⟩))

end

end Draft

/-- The look passes at every draft that is in order, and leaves it as it is. -/
def Lower.Passing (look : Lower Unit) : Prop := ∀ d : Draft, d.Valid → look d = .ok ((), d)

theorem Lower.Passing.bind_eq {α : Type} {m m' : Lower α} (h : look.Passing) (hd : d.Valid)
    (hm : m d = m' d) :
    (do look; m) d = m' d := by
  show Except.bind (look d) (fun r => m r.2) = m' d
  rw [h d hd]
  exact hm

mutual
theorem Stmt.lowerInspected_eq (hlook : look.Passing) :
    (s : Stmt) → {f : Frame} → {d : Draft} → InOrder f d → s.lowerInspected look f d = s.lower f d
  | .bind _ _ _, _, _, _ => by rw [Stmt.lowerInspected]
  | .ret _ _, _, _, _ => by rw [Stmt.lowerInspected]
  | .run _ _, _, _, _ => by rw [Stmt.lowerInspected]
  | .branch span cond onTrue onFalse, f, d, hd => by
    rw [Stmt.lowerInspected,Stmt.lower]
    refine seq_congr rfl fun test e htest => seq_congr rfl fun _ e' hcheck => ?_
    obtain ⟨-,rfl⟩ := checkTruth_eq_ok hcheck
    have he := hd.test htest
    exact branchOn_congr (Block.lowerInspected_eq hlook onTrue (he.fork test)) fun flow dt hrun =>
      Block.lowerInspected_eq hlook onFalse (he.resume hrun)
  | .loop _ cond body, f, d, _ => by
    rw [Stmt.lowerInspected,Stmt.lower]
    refine seq_congr (loopOver_congr fun g log => ?_) fun _ _ _ => rfl
    exact Block.lowerInspected_eq hlook body (inOrder_start g g.params log)

theorem Block.lowerInspected_eq (hlook : look.Passing) :
    (b : Block) → {f : Frame} → {d : Draft} → InOrder f d → b.lowerInspected look f d = b.lower f d
  | ⟨_, stmts⟩, _, _, hd => Stmt.lowerAllInspected_eq hlook stmts hd

theorem Stmt.lowerAllInspected_eq (hlook : look.Passing) :
    (ss : List Stmt) → {f : Frame} → {d : Draft} → InOrder f d →
      Stmt.lowerAllInspected look f ss d = Stmt.lowerAll f ss d
  | [], _, _, hd => hlook.bind_eq hd.valid rfl
  | s :: ss, f, d, hd => by
    unfold Stmt.lowerAllInspected Stmt.lowerAll
    have hstmt := placing_congr s.span (Stmt.lowerInspected_eq hlook s hd)
    refine hlook.bind_eq hd.valid (seq_congr hstmt fun flow e hrun => ?_)
    cases flow with
    | returns => rfl
    | continues =>
      have he := hd.stmt ((placing_eq_ok _ _ _).1 hrun)
      refine hlook.bind_eq he.valid (seq_congr rfl fun _ e' hsweep => ?_)
      exact Stmt.lowerAllInspected_eq hlook ss (he.sweep hsweep)
end

theorem lowerFunctionInspected_eq (hlook : look.Passing) (table : SignatureTable) (d : Decl)
    (body : Block) (log : List Event) :
    lowerFunctionInspected look table d body log = lowerFunction table d body log := by
  have hbody : body.lowerReturningInspected look (d.frame table) (start d.typedParams log) =
      body.lowerReturning (d.frame table) (start d.typedParams log) :=
    seq_congr (body.lowerInspected_eq hlook (inOrder_start (d.frame table) d.typedParams log))
      fun _ _ _ => rfl
  rw [lowerFunctionInspected,hbody]
  rfl

-- what stands inside of the round of a loop is looked at, too
example : (lowerFunctionInspected
    (insist (fun d => d.closures = [] → d.scope.get? "cup" ≠ some 3)
      ⟨.source .returnInLoop .nowhere, []⟩)
    refillTable refill refillBody []).isOk = false := by
  decide +kernel

/-- No two names reach the same owned value. -/
def Draft.SingleNamed (d : Draft) : Prop :=
  ∀ a ∈ d.scope.bindings, ∀ b ∈ d.scope.bindings,
    (d.registers.kind a.2).ownsHeap = true → (d.registers.kind b.2).ownsHeap = true →
      d.registers.resolve a.2 = d.registers.resolve b.2 → a.1 = b.1

instance : DecidablePred Draft.SingleNamed := fun d =>
  inferInstanceAs (Decidable (∀ a ∈ d.scope.bindings, ∀ b ∈ d.scope.bindings, _ → _ → _ → _))

theorem Draft.Valid.singleNamed (hd : d.Valid) : d.SingleNamed := by
  intro a ha b hb hheap _ hroot
  have hget : ∀ c ∈ d.scope.bindings, d.scope.get? c.1 = some c.2 :=
    fun c hc => (hd.sorted.get?_eq_some_iff c.1 c.2).2 hc
  exact hd.sound.single a.1 b.1 a.2 b.2 (hget a ha) (hget b hb) hheap hroot

/-- Between any two statements of a function, of the arms of its branches and of the rounds of its loops,
every owned value has one name: to insist on it never halts the lowering. -/
theorem owned_singleNamed (table : SignatureTable) (d : Decl) (body : Block) (log : List Event)
    (halt : Halt) :
    lowerFunctionInspected (insist SingleNamed halt) table d body log = lowerFunction table d body log :=
  lowerFunctionInspected_eq (fun _ hd => if_pos hd.singleNamed) table d body log

end Polled
