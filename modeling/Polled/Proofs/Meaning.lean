import Polled.Proofs.InPlace
import Polled.Proofs.Kinds
import Polled.Proofs.Scanning

/-!
What lowered code computes.

If a memory obeys the operations that an expression is lowered to, then the registers of its values hold
what the expression evaluates to. Courses carry that from statement to statement.
-/

namespace Polled

open Lower Passage List

variable {d d' : Draft} {slot : Register → Register} {only : String → Prop}
  {ts : List Register} {s : Stmt}

def Decl.env {α : Type} (d : Decl) (args : List (Datum α)) : Env α :=
  Env.setAll (fun _ => none) (d.typedParams.map (·.1)) args

namespace Routine

/-- The routine of a function returns what its body returns. -/
def Computes {α : Type} (r : Routine) (natives : Natives α) (d : Decl) (body : Block) : Prop :=
  ∀ args, args.length = r.paramCount →
    ∃ n vs, body.eval natives (d.env args) = some (.returns vs) ∧
    r.run natives n (r.entry args) = some vs

/-- On every path a slot gets at most one value, and one with a parameter none. -/
def FillsOnce (r : Routine) : Prop :=
  ∀ p ∈ r.paths, ((List.range r.paramCount).map r.slot ++ writes r.slot p).Nodup

instance (r : Routine) : Decidable r.FillsOnce :=
  inferInstanceAs
    (Decidable (∀ p ∈ r.paths, ((List.range r.paramCount).map r.slot ++ writes r.slot p).Nodup))

end Routine

namespace Draft

variable {α : Type}

/-- Variables have the values of their registers. -/
def Holds (d : Draft) (slot : Register → Register) (memory : Register → Datum α) (env : Env α) : Prop :=
  ∀ x t, d.scope.get? x = some t → env x = some (memory (slot t))

/-- The variables among `only` have the values of their registers. -/
def HoldsOn (d : Draft) (only : String → Prop) (slot : Register → Register) (memory : Register → Datum α)
    (env : Env α) :
    Prop :=
  ∀ x t, only x → d.scope.get? x = some t → env x = some (memory (slot t))

theorem holdsOn_true {memory : Register → Datum α} {env : Env α} :
    d.HoldsOn (fun _ => True) slot memory env ↔ d.Holds slot memory env :=
  ⟨fun h x t hx => h x t trivial hx, fun h x t _ hx => h x t hx⟩

/-- If a memory obeys the line between two drafts, the values in the registers `ts` are what `gives`
tells for the variables before and behind it. -/
structure Evaluates (natives : Natives α) (d d' : Draft) (ts : List Register) (line : List Op)
    (gives : Env α → List (Datum α) → Env α → Prop) : Prop where
  ops_eq : d'.ops = d.ops ++ line.map (GuardedOp.mk d.current)
  current : d'.current = d.current
  values : ∀ slot took memory env, (∀ op ∈ line, op.Obeyed natives slot took memory) →
    d.Holds slot memory env →
    ∃ env', gives env (ts.map fun t => memory (slot t)) env' ∧ d'.Holds slot memory env'

variable {natives : Natives α} {slot : Register → Register} {memory : Register → Datum α} {env : Env α}
variable {d e d' : Draft} {ts ts' : List Register} {line line' : List Op}
variable {gives gives' : Env α → List (Datum α) → Env α → Prop}

theorem Holds.fewer (h : d.Holds slot memory env)
    (hscope : ∀ x t, d'.scope.get? x = some t → d.scope.get? x = some t) : d'.Holds slot memory env :=
  fun x t hx => h x t (hscope x t hx)

theorem HoldsOn.giveName (h : d.HoldsOn only slot memory env) (hsorted : d.scope.Sorted) (x : String)
    (t : Register) :
    (d.giveName x t).HoldsOn only slot memory (env.set x (memory (slot t))) := by
  intro y u hy hyu
  rcases (get?_giveName hsorted).1 hyu with ⟨rfl,rfl⟩ | ⟨hne,hyu,-⟩
  · exact Function.update_self ..
  · exact (Function.update_of_ne hne ..).trans (h y u hy hyu)

theorem Holds.giveName (h : d.Holds slot memory env) (hsorted : d.scope.Sorted) (x : String)
    (t : Register) :
    (d.giveName x t).Holds slot memory (env.set x (memory (slot t))) :=
  holdsOn_true.1 ((holdsOn_true.2 h).giveName hsorted x t)

theorem Holds.giveNames (h : d.Holds slot memory env) (hsorted : d.scope.Sorted) (xs : List String)
    (ts : List Register) :
    (d.giveNames xs ts).Holds slot memory (env.setAll xs (ts.map fun t => memory (slot t))) := by
  induction xs generalizing d env ts with
  | nil => exact h
  | cons x xs ih =>
    cases ts with
    | nil => exact h
    | cons t ts => exact ih (h.giveName hsorted x t) (sorted_giveName hsorted x) ts

theorem Evaluates.silent (hops : d'.ops = d.ops) (hcurrent : d'.current = d.current)
    (hscope : ∀ x t, d'.scope.get? x = some t → d.scope.get? x = some t)
    (hgives : ∀ slot (memory : Register → Datum α) env, d.Holds slot memory env →
      gives env (ts.map fun t => memory (slot t)) env) : Evaluates natives d d' ts [] gives where
  ops_eq := by simp [hops]
  current := hcurrent
  values slot took memory env _ hd := ⟨env, hgives slot memory env hd, hd.fewer hscope⟩

theorem Evaluates.trans {both : Env α → List (Datum α) → Env α → Prop} {us : List Register}
    (h : Evaluates natives d e ts line gives) (h' : Evaluates natives e d' ts' line' gives')
    (hboth : ∀ (slot : Register → Register) (memory : Register → Datum α) env env₁ env₂,
      gives env (ts.map fun t => memory (slot t)) env₁ →
        gives' env₁ (ts'.map fun t => memory (slot t)) env₂ →
      both env (us.map fun t => memory (slot t)) env₂) :
    Evaluates natives d d' us (line ++ line') both where
  ops_eq := by rw [h'.ops_eq,h.ops_eq,h.current,append_assoc,← map_append]
  current := h'.current.trans h.current
  values slot took memory env hobeyed hd := by
    obtain ⟨env₁,hgives,he⟩ :=
      h.values slot took memory env (fun op hop => hobeyed op (mem_append_left _ hop)) hd
    obtain ⟨env₂,hgives',hd'⟩ := h'.values slot took memory env₁
      (fun op hop => hobeyed op (mem_append_right _ hop)) he
    exact ⟨env₂, hboth slot memory env env₁ env₂ hgives hgives', hd'⟩

theorem Evaluates.emit {k : Kind} {op : Op} (h : Evaluates natives d e ts line gives)
    (hd' : d' = (e.reserve k).emit e.current op)
    (hgives : ∀ slot took memory env env', op.Obeyed natives slot took memory →
      gives env (ts.map fun t => memory (slot t)) env' → gives' env [memory (slot e.size)] env') :
    Evaluates natives d d' [e.size] (line ++ [op]) gives' := by
  subst hd'
  refine ⟨?_, h.current, fun slot took memory env hobeyed hd => ?_⟩
  · show e.ops ++ [⟨e.current, op⟩] = _
    rw [h.ops_eq,h.current]
    simp
  · obtain ⟨env',heq,he⟩ :=
      h.values slot took memory env (fun o ho => hobeyed o (mem_append_left _ ho)) hd
    exact ⟨env', hgives slot took memory env env' (hobeyed op (by simp)) heq, he⟩

theorem Evaluates.load {k : Kind} {op : Op} {v : Datum α} (hd' : d' = (d.reserve k).emit d.current op)
    (hobeyed : ∀ slot took memory, op.Obeyed natives slot took memory → memory (slot d.size) = v)
    (hgives : ∀ env, gives env [v] env) : Evaluates natives d d' [d.size] [op] gives := by
  have hnone : Evaluates natives d d [] [] fun env _ env' => env' = env :=
    .silent rfl rfl (fun _ _ h => h) fun _ _ _ _ => rfl
  refine hnone.emit hd' fun slot took memory env env' hop henv => ?_
  rw [hobeyed slot took memory hop,henv]
  exact hgives env

theorem Evaluates.weaken (h : Evaluates natives d d' ts line gives)
    (hgives : ∀ env vs env', gives env vs env' → gives' env vs env') :
    Evaluates natives d d' ts line gives' where
  ops_eq := h.ops_eq
  current := h.current
  values slot took memory env hobeyed hd :=
    (h.values slot took memory env hobeyed hd).imp fun _ hvalues => hvalues.imp_left (hgives _ _ _)

theorem Evaluates.passed {t : Register} {lent : Bool} (h : Evaluates natives d e ts line gives)
    (he : e.Valid) (hd' : d' = if lent then e else e.handOver t) :
    Evaluates natives d d' ts line gives := by
  subst hd'
  split
  · exact h
  · refine ⟨h.ops_eq, h.current, fun slot took memory env hobeyed hd => ?_⟩
    obtain ⟨env',hgives,hholds⟩ := h.values slot took memory env hobeyed hd
    exact ⟨env', hgives, hholds.fewer fun x u hx => ((he.sorted.get?_forget _ t x u).1 hx).1⟩

end Draft

section

variable {α : Type} {slot : Register → Register} {memory : Register → Datum α} {args : List Arg}
  {passed : List Passed}

section

variable {function : String} {results : List Register} {position : Nat}
variable (hpassed : Forall₂ Arg.PassedAs args passed)
variable (h : rebindThreads function results position passed d = .ok ((), d')) (hsorted : d.scope.Sorted)

include hpassed h hsorted

theorem holdsOn_rebindThreads {env : Env α} (hd : d.HoldsOn only slot memory env) :
    ∃ env', env.thread ((results.drop position).map fun t => memory (slot t)) args = some env' ∧
      d'.HoldsOn only slot memory env' := by
  induction hpassed generalizing position d env with
  | nil =>
    obtain ⟨-,rfl⟩ := (pure_eq_ok _ _).1 h
    exact ⟨env, by simp [Env.thread], hd⟩
  | @cons arg p _ _ hp _ ih =>
    have htail : ((results.drop position).map fun t => memory (slot t)).tail =
        (results.drop (position + 1)).map fun t => memory (slot t) := by
      rw [← map_tail,tail_drop]
    obtain ⟨e,hrest,hstep⟩ := rebindThreads_cons h
    cases arg with
    | value v =>
      have hp : p.thread = none := hp
      obtain ⟨-,rfl⟩ | ⟨x,r,hx,-⟩ := hstep
      · rw [Env.thread,htail]
        exact ih hrest hsorted hd
      · cases hp.symm.trans hx
    | thread x =>
      obtain ⟨k,hp⟩ := hp
      obtain ⟨hnone,-⟩ | ⟨y,r,hy,hresult,rfl⟩ := hstep
      · cases hp.symm.trans hnone
      · obtain ⟨rfl,-⟩ := Prod.mk.inj (Option.some.inj (hp.symm.trans hy))
        obtain ⟨hlt,rfl⟩ := List.getElem?_eq_some_iff.1 hresult
        rw [drop_eq_getElem_cons hlt,map_cons,Env.thread]
        exact ih hrest (Draft.sorted_giveName hsorted x.node) (hd.giveName hsorted x.node _)

theorem holds_rebindThreads {env : Env α} (hd : d.Holds slot memory env) :
    ∃ env', env.thread ((results.drop position).map fun t => memory (slot t)) args = some env' ∧
      d'.Holds slot memory env' :=
  (holdsOn_rebindThreads hpassed h hsorted (Draft.holdsOn_true.2 hd)).imp fun _ hvalues =>
    hvalues.imp_right Draft.holdsOn_true.1

end

theorem map_leftOver (hpassed : Forall₂ Arg.PassedAs args passed) (results : List Register) :
    (leftOver results passed).map (fun t => memory (slot t)) =
      unthreaded (results.map fun t => memory (slot t)) args := by
  induction hpassed generalizing results with
  | nil => cases results <;> simp [leftOver,unthreaded]
  | @cons arg p _ _ hp _ ih =>
    cases results with
    | nil => simp [leftOver,unthreaded]
    | cons t results =>
      cases arg with
      | value e =>
        have hp : p.thread = none := hp
        simp [leftOver,unthreaded,hp,ih]
      | thread x =>
        obtain ⟨k,hp⟩ := hp
        simp [leftOver,unthreaded,hp,ih]

end

section

variable {α : Type} {natives : Natives α} {f : Frame}

theorem Draft.Evaluates.call {d e d' : Draft} {ts : List Register} {sig : Signature} {args : List Arg}
    {passed : List Passed} {line : List Op} {gives : Env α → List (Datum α) → Env α → Prop}
    (he : e.Valid) (hsync : sig.isSync = true)
    (hargs : Evaluates natives d e (passed.map (·.register)) line gives)
    (hpassed : Forall₂ Arg.PassedAs args passed) (h : callWith f sig passed e = .ok (ts, d')) :
    ∃ op, Evaluates natives d d' ts (line ++ [op]) fun env values env' => ∃ vs env₁, gives env vs env₁ ∧
      env₁.thread (natives sig.name vs) args = some env' ∧
        values = unthreaded (natives sig.name vs) args := by
  obtain ⟨results,op,_,hcall,rfl⟩ := callWith_spec he h
  have hvalid := hcall.valid
  have hre := hcall.rebinds
  obtain ⟨_,done,rfl,-⟩ := hcall.call
  obtain ⟨_,hdraft⟩ := hcall.rebound.draft
  obtain ⟨_,_,_,rfl⟩ := hcall.draft
  rw [Signature.call,if_pos hsync] at hdraft
  refine ⟨.callSync sig.name (passed.map (·.register)) results done, ?_, ?_,
    fun slot took memory env hobeyed hd => ?_⟩
  · rw [hdraft,hargs.ops_eq,hargs.current]
    simp
  · rw [hdraft]
    exact hargs.current
  · obtain ⟨env₁,hgives,hholds⟩ := hargs.values slot took memory env
      (fun op hop => hobeyed op (mem_append_left _ hop)) hd
    have hresults := hobeyed _ (mem_append_right _ (mem_singleton_self _))
    rw [Op.Obeyed] at hresults
    obtain ⟨env₂,hthread,hd'⟩ := holds_rebindThreads hpassed hre hvalid.sorted hholds
    rw [drop_zero,hresults] at hthread
    exact ⟨env₂, ⟨_, env₁, hgives, hthread, by rw [map_leftOver hpassed,hresults]⟩, hd'⟩

/-- What a part of an expression comes to. -/
def Phrase.eval (natives : Natives α) (env : Env α) : Phrase → Option (List (Datum α) × Env α)
  | .value e | .arg (.value e) _ => e.eval natives env
  | .items es => Expr.evalItems natives env es
  | .arg (.thread x) _ => (env x.node).map fun v => ([v], env)
  | .args _ as _ => Arg.evalAll natives env as

theorem Phrase.Lowers.evaluates {p : Phrase} (h : Lowers f p d ts d')
    (hsync : ∀ sig ∈ f.table.entries, sig.isSync = true) (hd : d.Valid) :
    ∃ line, Draft.Evaluates natives d d' ts line fun env vs env' => p.eval natives env =
      some (vs, env') := by
  induction h with
  | @name _ x _ t hx =>
    exact ⟨[], .silent rfl rfl (fun _ _ h => h)
      fun slot memory env hd => by simp [Phrase.eval,Expr.eval,hd x t hx]⟩
  | truth =>
    exact ⟨_, .load rfl (fun _ _ _ h => h) fun env => by simp [Phrase.eval,Expr.eval,Datum.truth]⟩
  | integer | text => exact ⟨_, .load rfl (fun _ _ _ h => h) fun env => by simp [Phrase.eval,Expr.eval]⟩
  | tuple _ ih =>
    obtain ⟨line,hline⟩ := ih hd
    exact ⟨line, by simpa only [Phrase.eval,Expr.eval] using hline⟩
  | @call _ _ _ sig _ _ _ _ _ hlookup hargs hcall ih =>
    have hmem : sig ∈ f.table.entries := mem_of_find?_eq_some hlookup
    obtain ⟨line,hline⟩ := ih hd
    obtain ⟨op,hop⟩ := hline.call (hargs.spec hd).1 (hsync sig hmem) hargs.passedAs.1 hcall
    refine ⟨_, hop.weaken fun env values env' => ?_⟩
    rintro ⟨vs,env₁,hvs,hthread,rfl⟩
    rw [f.table.name_of_lookup hlookup] at hthread ⊢
    simp [Phrase.eval,Expr.eval,show Arg.evalAll natives env _ = _ from hvs,hthread]
  | @compare _ _ lhs rhs d _ e' l t hl _ _ _ ihl ihr =>
    obtain ⟨line,hline⟩ := ihl hd
    obtain ⟨line',hline'⟩ := ihr (hl.spec hd).1
    have hboth : Draft.Evaluates natives d e' [l, t] (line ++ line') fun env vs env' => ∃ a b env₁,
        lhs.eval natives env = some ([a], env₁) ∧ rhs.eval natives env₁ = some ([b], env') ∧
        vs = [a, b] :=
      hline.trans hline' fun slot memory env env₁ env₂ h h' => ⟨_, _, env₁, h, h', rfl⟩
    refine ⟨_, hboth.emit rfl fun slot took memory env env' hop => ?_⟩
    rintro ⟨a,b,env₁,hlhs,hrhs,hvalues⟩
    obtain ⟨rfl,rfl⟩ : memory (slot l) = a ∧ memory (slot t) = b := by simpa using hvalues
    simp [Phrase.eval,Expr.eval,hlhs,hrhs,show memory (slot _) = _ from hop]
  | nil =>
    exact ⟨[], .silent rfl rfl (fun _ _ h => h)
      fun slot memory env hd => by simp [Phrase.eval,Expr.evalItems]⟩
  | cons he _ ih ih' =>
    obtain ⟨line,hline⟩ := ih hd
    obtain ⟨_,hline'⟩ := ih' (he.spec hd).1
    refine ⟨_, hline.trans hline' fun slot memory env env₁ env₂ h h' => ?_⟩
    simp only [Phrase.eval,map_cons,map_nil] at h h'
    simp [Phrase.eval,Expr.evalItems,h,h']
  | @thread x _ t hx =>
    exact ⟨[], .silent rfl rfl (fun _ _ h => h)
      fun slot memory env hd => by simp [Phrase.eval,hd x.node t hx]⟩
  | pass _ ih => exact ih hd
  | done =>
    exact ⟨[], .silent rfl rfl (fun _ _ h => h)
      fun slot memory env hd => by simp [Phrase.eval,Arg.evalAll]⟩
  | @next _ _ arg _ _ _ _ _ _ _ _ _ harg _ hpass _ ih ih' =>
    obtain ⟨_,hfirst⟩ := ih hd
    have he := (harg.spec hd).1
    obtain ⟨_,hline⟩ := ih' (@Draft.passed_spec anyOutline _ _ _ _ he hpass).1
    refine ⟨_, (hfirst.passed he hpass).trans hline fun slot memory env env₁ env₂ h h' => ?_⟩
    simp only [Phrase.eval,map_cons,map_nil] at h h'
    cases arg with
    | value v => simp [Phrase.eval,Arg.evalAll,h,h']
    | thread x =>
      obtain ⟨v,hv,hvalues⟩ := Option.map_eq_some_iff.1 h
      simp only [Prod.mk.injEq,cons.injEq,and_true] at hvalues
      obtain ⟨rfl,rfl⟩ := hvalues
      simp [Phrase.eval,Arg.evalAll,hv,h']

theorem Expr.evaluates (hsync : ∀ sig ∈ f.table.entries, sig.isSync = true) (e : Expr)
    (hd : d.Valid) (h : e.lower f d = .ok (ts, d')) :
    ∃ line, Draft.Evaluates natives d d' ts line fun env vs env' => e.eval natives env =
      some (vs, env') :=
  (e.lowers h).evaluates hsync hd

end

theorem Block.eval_eq {α : Type} (natives : Natives α) (env : Env α) (b : Block) :
    b.eval natives env = Stmt.evalAll natives env b.stmts := by
  cases b
  rw [Block.eval]

def Code.eval {α : Type} (natives : Natives α) (env : Env α) : Code → Option (Outcome α)
  | .stmt s => s.eval natives env
  | .block ss => Stmt.evalAll natives env ss

section

variable {α : Type} {natives : Natives α} {callees : Callees} {took : Condition → Prop}
  {f : Frame} {c : Code}
variable {d d' : Draft} {flow : Flow} {T : List Op} {ended : Bool}

/-- How code ends on a course: the variables go on, or values are returned. -/
inductive Draft.Ends (d' : Draft) (slot : Register → Register) (memory : Register → Datum α)
    (T : List Op) :
    Bool → Outcome α → Prop
  | goes {env : Env α} (h : d'.Holds slot memory env) : Ends d' slot memory T false (.continues env)
  | exit {front : List Op} {values garbage : List Register} (h : T = front ++ [.ret values garbage]) :
      Ends d' slot memory T true (.returns (values.map fun t => memory (slot t)))

theorem Draft.Ends.prepend {memory : Register → Datum α} {out : Outcome α}
    (h : d'.Ends slot memory T ended out) (T₀ : List Op) : d'.Ends slot memory (T₀ ++ T) ended out := by
  cases h with
  | goes h => exact .goes h
  | exit h => exact .exit (h ▸ (append_assoc ..).symm)

theorem exitValues_evaluate (hsync : ∀ sig ∈ f.table.entries, sig.isSync = true)
    {span : Span} {value : Option Expr} {e : Draft} {ts : List Register} (hd : d.Valid)
    (h : exitValues f value d = .ok (ts, e)) :
    ∃ line, Draft.Evaluates natives d e ts line fun env vs _ =>
      (Stmt.ret span value).eval natives env = some (.returns vs) := by
  cases value with
  | none =>
    obtain ⟨rfl,rfl⟩ := (pure_eq_ok _ _).1 h
    exact ⟨[], .silent rfl rfl (fun _ _ h => h) fun slot memory env hd => by simp [Stmt.eval]⟩
  | some value =>
    obtain ⟨line,hline⟩ := value.evaluates hsync hd h
    exact ⟨line, hline.weaken fun env vs env' heval => by simp [Stmt.eval,heval]⟩

theorem Code.loops_arm {span : Span} {cond : Expr} {onTrue onFalse : Block} (side : Bool)
    (h : (Code.stmt (.branch span cond onTrue onFalse)).loops = []) :
    (Code.block (bif side then onTrue else onFalse).stmts).loops = [] := by
  obtain ⟨hT,hF⟩ : onTrue.loops = [] ∧ onFalse.loops = [] := by simpa [loops,Stmt.loops] using h
  cases side with
  | true => exact onTrue.loops_eq.symm.trans hT
  | false => exact onFalse.loops_eq.symm.trans hF

theorem Code.loops_cons {ss : List Stmt} (h : (Code.block (s :: ss)).loops = []) :
    (Code.stmt s).loops = [] ∧ (Code.block ss).loops = [] := by
  simpa [loops,loopsOfStmts] using h

theorem Draft.Handover.holds {ops : List Op} {memory : Register → Datum α} {env : Env α} {e : Draft}
    (h : Handover e.scope d' slot ops) (he : e.Holds slot memory env)
    (hobeyed : ∀ op ∈ ops, op.Obeyed natives slot took memory) : d'.Holds slot memory env := by
  intro x j hx
  obtain ⟨t,u,ht,hslot,hcopy⟩ := h.names x j hx
  rw [he x t ht,← hslot]
  rcases hcopy with rfl | hmove
  · rfl
  · rw [show memory (slot u) = _ from hobeyed _ hmove]

theorem Stmt.evalAll_of_returns {env : Env α} {vs : List (Datum α)}
    (h : s.eval natives env = some (.returns vs)) (ss : List Stmt) :
    Stmt.evalAll natives env (s :: ss) = some (.returns vs) := by
  simp [Stmt.evalAll,h]

theorem Stmt.evalAll_of_continues {env env' : Env α} (h : s.eval natives env = some (.continues env'))
    (ss : List Stmt) :
    Stmt.evalAll natives env (s :: ss) = Stmt.evalAll natives env' ss := by
  simp [Stmt.evalAll,h]

theorem Course.evaluates (h : Course callees took f c d flow d' T ended)
    (hsync : ∀ sig ∈ f.table.entries, sig.isSync = true) (hloops : c.loops = [])
    (hslot : d'.Respects slot) {memory : Register → Datum α}
    (hobeyed : ∀ op ∈ T, op.Obeyed natives slot took memory) {env : Env α}
    (hd : d.Holds slot memory env) :
    ∃ out, c.eval natives env = some out ∧ d'.Ends slot memory T ended out := by
  induction h generalizing env with
  | @bind _ names value _ _ ts _ hd' hvalue hlen hops =>
    obtain ⟨line,hline⟩ := value.evaluates hsync hd' hvalue
    obtain rfl := Draft.line_unique hline.ops_eq hops
    obtain ⟨⟨_,hstraight⟩,-⟩ := value.straight f.table.callees_cover hd' hvalue
    obtain ⟨env',heval,he⟩ := hline.values slot took memory env hobeyed hd
    have hnames := he.giveNames (hstraight.valid hd').sorted (names.map (·.node)) ts
    exact ⟨_, by simp [Code.eval,Stmt.eval,heval,hlen], .goes hnames⟩
  | @run _ value _ _ _ hd' hvalue hops =>
    obtain ⟨line,hline⟩ := value.evaluates hsync hd' hvalue
    obtain rfl := Draft.line_unique hline.ops_eq hops
    obtain ⟨env',heval,he⟩ := hline.values slot took memory env hobeyed hd
    rw [map_nil] at heval
    exact ⟨_, by simp [Code.eval,Stmt.eval,heval], .goes he⟩
  | @exit span _ _ _ _ _ hd' hvalues hops =>
    obtain ⟨line,hline⟩ := @exitValues_evaluate _ _ _ _ hsync span _ _ _ hd' hvalues
    obtain rfl := Draft.line_unique hline.ops_eq hops
    obtain ⟨env',heval,-⟩ :=
      hline.values slot took memory env (fun op hop => hobeyed op (mem_append_left _ hop)) hd
    exact ⟨_, heval, .exit rfl⟩
  | @branch _ cond onTrue onFalse d₀ d dt df d' test _ _ _ _ _ seam _ T side ended hd₀ htest hops harms
      hbehind htook harm hseam _ _ ih =>
    obtain ⟨_,hline⟩ := cond.evaluates hsync hd₀ htest
    obtain rfl := Draft.line_unique hline.ops_eq hops
    simp only [mem_append,mem_singleton] at hobeyed
    obtain ⟨env₁,heval,hd⟩ :=
      hline.values slot took memory env (fun op hop => hobeyed op (.inl (.inl (.inl hop)))) hd
    rw [map_singleton] at heval
    obtain ⟨htrue,hfalse⟩ := hobeyed _ (.inl (.inl (.inr rfl)))
    have hside : (memory (slot test)).isTrue = side := by
      cases side with
      | true => exact htrue htook
      | false => exact hfalse htook
    have hstart : (d.armStart dt test side).Holds slot memory env₁ := hd.fewer fun x t hx => by
      rwa [Draft.scope_armStart] at hx
    obtain ⟨out,hout,hends⟩ := ih (Code.loops_arm side hloops) (harms.respects_arm hbehind hslot side)
      (fun op hop => hobeyed op (.inl (.inr hop))) hstart
    have hvalue : (bif side then onTrue else onFalse).eval natives env₁ = some out :=
      (Block.eval_eq ..).trans hout
    refine ⟨out, ?_, ?_⟩
    · cases side with
      | true => simpa [Code.eval,Stmt.eval,heval,hside] using hvalue
      | false => simpa [Code.eval,Stmt.eval,heval,hside] using hvalue
    · cases hends with
      | goes hend =>
        exact .goes ((harms.handover hbehind hslot hseam harm.continues).holds hend fun op hop =>
          hobeyed op (.inr hop))
      | exit hend =>
        rw [cond_true,append_nil]
        exact Draft.Ends.prepend (.exit hend) _
  | loop _ => simp [Code.loops,Stmt.loops] at hloops
  | nil => exact ⟨_, by simp [Code.eval,Stmt.evalAll], .goes hd⟩
  | last hs ih =>
    obtain rfl := hs.ended_of_returns rfl
    obtain ⟨out,hout,hends⟩ := ih (Code.loops_cons hloops).1 hslot hobeyed hd
    cases hends with
    | exit hend => exact ⟨_, Stmt.evalAll_of_returns hout _, .exit hend⟩
  | stop hgrows _ ih =>
    obtain ⟨out,hout,hends⟩ := ih (Code.loops_cons hloops).1 (hslot.of_grows hgrows) hobeyed hd
    cases hends with
    | exit hend => exact ⟨_, Stmt.evalAll_of_returns hout _, .exit hend⟩
  | @cons _ _ _ e _ _ _ _ _ _ hgrows _ _ _ _ ih ih' =>
    obtain ⟨hs,hss⟩ := Code.loops_cons hloops
    simp only [mem_append] at hobeyed
    obtain ⟨out,hout,hends⟩ :=
      ih hs (hslot.of_grows hgrows) (fun op hop => hobeyed op (.inl (.inl hop))) hd
    cases hends with
    | @goes env' he =>
      have hswept : (e.swept f).Holds slot memory env' := he.fewer fun x t hx => by
        rwa [Draft.swept,(Draft.freeAll_spec e f _).1] at hx
      obtain ⟨out,hout',hends⟩ := ih' hss hslot (fun op hop => hobeyed op (.inr hop)) hswept
      exact ⟨out, (Stmt.evalAll_of_continues hout _).trans hout', hends.prepend _⟩

theorem holds_bindParams {memory : Register → Datum α} {ps : List (String × Kind)}
    {registers : Registers} {scope : Scope} {env : Env α} {args : List (Datum α)}
    (hlen : args.length = ps.length)
    (hargs : ∀ k v, args[k]? = some v → memory (slot (registers.size + k)) = v)
    (hscope : ∀ x t, scope.get? x = some t → env x = some (memory (slot t))) (x : String) (t : Register)
    (hx : (Draft.bindParams ps (registers, scope)).2.get? x = some t) :
    env.setAll (ps.map (·.1)) args x = some (memory (slot t)) := by
  induction ps generalizing registers scope env args with
  | nil =>
    rw [length_eq_zero_iff.1 hlen]
    exact hscope x t hx
  | cons p ps ih =>
    cases args with
    | nil => cases hlen
    | cons v args =>
      refine @ih (registers.alloc p.2).2 (scope.bind p.1 registers.size) (env.set p.1 v) args
        (Nat.succ.inj hlen) (fun k u hk => ?_) (fun y u hy => ?_) hx
      · rw [registers.size_alloc,Nat.add_assoc,Nat.add_comm 1]
        exact hargs (k + 1) u hk
      · rw [Scope.get?_bind] at hy
        split at hy
        · rename_i hyx
          cases hy
          rw [hyx,← hargs 0 v rfl]
          exact Function.update_self ..
        · rename_i hyx
          exact (Function.update_of_ne hyx ..).trans (hscope y u hy)

theorem Routine.tracks_entry {r : Routine} {mixed : Prop} (hordered : r.Ordered mixed)
    (args : List (Datum α)) :
    r.Tracks natives (· ∈ (List.range r.paramCount).map r.slot)
      [.entry] r.ops .start (r.entry args) := by
  have hentry : ∀ c ∈ [Condition.entry], c ∉ flagsIn r.ops := by
    intro c hc hflag
    rw [mem_singleton.1 hc] at hflag
    exact absurd (hordered.fresh.bound _ hflag).1 (Nat.not_succ_le_zero 0)
  refine ⟨rfl, fun x => ?_, fun c hc => hc, fun c hc => ⟨hentry c hc, fun h => h⟩, hentry, ?_, ?_⟩
  · simp [Routine.entry,Machine.write,Given,writes,Walk.start]
  · exact fun op hop => absurd hop not_mem_nil
  · exact fun op hop => absurd hop not_mem_nil

end

theorem Op.runs_of_inPlace {α : Type} {natives : Natives α} {op : Op} (hplace : op.inPlace = true)
    (hresults : ∀ callee args results done, op = .callSync callee args results done →
      ∀ vs, (natives callee vs).length = results.length) :
    op.Runs natives := by
  cases op with
  | callSync callee args results done => exact hresults callee args results done rfl
  | rename | loadInteger | loadString | compare | branch | free | ret => trivial
  | callAsync | makeTuple | unpackTuple | checkUnionTag | extractUnionValue | restartLoop => cases hplace

section

variable {α : Type} {natives : Natives α} {table : SignatureTable} {d : Decl} {body : Block}
  {log : List Event} {l : Lowered}
variable (h : lowerFunction table d body log = .ok l)

include h

theorem runs_of_lowerFunction (hfit : natives.Fit table)
    (hsync : ∀ sig ∈ table.entries, sig.isSync = true) (hloops : body.loops = []) :
    ∀ g ∈ l.routine.ops, g.op.Runs natives := by
  have hknown : KnowsTable (fun name o => ∃ sig ∈ table.entries, sig.name = name ∧
      sig.outline = o) table :=
    fun _ sig hsig => ⟨sig, mem_of_find?_eq_some hsig, rfl, rfl⟩
  have hclosures : ∀ c ∈ l.closures, ∃ sig ∈ table.entries, sig.name = c.name ∧
      sig.outline = c.outline := by
    intro c hc
    obtain ⟨_,_,_,_,_,_,_,hmem,-⟩ := (closure_of_lowerFunction h hc).1
    cases hloops ▸ hmem
  have hkinded := kinded_of_lowerFunction h hknown hclosures mem_cons_self
  have hschedules : body.schedules table = false := by
    rw [← any_startsChild_of_lowerFunction h,any_eq_false]
    intro g hg hstarts
    have hop := hkinded g hg
    cases heq : g.op <;> simp only [heq,Op.startsChild,Bool.false_eq_true] at hstarts
    rw [heq] at hop
    obtain ⟨_,⟨sig,hsig,-,rfl⟩,hasync,-⟩ := hop
    cases (hsync sig hsig).symm.trans hasync
  intro g hg
  refine Op.runs_of_inPlace (inPlace_of_lowerFunction h hschedules g hg)
    fun callee args results done heq vs => ?_
  have hop := hkinded g hg
  rw [heq] at hop
  obtain ⟨_,⟨sig,hsig,rfl,rfl⟩,-,-,hresults⟩ := hop
  rw [hfit sig hsig vs]
  simpa [Signature.outline] using (congrArg length hresults).symm

/-- A scan of a function follows a walk to its exit, if every slot gets one value and all operations can
be carried out. -/
theorem scan_of_fillsOnce (honce : l.routine.FillsOnce) (hruns : ∀ g ∈ l.routine.ops, g.op.Runs natives)
    (args : List (Datum α)) : ∃ v ∈ Walk.start.through l.routine.ops, ∃ memory values garbage front,
      l.routine.scan natives l.routine.ops (l.routine.entry args) =
          .returned (values.map fun t => memory (l.routine.slot t)) ∧
        v.trace = front ++ [.ret values garbage] ∧
        (∀ op ∈ v.trace, op.Obeyed natives l.routine.slot (· ∈ v.chosen) memory) ∧
        ∀ x ∈ (l.routine.entry args).ready, memory x = (l.routine.entry args).memory x := by
  have hordered : l.routine.Ordered True := ordered_of_lowerFunction h (.inr ⟨rfl, fun _ => trivial⟩)
  have hfeeds := feeds_of_lowerFunction h mem_cons_self
  obtain ⟨_,_,-,hcourse⟩ := exists_course h
  refine Routine.scan_follows (Routine.tracks_entry hordered args) hordered.shape.heralded
    hordered.fresh.nodup (fun v hv => ?_) fun v hv => (hcourse v hv).ended_of_returns rfl
  have hpath : v.trace ∈ l.routine.paths := mem_map_of_mem hv
  obtain ⟨-,hnodup,happart⟩ := nodup_append.1 (honce _ hpath)
  refine ⟨hfeeds _ hpath, hnodup, fun x hx hbase => happart x hbase x hx rfl, fun op hop => ?_⟩
  obtain ⟨g,hg,rfl⟩ := (Walk.mem_of_trace hv hop).resolve_left not_mem_nil
  exact hruns g hg

end

/-- A function without loops that calls in place returns what its body returns, if every slot gets one
value. -/
theorem computes_of_fillsOnce {α : Type} {natives : Natives α} {table : SignatureTable} {d : Decl}
    {body : Block} {log : List Event} {l : Lowered} (h : lowerFunction table d body log = .ok l)
    (hfit : natives.Fit table) (hsync : ∀ sig ∈ table.entries, sig.isSync = true)
    (hloops : body.loops = []) (honce : l.routine.FillsOnce) :
    l.routine.Computes natives d body := by
  intro args hargs
  obtain ⟨v,hv,memory,values,garbage,_,hscan,htrace,hobeyed,hmemory⟩ :=
    scan_of_fillsOnce h honce (runs_of_lowerFunction h hfit hsync hloops) args
  obtain ⟨_,draft,hroutine,hcourse⟩ := exists_course h
  have hloops : (Code.block body.stmts).loops = [] := body.loops_eq.symm.trans hloops
  have hparams : ((List.range l.routine.paramCount).map l.routine.slot).map memory = args := by
    have hnodup := (nodup_append.1 (honce _ (mem_map_of_mem hv))).1
    refine Eq.trans (map_congr_left fun x hx => hmemory x (mem_append_left _ hx)) ?_
    exact Machine.map_store hnodup (by simpa using hargs.symm)
  have hcount : l.routine.paramCount = d.typedParams.length := by
    rw [hroutine]
    rfl
  have hholds : (Draft.start d.typedParams log).Holds l.routine.slot memory (d.env args) := by
    refine holds_bindParams (hargs.trans hcount) (fun k v hk => ?_) (by simp)
    rw [← hparams,getElem?_map,getElem?_map,Option.map_map,Option.map_eq_some_iff] at hk
    obtain ⟨i,hi,rfl⟩ := hk
    obtain ⟨-,rfl⟩ := List.getElem?_eq_some_iff.1 hi
    simp [Registers.size,Registers.empty]
  have hslot : draft.Respects l.routine.slot := hroutine ▸ respects_routine draft _
  obtain ⟨_,hout,hends⟩ := (hcourse v hv).evaluates hsync hloops hslot hobeyed hholds
  rw [(hcourse v hv).ended_of_returns rfl] at hends
  cases hends with
  | @exit _ values' garbage' hend =>
    obtain ⟨-,hlast⟩ := append_inj' (htrace.symm.trans hend) rfl
    obtain ⟨rfl,-⟩ : values = values' ∧ garbage = garbage' := by simpa using hlast
    exact ⟨1, _, (body.eval_eq natives _).trans hout, by rw [Routine.run,hscan]⟩

def stampTable : SignatureTable where
  entries :=
    [⟨"step", "main", true, true, [("n", .lent .integer)], [.owned .integer], .nowhere⟩,
      ⟨"mark", "main", true, true, [("s", .owned .string), ("n", .lent .integer)],
        [.owned .string], .nowhere⟩]

/-- `step` counts, and `mark` gives back what it gets. -/
def stampNatives : Natives Unit := fun name args =>
  [if name = "step" then .integer ((args.headD (.integer 0)).toInt + 1) else args.headD (.text "")]

/-- `func stamp(c: Boolean, s: String): (String, Integer)` -/
def stamp : Decl where
  span := .nowhere
  name := bare "stamp"
  isSync := false
  isNative := false
  params := [⟨bare "c", bare (.owned .boolean)⟩, ⟨bare "s", bare (.owned .string)⟩]
  returns := [bare (.owned .string), bare (.owned .integer)]
  body := none

/-- `let n = 1 if c { let n = step(n) mark(&s, n) } else {} return (s, n)` -/
def stampBody : Block where
  span := .nowhere
  stmts :=
    [.bind .nowhere [bare "n"] (.integer .nowhere 1),
      .branch .nowhere (.name .nowhere "c")
        ⟨.nowhere, [.bind .nowhere [bare "n"]
          (.call .nowhere (bare "step") [.value (.name .nowhere "n")]),
          .run .nowhere
            (.call .nowhere (bare "mark") [.thread (bare "s"), .value (.name .nowhere "n")])]⟩
        ⟨.nowhere, []⟩,
      .ret .nowhere (some (.tuple .nowhere [.name .nowhere "s", .name .nowhere "n"]))]

def stamped : Lowered :=
  match lowerFunction stampTable stamp stampBody [] with
  | .ok l => l
  | .error halt => ⟨.native stamp.name.node false [] [], [], halt.log⟩

theorem lowerFunction_stamp : lowerFunction stampTable stamp stampBody [] = .ok stamped := by cbv

theorem stamp_computes : stampNatives.Fit stampTable ∧ stamped.routine.FillsOnce ∧
    stamped.routine.Computes stampNatives stamp stampBody :=
  have hone : ∀ sig ∈ stampTable.entries, sig.returns.length = 1 := by decide
  have hfit : stampNatives.Fit stampTable := fun sig hsig _ => (hone sig hsig).symm
  have honce : stamped.routine.FillsOnce := by decide +kernel
  ⟨hfit, honce, computes_of_fillsOnce lowerFunction_stamp hfit (by decide) rfl honce⟩

/-- `func both(c: Boolean): (Integer, Integer)` -/
def both : Decl where
  span := .nowhere
  name := bare "both"
  isSync := false
  isNative := false
  params := [⟨bare "c", bare (.owned .boolean)⟩]
  returns := [bare (.owned .integer), bare (.owned .integer)]
  body := none

/-- `if c { let a = 1 let b = 2 } else { let a = 3 let b = a } return (a, b)` -/
def bothBody : Block where
  span := .nowhere
  stmts :=
    [.branch .nowhere (.name .nowhere "c")
        ⟨.nowhere, [.bind .nowhere [bare "a"] (.integer .nowhere 1), .bind .nowhere [bare "b"]
          (.integer .nowhere 2)]⟩
        ⟨.nowhere, [.bind .nowhere [bare "a"] (.integer .nowhere 3), .bind .nowhere [bare "b"]
          (.name .nowhere "a")]⟩,
      .ret .nowhere (some (.tuple .nowhere [.name .nowhere "a", .name .nowhere "b"]))]

def joined : Lowered :=
  match lowerFunction .empty both bothBody [] with
  | .ok l => l
  | .error halt => ⟨.native both.name.node false [] [], [], halt.log⟩

theorem lowerFunction_both : lowerFunction .empty both bothBody [] = .ok joined := by cbv

/-- Two names for one value in an arm join the values that they have in the other. -/
theorem not_computes : ¬∀ (α : Type) (natives : Natives α) table d body log l, natives.Fit table →
    (∀ sig ∈ table.entries, sig.isSync = true) → body.loops = [] →
      lowerFunction table d body log = .ok l → l.routine.Computes natives d body := by
  intro hall
  have hcomputes := hall Unit (fun _ _ => []) _ _ _ _ _ (by rintro _ ⟨⟩) (by rintro _ ⟨⟩) rfl
    lowerFunction_both
  obtain ⟨n,_,heval,hrun⟩ := hcomputes [.integer 1] (by decide +kernel)
  have hvalues : bothBody.eval (fun _ _ => []) (both.env [.integer 1]) =
      some (.returns [(.integer 1 : Datum Unit), .integer 2]) := by cbv
  have hscan : joined.routine.scan (fun _ _ => []) joined.routine.ops
    (joined.routine.entry [(.integer 1 : Datum Unit)]) =
      .returned [.integer 1, .integer 1] := by cbv
  rw [hvalues] at heval
  cases heval
  cases n with
  | zero => cases hrun
  | succ n =>
    rw [Routine.run,hscan] at hrun
    cases hrun

end Polled
