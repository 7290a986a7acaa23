import Polled.Proofs.Lines
import Polled.Proofs.Resources

/-!
Lowering as a derivation.

`Lowers` has one rule for each kind of statement, with the drafts in between. What holds of all lowered
code is shown by induction over it. A closure is what one round of a loop is lowered to (`Closure`).
-/

namespace Polled

open Lower Passage List

variable {callees : Callees} {table : SignatureTable} {f : Frame} {cond : Expr}
  {d d' : Draft} {flow : Flow}
variable {body : Block}

/-- A statement, or statements one after the other. -/
inductive Code where
  | stmt (s : Stmt)
  | block (ss : List Stmt)

def Code.loops : Code → List (Expr × Block)
  | .stmt s => s.loops
  | .block ss => loopsOfStmts ss

theorem Block.loops_eq (b : Block) : b.loops = Code.loops (.block b.stmts) := by
  obtain ⟨_,_⟩ := b
  rw [Block.loops,Code.loops]

namespace Draft

/-- What no name reaches is freed. -/
def swept (d : Draft) (f : Frame) : Draft :=
  d.freeAll f ((d.registers.unreachable (d.scope.reachable d.registers)).map fun r => (r, d.current))

def exitGarbage (d : Draft) (rs : List Register) : List Register :=
  d.registers.unreachable (orderedSet (rs.map d.registers.resolve))

@[simp] theorem current_disownAll (d : Draft) (rs : List Register) :
    (d.disownAll rs).current = d.current := by
  obtain ⟨_,heq,-⟩ := d.exists_disownAll rs
  rw [heq]

/-- The draft behind an exit. -/
def leave (d : Draft) (rs : List Register) : Draft :=
  (d.disownAll (d.exitGarbage rs ++ orderedSet (rs.map d.registers.resolve))).emit d.current
    (.ret rs (d.exitGarbage rs))

/-- The end of a round: the condition is looked at again, and the captured values go one of two ways. -/
def EndsRound (f : Frame) (cond : Expr) (d d' : Draft) : Prop :=
  ∃ t e values kept, cond.lower f d = .ok ([t], e) ∧
    (e.registers.kind t).convert (.lent .boolean) = .ok () ∧
    f.params.map (fun p => e.scope.get? p.1) = values.map some ∧
      values.map e.registers.kind = f.params.map (·.2) ∧
    d' = e.round t values (e.exitGarbage values) kept

/-- The place of a loop, whose closure has been made. -/
def Encloses (f : Frame) (cond : Expr) (captures : List Capture) (count : Nat) (new : List Routine)
    (d d' : Draft) : Prop :=
  ∃ log t e sources slot done control,
    cond.lower f (d.enclose (captures.map (·.kind)) count log new) = .ok ([t], e) ∧
    (e.registers.kind t).convert (.lent .boolean) = .ok () ∧
    captures.map (fun c => e.scope.get? c.name) = sources.map some ∧
    (captures = [] ∧ done = some e.control.conditionCount ∧
      control.conditionCount = e.control.conditionCount + 1 ∨
      captures ≠ [] ∧ done = none ∧ control.conditionCount = e.control.conditionCount) ∧
    d' = d.around e t control (f.loop count captures).name slot done captures sources

end Draft

open Draft

inductive Lowers (callees : Callees) : Frame → Code → Draft → Flow → Draft → Prop
  | bind {f : Frame} {span : Span} {names : List (Located String)} {value : Expr} {d e : Draft}
      {rs : List Register}
      (hd : d.Valid) (hvalue : value.lower f d = .ok (rs, e)) (hlen : rs.length = names.length) :
      Lowers callees f (.stmt (.bind span names value)) d .continues
        (e.giveNames (names.map (·.node)) rs)
  | run {f : Frame} {span : Span} {value : Expr} {d e : Draft} (hd : d.Valid)
      (hvalue : value.lower f d = .ok ([], e)) : Lowers callees f (.stmt (.run span value))
        d .continues e
  | exit {f : Frame} {span : Span} {value : Option Expr} {d e : Draft} {rs : List Register}
      (hd : d.Valid) (hout : f.inLoop = false) (hvalues : exitValues f value d = .ok (rs, e))
      (hfits : Fits e.registers.kind rs f.returnKinds) :
      Lowers callees f (.stmt (.ret span value)) d .returns (e.leave rs)
  | branch {f : Frame} {span : Span} {cond : Expr} {onTrue onFalse : Block} {d₀ d dt df d' : Draft}
      {test : Register}
      {flowT flowF flow : Flow} {opsT opsF : List GuardedOp} (hd₀ : d₀.Valid)
        (htest : cond.lower f d₀ = .ok ([test], d))
      (htruth : (d.registers.kind test).convert (.lent .boolean) = .ok ())
      (harms : Arms callees False d test dt df flowT flowF opsT opsF)
      (hT : Lowers callees f (.block onTrue.stmts) (d.fork test) flowT dt)
      (hF : Lowers callees f (.block onFalse.stmts)
        ((dt.resume d).under (d.armCondition false)) flowF df)
      (hbehind : Behind f span d dt df d' flowT flowF flow) :
      Lowers callees f (.stmt (.branch span cond onTrue onFalse)) d₀ flow d'
  | loop {f : Frame} {span : Span} {cond : Expr} {body : Block} {d d₁ draft d' : Draft} {count : Nat}
      {captures : List Capture} {log : List Event} {ops : List GuardedOp} (hd : d.Valid)
      (hcaptures : captures = d.captures (loopNames cond body)) (hcount : d.loopCount < count)
      (hfresh : f.table.lookup? (f.loop count captures).name = none)
      (hadvance : Advances callees False (.start (f.loop count captures).params log) d₁ .continues ops)
      (hbody : Lowers callees (f.loop count captures) (.block body.stmts)
        (.start (f.loop count captures).params log) .continues d₁)
      (hround : EndsRound (f.loop count captures) cond d₁ draft)
      (hsite : Encloses f cond captures count
        (draft.routine (f.loop count captures) :: draft.closures) d d') :
      Lowers callees f (.stmt (.loop span cond body)) d .continues d'
  | nil {f : Frame} {d : Draft} : Lowers callees f (.block []) d .continues d
  | last {f : Frame} {s : Stmt} {d d' : Draft} (hs : Lowers callees f (.stmt s) d .returns d') :
      Lowers callees f (.block [s]) d .returns d'
  | cons {f : Frame} {s : Stmt} {ss : List Stmt} {d e d' : Draft} {flow : Flow}
      {ops ops' ops'' : List GuardedOp}
      (hadvance : Advances callees False d e .continues ops)
      (hsweep : Advances callees False e (e.swept f) .continues ops')
      (hrest : Advances callees False (e.swept f) d' flow ops'')
      (hs : Lowers callees f (.stmt s) d .continues e)
        (hss : Lowers callees f (.block ss) (e.swept f) flow d') :
      Lowers callees f (.block (s :: ss)) d flow d'

/-- The routine of one round of one of the loops, whose own closures are among `all`. -/
def Closure (callees : Callees) (table : SignatureTable) (loops : List (Expr × Block))
    (all : List Routine) (r : Routine) :
    Prop :=
  ∃ f cond body d₁ d' log ops, (cond, body) ∈ loops ∧ f.table = table ∧ f.isSync = false ∧
    f.inLoop = true ∧
    f.returnKinds = f.params.map (·.2) ∧ Advances callees False (.start f.params log) d₁ .continues ops ∧
    Lowers callees f (.block body.stmts) (.start f.params log) .continues d₁ ∧ EndsRound f cond d₁ d' ∧
    (∀ c ∈ d'.closures, c ∈ all) ∧ r = d'.routine f

theorem Closure.mono {loops loops' : List (Expr × Block)} {all : List Routine} {r : Routine}
    (h : Closure callees table loops all r) (hsub : loops ⊆ loops') :
    Closure callees table loops' all r := by
  obtain ⟨f,cond,body,d₁,d',log,ops,hmem,hround⟩ := h
  exact ⟨f, cond, body, d₁, d', log, ops, hsub hmem, hround⟩

theorem Draft.exists_leave (d : Draft) (rs : List Register) : ∃ registers,
    d.leave rs = { d with registers, ops := d.ops ++ [⟨d.current, .ret rs (d.exitGarbage rs)⟩] } ∧
      registers.layout = d.registers.layout := by
  obtain ⟨registers,heq,hlayout⟩ :=
    d.exists_disownAll (d.exitGarbage rs ++ orderedSet (rs.map d.registers.resolve))
  exact ⟨registers, by rw [leave,heq]; rfl, hlayout⟩

theorem Draft.EndsRound.closures (h : EndsRound f cond d d') : d'.closures = d.closures := by
  obtain ⟨t,e,values,kept,htest,-,-,-,rfl⟩ := h
  exact ((cond.still htest).trans (still_round e t values _ kept)).1

theorem Draft.Encloses.closures {captures : List Capture} {count : Nat} {new : List Routine}
    (h : Encloses f cond captures count new d d') : d'.closures = d.closures ++ new := by
  obtain ⟨_,t,e,_,_,_,_,htest,-,-,-,rfl⟩ := h
  exact closures_around htest

theorem Lowers.closures {c : Code} (h : Lowers callees f c d flow d') (all : List Routine)
    (hall : ∀ r ∈ d'.closures, r ∈ all) :
    ∀ r ∈ d'.closures, r ∈ d.closures ∨ Closure callees f.table c.loops all r ∧
      LoopName f.table f.name r.name := by
  induction h with
  | @bind _ _ names value _ e rs _ hvalue =>
    obtain ⟨_,heq⟩ := e.exists_giveNames (names.map (·.node)) rs
    rw [heq]
    exact fun r hr => .inl ((value.still hvalue).1 ▸ hr)
  | @run _ _ value _ _ _ hvalue => exact fun r hr => .inl ((value.still hvalue).1 ▸ hr)
  | @exit _ _ _ _ e rs _ _ hvalues =>
    obtain ⟨_,heq,-⟩ := e.exists_leave rs
    rw [heq]
    exact fun r hr => .inl ((still_exitValues hvalues).1 ▸ hr)
  | @branch _ _ cond _ onFalse _ _ dt _ _ _ _ _ _ _ _ _ htest _ harms _ _ hbehind ihT ihF =>
    rw [hbehind.still.1] at hall ⊢
    have hdt : ∀ r ∈ dt.closures, r ∈ all := fun r hr => hall r (harms.onFalse.extend.closures.subset hr)
    rw [Code.loops,Stmt.loops,Block.loops_eq,Block.loops_eq]
    intro r hr
    rcases ihF hall r hr with hr | hr
    · rcases ihT hdt r hr with hr | hr
      · exact .inl ((cond.still htest).1 ▸ hr)
      · exact .inr ⟨hr.1.mono (subset_append_left _ _), hr.2⟩
    · exact .inr ⟨hr.1.mono (subset_append_right _ _), hr.2⟩
  | @loop f _ cond body _ d₁ draft _ count captures log ops _ _ _ hfresh hadvance hbody
      hround hsite ih =>
    have hdraft := hround.closures
    rw [hsite.closures] at hall ⊢
    rw [Code.loops,Stmt.loops,Block.loops_eq]
    have hinner : ∀ r ∈ draft.closures, r ∈ all := fun r hr =>
      hall r (mem_append_right _ (mem_cons_of_mem _ hr))
    have hname : LoopName f.table f.name (f.loop count captures).name := .outer hfresh
    have hreturns : (f.loop count captures).returnKinds = (f.loop count captures).params.map (·.2) := by
      simp [Frame.loop]
    intro r hr
    rcases mem_append.1 hr with hr | hr
    · exact .inl hr
    · refine .inr ?_
      rcases mem_cons.1 hr with rfl | hr
      · exact ⟨⟨f.loop count captures, cond, body, d₁, draft, log, ops, mem_cons_self, rfl, rfl, rfl,
          hreturns, hadvance, hbody, hround, hinner, rfl⟩, hname⟩
      · rcases ih (hdraft ▸ hinner) r (hdraft ▸ hr) with hr | ⟨hr,hr'⟩
        · cases hr
        · exact ⟨hr.mono (subset_cons_self _ _), hname.trans hr'⟩
  | nil => exact fun r hr => .inl hr
  | last _ ih =>
    intro r hr
    exact (ih hall r hr).imp_right fun hr => ⟨hr.1.mono (subset_append_left _ _), hr.2⟩
  | @cons f _ _ _ e _ _ _ _ _ _ hsweep hrest _ _ ih ih' =>
    have hswept : ∀ r ∈ (e.swept f).closures, r ∈ e.closures :=
      fun r hr => (e.freeAll_spec f _).2.2.1 ▸ hr
    intro r hr
    rcases ih' hall r hr with hr | hr
    · refine (ih (fun r hr => hall r (hrest.extend.closures.subset (hsweep.extend.closures.subset hr))) r
        (hswept r hr)).imp_right fun hr => ?_
      exact ⟨hr.1.mono (subset_append_left _ _), hr.2⟩
    · exact .inr ⟨hr.1.mono (subset_append_right _ _), hr.2⟩

/-- What a loop is lowered to: a round of its own, and the place where it stands. -/
theorem Stmt.loop_eq_ok {span : Span} (h : (Stmt.loop span cond body).lower f d = .ok (flow, d')) :
    flow = .continues ∧ ∃ count log d₁ draft,
      d.loopCount < count ∧
        f.table.lookup? (f.loop count (d.captures (loopNames cond body))).name = none ∧
      body.lower (f.loop count (d.captures (loopNames cond body)))
        (.start (f.loop count (d.captures (loopNames cond body))).params log) = .ok (.continues, d₁) ∧
      EndsRound (f.loop count (d.captures (loopNames cond body))) cond d₁ draft ∧
      Encloses f cond (d.captures (loopNames cond body)) count
        (draft.routine (f.loop count (d.captures (loopNames cond body))) :: draft.closures) d d' := by
  simp only [Stmt.lower,bind_eq_ok,pure_eq_ok] at h
  obtain ⟨_,_,hloop,rfl,rfl⟩ := h
  obtain ⟨captures,count,_,log,log',t,e,sources,slot,done,control,rfl,hcount,hfresh,hiter,htest,
    htruth,hsources,hflag,rfl⟩ := loopOver_eq_ok hloop
  obtain ⟨_,d₁,t₁,e₁,values,_,kept,hrun,htest₁,htruth₁,hnames,hkinds,rfl,rfl⟩ := iteration_eq_ok hiter
  rw [lowerTest,single_eq_ok] at htest htest₁
  obtain rfl := Block.continues_of_inLoop (f := f.loop count (d.captures (loopNames cond body))) rfl
    body _ _ _ hrun
  exact ⟨rfl, count, log', d₁, _, hcount, hfresh, hrun,
    ⟨t₁, e₁, values, kept, htest₁, htruth₁, hnames, hkinds, rfl⟩,
    ⟨log, t, e, sources, slot, done, control, htest, htruth, hsources, hflag, rfl⟩⟩

mutual
theorem Stmt.lowers {callees : Callees} {f : Frame} (hcover : callees.Cover f.table) :
    (s : Stmt) → {d d' : Draft} → {flow : Flow} → d.Valid → d.current < d.count →
      callees.Know d'.closures → s.lower f d = .ok (flow, d') → Lowers callees f (.stmt s) d flow d'
  | .bind span names value, d, d', flow, hd, _, _, h => by
    simp only [Stmt.lower,bind_eq_ok,unless_eq_ok,bindNames_eq_ok,pure_eq_ok] at h
    obtain ⟨rs,e,hvalue,hlen,_,_,rfl,rfl,rfl⟩ := h
    exact .bind hd hvalue (not_not.1 hlen)
  | .run span value, d, d', flow, hd, _, _, h => by
    simp only [Stmt.lower,bind_eq_ok,unless_eq_ok,pure_eq_ok] at h
    obtain ⟨rs,e,hvalue,hnil,rfl,rfl⟩ := h
    obtain rfl : rs = [] := by simpa using hnil
    exact .run hd hvalue
  | .ret span value, d, d', flow, hd, _, _, h => by
    obtain ⟨_,e,_,rfl,hout,hvalues,hlen,hkinds,rfl,rfl⟩ := lowerExit_eq_ok h
    rw [current_disownAll]
    exact .exit hd hout hvalues ⟨hlen, hkinds⟩
  | .branch span cond onTrue onFalse, d, d', flow, hd, hcurrent, hknow, h => by
    obtain ⟨test,e,_,_,dt,df,htest,htruth,honTrue,honFalse,hbehind⟩ := Stmt.branch_eq_ok h
    obtain ⟨⟨_,hline⟩,-⟩ := Expr.straight hcover cond hd htest
    have he := hline.valid hd
    have hknowF : callees.Know df.closures := hbehind.still.1 ▸ hknow
    have hknowT : callees.Know dt.closures :=
      hknowF.of_prefix (Block.grows f onFalse _ _ _ honFalse).isPrefix
    have hcurrentT : (e.fork test).current < (e.fork test).count := Nat.lt_succ_of_lt (lt_add_one _)
    obtain ⟨⟨_,hopsT⟩,-⟩ := Block.proceeding hcover onTrue False.elim _ _ _ he.fork hcurrentT
      hknowT honTrue
    have hvalid : ((dt.resume e).under (e.armCondition false)).Valid :=
      Valid.resume he hopsT.extend.grows hopsT.extend.wf
    obtain ⟨⟨_,hopsF⟩,-⟩ := Block.proceeding hcover onFalse False.elim _ _ _ hvalid hopsT.extend.count_le
      hknowF honFalse
    exact .branch hd htest htruth ⟨he, hopsT, hopsF⟩
      (Block.lowers hcover onTrue he.fork hcurrentT hknowT honTrue)
      (Block.lowers hcover onFalse hvalid hopsT.extend.count_le hknowF honFalse) hbehind
  | .loop span cond body, d, d', flow, hd, hcurrent, hknow, h => by
    obtain ⟨rfl,count,log,d₁,_,hcount,hfresh,hrun,hround,hsite⟩ := Stmt.loop_eq_ok h
    -- the closures inside of the loop are known, since they end up behind it
    have hknow₁ : callees.Know d₁.closures := by
      rw [hsite.closures,hround.closures] at hknow
      exact fun c hc => hknow c (mem_append_right _ (mem_cons_of_mem _ hc))
    have hstart := valid_start (f.loop count (d.captures (loopNames cond body))).params log
    obtain ⟨⟨_,hops⟩,-⟩ := Block.proceeding (f := f.loop count _) hcover body False.elim _ _ _ hstart
      (lt_add_one 0) hknow₁ hrun
    exact .loop hd rfl hcount hfresh hops
      (Block.lowers (f := f.loop count _) hcover body hstart (lt_add_one 0) hknow₁ hrun) hround hsite

theorem Block.lowers {callees : Callees} {f : Frame} (hcover : callees.Cover f.table) :
    (b : Block) → {d d' : Draft} → {flow : Flow} → d.Valid → d.current < d.count →
      callees.Know d'.closures →
    b.lower f d = .ok (flow, d') → Lowers callees f (.block b.stmts) d flow d'
  | ⟨_, stmts⟩, _, _, _, hd, hcurrent, hknow, h => Stmt.lowers_all hcover stmts hd hcurrent hknow h

theorem Stmt.lowers_all {callees : Callees} {f : Frame} (hcover : callees.Cover f.table) :
    (ss : List Stmt) → {d d' : Draft} → {flow : Flow} → d.Valid → d.current < d.count →
      callees.Know d'.closures →
    Stmt.lowerAll f ss d = .ok (flow, d') → Lowers callees f (.block ss) d flow d'
  | [], d, d', flow, hd, _, _, h => by
    obtain ⟨rfl,rfl⟩ := (pure_eq_ok _ _).1 h
    exact .nil
  | s :: ss, d, d', flow, hd, hcurrent, hknow, h => by
    rcases Stmt.lowerAll_cons_eq_ok h with ⟨hs,rfl,rfl⟩ | ⟨e,e',hs,hsweep,hrest⟩
    · exact .last (Stmt.lowers hcover s hd hcurrent hknow hs)
    · have hswept := still_sweep hsweep
      have hknow' : callees.Know e.closures :=
        hswept.1 ▸ hknow.of_prefix (Stmt.grows_all f ss _ _ _ hrest).isPrefix
      obtain ⟨⟨_,hops⟩,-⟩ := Stmt.proceeding hcover s False.elim _ _ _ hd hcurrent hknow' hs
      have he := hops.valid hd hcurrent
      have hcurrent' := hops.extend.current_lt hcurrent
      obtain ⟨_,hops'⟩ := @advances_sweep callees False e e' f he hsweep
      obtain rfl : e' = e.swept f := (sweep_eq_ok f ()).1 hsweep
      have he' := hops'.valid he hcurrent'
      have hcurrent'' := hops'.extend.current_lt hcurrent'
      obtain ⟨⟨_,hops''⟩,-⟩ := Stmt.proceeding_all hcover ss False.elim _ _ _ he' hcurrent'' hknow hrest
      exact .cons hops hops' hops'' (Stmt.lowers hcover s hd hcurrent hknow' hs)
        (Stmt.lowers_all hcover ss he' hcurrent'' hknow hrest)
end

theorem lowers_of_lowerFunction {d : Decl} {log : List Event} {l : Lowered}
    (h : lowerFunction table d body log = .ok l) :
    ∃ callees draft ops, callees = l.callees table ∧
      Advances callees False (.start d.typedParams log) draft .returns ops ∧
      Lowers callees (d.frame table) (.block body.stmts) (.start d.typedParams log) .returns draft ∧
      l = ⟨draft.routine (d.frame table), draft.closures, draft.log⟩ := by
  obtain ⟨draft,hlower,rfl⟩ := lowerFunction_eq_ok h
  have hcover := Lowered.callees_cover table ⟨draft.routine (d.frame table), draft.closures, draft.log⟩
  have hknow := (Block.grows (d.frame table) body _ _ _ hlower).callees_know
  have hstart := valid_start d.typedParams log
  obtain ⟨⟨ops,hops⟩,-⟩ := Block.proceeding (f := d.frame table) hcover body False.elim _ _ _ hstart
    (lt_add_one 0) hknow hlower
  exact ⟨_, draft, ops, rfl, hops, Block.lowers (f := d.frame table) hcover body hstart (lt_add_one 0)
    hknow hlower, rfl⟩

theorem closure_of_lowerFunction {d : Decl} {log : List Event} {l : Lowered} {r : Routine}
    (h : lowerFunction table d body log = .ok l) (hr : r ∈ l.closures) :
    Closure (l.callees table) table body.loops l.closures r ∧ LoopName table d.name.node r.name := by
  obtain ⟨_,draft,_,hcallees,-,hbody,rfl⟩ := lowers_of_lowerFunction h
  rw [body.loops_eq,← hcallees]
  exact (hbody.closures draft.closures (fun _ hc => hc) r hr).resolve_left not_mem_nil

end Polled
