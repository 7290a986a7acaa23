import Polled.Proofs.Loops

/-!
Statements, blocks and whole routines along all paths.

The callees of a routine are the functions of the table and the closures of its loops. What holds of the
paths of a function holds of the paths of its closures.
-/

namespace Polled

open Lower Passage List

variable {f : Frame} {log : List Event} {span bodySpan condSpan : Span}

/-- The closures are among the callees, with the kinds of their parameters. -/
def Callees.Know (callees : Callees) (closures : List Routine) : Prop :=
  ∀ c ∈ closures, callees c.name = some (c.registerKinds.take c.paramCount)

theorem Callees.Know.of_prefix {callees : Callees} {cs cs' : List Routine} (h : callees.Know cs')
    (hsub : cs <+: cs') : callees.Know cs :=
  fun c hc => h c (hsub.subset hc)

theorem Registers.kinds_eq (f : Registers) : f.kinds = (List.range f.size).map f.kind := by
  refine ext_getElem? fun i => ?_
  rw [kinds,getElem?_map,getElem?_map]
  rcases lt_or_ge i f.size with hi | hi
  · obtain ⟨c,hc⟩ := f.exists_cell hi
    simp [getElem?_range hi,hc,kind]
  · rw [getElem?_eq_none hi,getElem?_eq_none (by simpa using hi)]
    rfl

theorem Registers.take_kinds {f g : Registers} (h : f.layout.Grows g.layout) :
    g.kinds.take f.size = f.kinds := by
  have hle : f.size ≤ g.size := h.size_le
  rw [g.kinds_eq,f.kinds_eq,← map_take,take_range,Nat.min_eq_left hle]
  exact map_congr_left fun r hr => h.kind_old r (mem_range.1 hr)

/-- Registers and names of a routine before its first statement. -/
structure Entry (f : Registers) (s : Scope) : Prop where
  root : ∀ r, f.resolve r = r
  live : ∀ r, r < f.size → f.isLive r = true
  sorted : s.Sorted
  bound : ∀ x r, s.get? x = some r → r < f.size
  single : ∀ x y r, s.get? x = some r → s.get? y = some r → x = y

theorem Entry.bindParams {f : Registers} {s : Scope} (h : Entry f s) (ps : List (String × Kind)) :
    Entry (Draft.bindParams ps (f, s)).1 (Draft.bindParams ps (f, s)).2 ∧
      (Draft.bindParams ps (f, s)).1.kinds = f.kinds ++ ps.map (·.2) := by
  induction ps generalizing f s with
  | nil => exact ⟨h, (append_nil _).symm⟩
  | cons p ps ih =>
    have hnext : Entry (f.alloc p.2).2 (s.bind p.1 f.size) := by
      refine ⟨fun r => (f.resolve_alloc p.2 r).trans (h.root r), fun r hr => ?_,
        h.sorted.bind _ _, ?_, ?_⟩
      · rw [f.isLive_alloc]
        rcases Nat.lt_succ_iff_lt_or_eq.1 (f.size_alloc p.2 ▸ hr) with hr | rfl
        · simp [h.live r hr]
        · simp
      · intro x r hx
        rw [Scope.get?_bind] at hx
        rw [f.size_alloc]
        split at hx
        · cases hx
          exact Nat.lt_add_one _
        · exact Nat.lt_succ_of_lt (h.bound x r hx)
      · intro x y r hx hy
        rw [Scope.get?_bind] at hx hy
        split at hx
        · rename_i hxp
          cases hx
          split at hy
          · rename_i hyp
            exact hxp.trans hyp.symm
          · exact absurd (h.bound y _ hy) (lt_irrefl _)
        · split at hy
          · cases hy
            exact absurd (h.bound x _ hx) (lt_irrefl _)
          · exact h.single x y r hx hy
    obtain ⟨hentry,hkinds⟩ := ih hnext
    refine ⟨hentry, hkinds.trans ?_⟩
    simp [Registers.kinds,Registers.alloc]

namespace Draft

variable {callees : Callees} {strict : Prop} {d d' : Draft} {flow : Flow} {ops : List GuardedOp}

section

variable (params : List (String × Kind)) (log : List Event)

theorem entry_start : Entry (start params log).registers (start params log).scope ∧
      (start params log).registers.kinds = params.map (·.2) := by
  have hempty : Entry .empty .empty :=
    ⟨fun _ => rfl, fun _ hr => absurd hr (Nat.not_lt_zero _), Scope.sorted_empty, by simp, by simp⟩
  exact hempty.bindParams params

theorem size_start : (start params log).registers.size = params.length := by
  obtain ⟨-,hkinds⟩ := entry_start params log
  simpa [Registers.kinds,Registers.size] using congrArg List.length hkinds

theorem valid_start : (start params log).Valid := by
  obtain ⟨h,-⟩ := entry_start params log
  refine ⟨⟨⟨?_, ?_, ?_, ?_⟩, ?_, fun r hr => hr.2, ?_⟩, h.sorted⟩
  · exact fun r => (h.root r).le
  · exact fun r => h.root _
  · intro r
    show (start params log).registers.kind ((start params log).registers.resolve r) = _
    rw [h.root]
    rfl
  · exact fun r _ => h.root r
  · rintro r ((hr | ⟨x,hx⟩ | hr | hr) | ⟨_,hop,-⟩)
    · exact Registers.lt_size_of_isLive _ hr.1
    · exact h.bound x r hx
    · cases hr
    · cases hr
    · cases hop
  · intro x y r t hx hy _ hrt
    have hrt : (start params log).registers.resolve r = (start params log).registers.resolve t := hrt
    rw [h.root,h.root] at hrt
    exact h.single x y r hx (hrt ▸ hy)

end

end Draft

/-- Every path of the routine takes the steps of a passage, from its parameters to an exit. -/
def Routine.Traced (callees : Callees) (strict : Prop) (r : Routine) : Prop :=
  ∃ (params : List (String × Kind)) (registers : Registers), params.length = r.paramCount ∧
    registers.kinds = r.registerKinds ∧ registers.slots = r.slots ∧
    ∀ p ∈ r.paths, Steps callees strict 0 ((Draft.start params []).along [] [] []) (registers.closed p)

namespace Draft

variable {callees : Callees} {strict : Prop} {d d' : Draft} {flow : Flow} {ops : List GuardedOp}

theorem Advances.traced (h : Advances callees strict (start f.params log) d' .returns ops) :
    (d'.routine f).Traced callees strict := by
  refine ⟨f.params, d'.registers, rfl, rfl, rfl, fun p hp => ?_⟩
  obtain ⟨v,hv,rfl⟩ := mem_map.1 hp
  have hops : d'.ops = ops := h.extend.ops_eq
  have hactive : Walk.start.Active (start f.params log) :=
    @active_start (start f.params log) (Nat.lt_add_one 0)
  have hv : v ∈ Walk.start.through ops := hops ▸ hv
  have hreach := h.walks _ hactive (valid_start f.params log).sound v hv
  have hend := hreach.ended_of_returns
  rw [Reaches,if_pos hend] at hreach
  exact hreach.mono (Nat.zero_le _)

/-- What lowering adds to a draft: steps on every path, and closures that are traced as well. -/
structure Proceeds (callees : Callees) (strict : Prop) (d d' : Draft) (flow : Flow) : Prop where
  advances : ∃ ops, Advances callees strict d d' flow ops
  traced : ∀ c ∈ d'.closures, c ∈ d.closures ∨ c.Traced callees strict

theorem Proceeds.of_still (h : ∃ ops, Advances callees strict d d' flow ops) (hstill : d.Still d') :
    Proceeds callees strict d d' flow :=
  ⟨h, fun _ hc => .inl (hstill.1 ▸ hc)⟩

theorem Proceeds.seq {e : Draft} (h : Proceeds callees strict d e .continues)
    (h' : Proceeds callees strict e d' flow) :
    Proceeds callees strict d d' flow := by
  obtain ⟨_,hops⟩ := h.advances
  obtain ⟨_,hops'⟩ := h'.advances
  refine ⟨⟨_, hops.seq hops'⟩, fun c hc => ?_⟩
  rcases h'.traced c hc with hc | hc
  · exact h.traced c hc
  · exact .inr hc

theorem advances_refl (hd : d.Valid) : Advances callees strict d d .continues [] := by
  refine @Advances.of_line callees strict d d [] (.refl hd.sound.wf hd.sorted) (by simp) fun T _ => ?_
  rw [append_nil]

end Draft

namespace Lower

open Draft

/-- Whatever the step does, it adds closures under new names. -/
def Grows {α : Type} (f : Frame) (m : Lower α) : Prop := ∀ d a d', m d = .ok (a, d') → Sprouts f d d'

/-- The step proceeds from every draft that is in order, if its closures are known in the end. -/
def Proceeding (callees : Callees) (strict : Prop) (m : Lower Flow) : Prop :=
  ∀ d flow d', d.Valid → d.current < d.control.conditionCount → callees.Know d'.closures →
    m d = .ok (flow, d') →
    Proceeds callees strict d d' flow

variable {callees : Callees} {strict : Prop} {d d₀ d' : Draft} {flow : Flow}

theorem Proceeding.branchOn {onTrue onFalse : Lower Flow} {test : Register} {apart : List String → Prop}
    {rebound : List String} {line : List Op} (hT : Proceeding callees strict onTrue)
    (hF : Proceeding callees strict onFalse) (hgrows : Grows f onFalse) (hd₀ : d₀.Valid)
    (hcurrent : d.current < d.count) (hclosures : d.closures = d₀.closures)
    (hline : Straight callees d₀ d [test] [] apart rebound line) (hapart : strict → apart [])
    (hknow : callees.Know d'.closures) (h : branchOn f span test onTrue onFalse d = .ok (flow, d')) :
    Proceeds callees strict d₀ d' flow := by
  obtain ⟨_,_,dt,df,honTrue,honFalse,hbehind⟩ := branchOn_eq_ok h
  have hd := hline.valid hd₀
  have hknowF : callees.Know df.closures := hbehind.still.1 ▸ hknow
  have hknowT : callees.Know dt.closures := hknowF.of_prefix (hgrows _ _ _ honFalse).isPrefix
  obtain ⟨⟨_,hopsT⟩,htracedT⟩ := hT _ _ _ hd.fork (Nat.lt_succ_of_lt (Nat.lt_add_one _)) hknowT honTrue
  have hvalid : (d.second dt).Valid := Valid.resume hd hopsT.extend.grows hopsT.extend.wf
  obtain ⟨⟨_,hopsF⟩,htracedF⟩ := hF _ _ _ hvalid hopsT.extend.count_le hknowF honFalse
  refine ⟨Arms.advances ⟨hd, hopsT, hopsF⟩ hcurrent hline hapart hbehind, fun c hc => ?_⟩
  rw [hbehind.still.1] at hc
  rcases htracedF c hc with hc | hc
  · rcases htracedT c hc with hc | hc
    · exact .inl (hclosures ▸ hc)
    · exact .inr hc
  · exact .inr hc

section

variable {cond : Expr} (hcover : callees.Cover f.table) (hapart : strict → cond.apart f.table [] = true)

include hcover hapart

theorem proceeds_iteration {body : Lower Flow} (hbody : Proceeding callees strict body)
    (hflow : ∀ d flow d', body d = .ok (flow, d') → flow = .continues) (hknow : callees.Know d'.closures)
    (h : iteration f bodySpan condSpan (lowerTest f .whileCondition cond) body (start f.params log) =
      .ok ((), d')) :
    Proceeds callees strict (start f.params log) d' .returns := by
  obtain ⟨_,d₁,t,e,values,garbage,kept,hrun,htest,-,hnames,-,hgarbage,rfl⟩ := iteration_eq_ok h
  have hvalues := exists_get?_of_map hnames
  obtain rfl := hflow _ _ _ hrun
  have hstart := valid_start f.params log
  have hcurrent : (start f.params log).current < (start f.params log).count := Nat.lt_add_one 0
  rw [lowerTest,single_eq_ok] at htest
  have hstill : (e.round t values garbage kept).closures = d₁.closures :=
    ((cond.still htest).trans (still_round _ _ _ _ _)).1
  have hknow₁ : callees.Know d₁.closures := hstill ▸ hknow
  obtain ⟨⟨_,hops⟩,htraced⟩ := hbody _ _ _ hstart hcurrent hknow₁ hrun
  have hd₁ := hops.valid hstart hcurrent
  obtain ⟨⟨_,hline⟩,-⟩ := Expr.straight hcover cond hd₁ htest
  refine ⟨⟨_, hops.seq (advances_round hd₁ hline (fun hs => hapart hs) hops.extend.current
    hvalues hgarbage)⟩,
    fun c hc => ?_⟩
  rw [hstill] at hc
  exact htraced c hc

theorem proceeds_loopOver {names : List String} {body : Frame → Lower Flow} (hnames : names.Nodup)
    (hbody : ∀ g : Frame, g.table = f.table → Proceeding callees strict (body g))
    (hflow : ∀ g : Frame, g.inLoop = true → ∀ d flow d', body g d = .ok (flow, d') → flow = .continues)
    (hd : d.Valid) (hknow : callees.Know d'.closures)
    (h : loopOver f names condSpan bodySpan (fun f => lowerTest f .whileCondition cond) body d =
      .ok ((), d')) :
    Proceeds callees strict d d' .continues := by
  obtain ⟨captures,count,draft,log,log',t,e,sources,slot,done,control,hcaptures,hcount,-,hiter,htest,-,
    hsources,hflag,rfl⟩ := loopOver_eq_ok h
  have hcontrol : e.count ≤ control.conditionCount := by
    rcases hflag with ⟨-,-,hcount⟩ | ⟨-,-,hcount⟩ <;> omega
  rw [lowerTest,single_eq_ok] at htest
  -- the closures are those that were there, the closure of the loop, and the closures inside of it
  have hclosures := @closures_around d captures sources e t count log _ control
    (f.loop count captures).name slot done _ _ _ htest
  rw [hclosures] at hknow
  have hinner := proceeds_iteration (f := f.loop count captures) hcover hapart
    (hbody (f.loop count captures) rfl) (hflow (f.loop count captures) rfl)
      (fun c hc => hknow c (mem_append_right _ (mem_cons_of_mem _ hc))) hiter
  obtain ⟨_,hops⟩ := hinner.advances
  have hcallee : callees (f.loop count captures).name = some (captures.map (·.kind)) := by
    obtain ⟨-,hkinds⟩ := entry_start (f.loop count captures).params log'
    have hsize : (start (f.loop count captures).params log').registers.size =
        (f.loop count captures).params.length := by
      have hlen := congrArg List.length hkinds
      simpa [Registers.kinds,Registers.size] using hlen
    have htake := Registers.take_kinds hops.extend.grows
    rw [hsize,hkinds] at htake
    have hfound := hknow _ (mem_append_right _ mem_cons_self)
    rw [show (draft.routine (f.loop count captures)).registerKinds.take
      (draft.routine (f.loop count captures)).paramCount = _ from htake] at hfound
    rwa [show (f.loop count captures).params.map (·.2) = captures.map (·.kind) from map_map] at hfound
  obtain ⟨-,hvalid,-⟩ := @enclose_spec callees strict 0 d (captures.map (·.kind)) count log
    (draft.routine (f.loop count captures) :: draft.closures) hd hcount.le
  obtain ⟨⟨line,hline⟩,-⟩ := Expr.straight hcover cond hvalid htest
  have haround := @advances_around callees strict d names captures sources e t count log _ _
    _ line control
    (f.loop count captures).name slot done hd hnames hcount.le hcaptures hline hapart hsources
      hcontrol hcallee
  refine ⟨⟨_, haround⟩, fun c hc => ?_⟩
  rw [hclosures] at hc
  rcases mem_append.1 hc with hc | hc
  · exact .inl hc
  · rcases mem_cons.1 hc with rfl | hc
    · exact .inr hops.traced
    · rcases hinner.traced c hc with hc | hc
      · cases hc
      · exact .inr hc

end

theorem sprouts_loopOver {names : List String} {cond : Expr} {body : Frame → Lower Flow}
    (hbody : ∀ g, Grows g (body g))
    (h : loopOver f names condSpan bodySpan (fun f => lowerTest f .whileCondition cond) body d =
      .ok ((), d')) :
    Sprouts f d d' := by
  obtain ⟨captures,count,_,_,_,t,e,sources,slot,done,control,-,hcount,hfresh,hiter,htest,-,-,-,
    rfl⟩ := loopOver_eq_ok h
  obtain ⟨_,_,t₁,e₁,values,garbage,kept,hrun,htest₁,-,-,-,-,rfl⟩ := iteration_eq_ok hiter
  rw [lowerTest,single_eq_ok] at htest htest₁
  have hinner :=
    (hbody _ _ _ _ hrun).trans
      ((cond.still htest₁).trans (still_round e₁ t₁ values garbage kept)).sprouts
  have hpass : e.Still (d.around e t control (f.loop count captures).name slot done captures sources) :=
    still_pass _ _ _
  exact (sprouts_enclose hcount hfresh hinner).trans ((cond.still htest).trans hpass).sprouts

end Lower

open Draft

theorem Stmt.branch_eq_ok {span : Span} {cond : Expr} {onTrue onFalse : Block}
    {d d' : Draft} {flow : Flow} (h : (Stmt.branch span cond onTrue onFalse).lower f d =
      .ok (flow, d')) :
    ∃ test e flowT flowF dt df, cond.lower f d = .ok ([test], e) ∧
      (e.registers.kind test).convert (.lent .boolean) = .ok () ∧
        onTrue.lower f (e.fork test) = .ok (flowT, dt) ∧
      onFalse.lower f ((dt.resume e).under (e.armCondition false)) = .ok (flowF, df) ∧
      Behind f span e dt df d' flowT flowF flow := by
  simp only [Stmt.lower,lowerTest,bind_eq_ok,single_eq_ok] at h
  obtain ⟨test,e,htest,_,_,hcheck,h⟩ := h
  obtain ⟨htruth,rfl⟩ := checkTruth_eq_ok hcheck
  obtain ⟨flowT,flowF,dt,df,hT,hF,hbehind⟩ := branchOn_eq_ok h
  exact ⟨test, _, flowT, flowF, dt, df, htest, htruth, hT, hF, hbehind⟩

theorem Stmt.lowerAll_cons_eq_ok {s : Stmt} {ss : List Stmt} {d d' : Draft} {flow : Flow}
    (h : Stmt.lowerAll f (s :: ss) d = .ok (flow, d')) :
    (s.lower f d = .ok (.returns, d') ∧ ss = [] ∧ flow = .returns) ∨
      ∃ e e', s.lower f d = .ok (.continues, e) ∧ sweep f e = .ok ((), e') ∧
        Stmt.lowerAll f ss e' = .ok (flow, d') := by
  simp only [Stmt.lowerAll,bind_eq_ok,placing_eq_ok] at h
  obtain ⟨first,e,hs,h⟩ := h
  cases first with
  | returns =>
    cases ss with
    | nil =>
      obtain ⟨rfl,rfl⟩ := (pure_eq_ok _ _).1 h
      exact .inl ⟨hs, rfl, rfl⟩
    | cons next _ => exact ((refuse_eq_ok _ _ _).1 h).elim
  | continues =>
    obtain ⟨_,e',hsweep,hrest⟩ := (bind_eq_ok _ _ _).1 h
    exact .inr ⟨e, e', hs, hsweep, hrest⟩

mutual
theorem Stmt.grows (f : Frame) : (s : Stmt) → Grows f (s.lower f)
  | .bind _ _ _, _, _, _, h => (Stmt.still_bind h).sprouts
  | .ret _ _, _, _, _, h => (still_lowerExit h).sprouts
  | .run _ _, _, _, _, h => (Stmt.still_run h).sprouts
  | .branch _ cond onTrue onFalse, d, _, d', h => by
    obtain ⟨_,e,_,_,_,_,htest,-,hT,hF,hbehind⟩ := Stmt.branch_eq_ok h
    have honTrue := Block.grows f onTrue _ _ _ hT
    have honFalse := Block.grows f onFalse _ _ _ hF
    exact (((cond.still htest).sprouts.trans honTrue).trans honFalse).trans hbehind.still.sprouts
  | .loop _ _ body, d, _, d', h => by
    simp only [Stmt.lower,bind_eq_ok,pure_eq_ok] at h
    obtain ⟨_,_,hloop,-,rfl⟩ := h
    exact sprouts_loopOver (fun g => Block.grows g body) hloop

theorem Block.grows (f : Frame) : (b : Block) → Grows f (b.lower f)
  | ⟨_, stmts⟩ => Stmt.grows_all f stmts

theorem Stmt.grows_all (f : Frame) : (ss : List Stmt) → Grows f (Stmt.lowerAll f ss)
  | [], d, _, d', h => by
    obtain ⟨-,rfl⟩ := (pure_eq_ok _ _).1 h
    exact Still.sprouts ⟨rfl, rfl⟩
  | s :: ss, d, _, d', h => by
    rcases Stmt.lowerAll_cons_eq_ok h with ⟨hs,-,-⟩ | ⟨e,_,hs,hsweep,hrest⟩
    · exact Stmt.grows f s _ _ _ hs
    · exact ((Stmt.grows f s _ _ _ hs).trans (still_sweep hsweep).sprouts).trans
        (Stmt.grows_all f ss _ _ _ hrest)
end

/-- Whether `m` returns is written in the text, and inside of a loop it does not. -/
def Announced (f : Frame) (returns : Bool) (m : Lower Flow) : Prop :=
  ∀ d flow d', m d = .ok (flow, d') → (flow = .returns ↔ returns = true) ∧
    (f.inLoop = true → flow = .continues)

mutual
theorem Stmt.announced (f : Frame) : (s : Stmt) → Announced f s.mustReturn (s.lower f)
  | .bind _ _ _, d, flow, d', h => by
    simp only [Stmt.lower,bind_eq_ok,unless_eq_ok,pure_eq_ok] at h
    obtain ⟨_,_,_,-,_,_,-,rfl,-⟩ := h
    simp [Stmt.mustReturn]
  | .ret _ _, d, flow, d', h => by
    obtain ⟨_,_,_,rfl,hout,-⟩ := lowerExit_eq_ok h
    simp [Stmt.mustReturn,hout]
  | .branch _ _ onTrue onFalse, d, flow, d', h => by
    obtain ⟨_,_,_,_,_,_,-,-,hT,hF,hbehind⟩ := Stmt.branch_eq_ok h
    obtain ⟨hiffT,hloopT⟩ := Block.announced f onTrue _ _ _ hT
    obtain ⟨hiffF,-⟩ := Block.announced f onFalse _ _ _ hF
    have hiff := hbehind.flow_iff
    refine ⟨by rw [hiff,hiffT,hiffF,Stmt.mustReturn,Bool.and_eq_true], fun hloop => ?_⟩
    obtain rfl := hloopT hloop
    cases flow with
    | continues => rfl
    | returns => cases (hiff.1 rfl).1
  | .loop _ _ _, d, flow, d', h => by
    simp only [Stmt.lower,bind_eq_ok,pure_eq_ok] at h
    obtain ⟨_,_,-,rfl,-⟩ := h
    simp [Stmt.mustReturn]
  | .run _ _, d, flow, d', h => by
    simp only [Stmt.lower,bind_eq_ok,unless_eq_ok,pure_eq_ok] at h
    obtain ⟨_,_,-,-,rfl,-⟩ := h
    simp [Stmt.mustReturn]

theorem Block.announced (f : Frame) : (b : Block) → Announced f b.mustReturn (b.lower f)
  | ⟨_, stmts⟩ => Stmt.announced_all f stmts

theorem Stmt.announced_all (f : Frame) :
    (ss : List Stmt) → Announced f (lastReturns ss) (Stmt.lowerAll f ss)
  | [], d, flow, d', h => by
    obtain ⟨rfl,-⟩ := (pure_eq_ok _ _).1 h
    simp [lastReturns]
  | s :: ss, d, flow, d', h => by
    rcases Stmt.lowerAll_cons_eq_ok h with ⟨hs,rfl,rfl⟩ | ⟨e,_,hs,-,hrest⟩
    · exact Stmt.announced f s _ _ _ hs
    · have ih := Stmt.announced_all f ss _ _ _ hrest
      cases ss with
      | nil =>
        obtain ⟨rfl,-⟩ := (pure_eq_ok _ _).1 hrest
        exact Stmt.announced f s _ _ _ hs
      | cons next _ => exact ih
end

theorem Block.continues_of_inLoop (hloop : f.inLoop = true) (b : Block) (d : Draft)
    (flow : Flow) (d' : Draft) (h : b.lower f d = .ok (flow, d')) : flow = .continues :=
  (b.announced f d flow d' h).2 hloop

mutual
theorem Stmt.proceeding {callees : Callees} {strict : Prop} {f : Frame}
    (hcover : callees.Cover f.table) :
    (s : Stmt) → (strict → s.apart f.table = true) → Proceeding callees strict (s.lower f)
  | .bind span names value, hapart => fun d flow d' hd _ _ h =>
    .of_still (advances_bind hcover hd hapart h) (Stmt.still_bind h)
  | .ret span value, hapart => fun d flow d' hd _ _ h => by
    refine .of_still (advances_exit hcover hd ?_ h) (still_lowerExit h)
    rintro hs e ⟨⟩
    exact hapart hs
  | .run span value, hapart => fun d flow d' hd _ _ h =>
    .of_still (advances_run hcover hd hapart h) (Stmt.still_run h)
  | .branch span cond onTrue onFalse, hapart => fun d flow d' hd hcurrent hknow h => by
    simp only [Stmt.lower,lowerTest,bind_eq_ok,single_eq_ok] at h
    obtain ⟨_,e,htest,_,_,hcheck,h⟩ := h
    obtain ⟨-,rfl⟩ := checkTruth_eq_ok hcheck
    simp only [Stmt.apart,Bool.and_eq_true] at hapart
    obtain ⟨⟨_,hline⟩,-⟩ := Expr.straight hcover cond hd htest
    exact (Block.proceeding hcover onTrue fun hs => (hapart hs).1.2).branchOn
      (Block.proceeding hcover onFalse fun hs => (hapart hs).2) (Block.grows f onFalse) hd
      (hline.extend.current_lt hcurrent) (cond.still htest).1 hline (fun hs => (hapart hs).1.1) hknow h
  | .loop span cond body, hapart => fun d flow d' hd hcurrent hknow h => by
    simp only [Stmt.lower,bind_eq_ok,pure_eq_ok] at h
    obtain ⟨_,_,hloop,rfl,rfl⟩ := h
    simp only [Stmt.apart,Bool.and_eq_true] at hapart
    refine proceeds_loopOver hcover (fun hs => (hapart hs).1) (nodup_orderedSet _) ?_ ?_ hd hknow hloop
    · intro g htable
      rw [← htable] at hcover hapart
      exact Block.proceeding hcover body fun hs => (hapart hs).2
    · exact fun g hg => Block.continues_of_inLoop hg body

theorem Block.proceeding {callees : Callees} {strict : Prop} {f : Frame}
    (hcover : callees.Cover f.table) :
    (b : Block) → (strict → b.apart f.table = true) → Proceeding callees strict (b.lower f)
  | ⟨_, stmts⟩, hapart => Stmt.proceeding_all hcover stmts hapart

theorem Stmt.proceeding_all {callees : Callees} {strict : Prop} {f : Frame}
    (hcover : callees.Cover f.table) :
    (ss : List Stmt) → (strict → apartStmts f.table ss = true) →
      Proceeding callees strict (Stmt.lowerAll f ss)
  | [], _ => fun d flow d' hd _ _ h => by
    obtain ⟨rfl,rfl⟩ := (pure_eq_ok _ _).1 h
    exact .of_still ⟨[], advances_refl hd⟩ ⟨rfl, rfl⟩
  | s :: ss, hapart => fun d flow d' hd hcurrent hknow h => by
    simp only [apartStmts,Bool.and_eq_true] at hapart
    have hstmt := Stmt.proceeding hcover s fun hs => (hapart hs).1
    rcases Stmt.lowerAll_cons_eq_ok h with ⟨hs,rfl,rfl⟩ | ⟨e,e',hs,hsweep,hrest⟩
    · exact hstmt _ _ _ hd hcurrent hknow hs
    · have hswept := still_sweep hsweep
      have hknow' : callees.Know e.closures :=
        hswept.1 ▸ hknow.of_prefix (Stmt.grows_all f ss _ _ _ hrest).isPrefix
      have hfirst := hstmt _ _ _ hd hcurrent hknow' hs
      obtain ⟨_,hops⟩ := hfirst.advances
      have he := hops.valid hd hcurrent
      have hcurrent' := hops.extend.current_lt hcurrent
      obtain ⟨ops',hops'⟩ := @advances_sweep callees strict e e' f he hsweep
      have he' := hops'.valid he hcurrent'
      have hrest' := Stmt.proceeding_all hcover ss (fun hs => (hapart hs).2) _ _ _ he'
        (hops'.extend.current_lt hcurrent') hknow hrest
      exact (hfirst.seq (.of_still ⟨ops', hops'⟩ hswept)).seq hrest'
end

end Polled
