import Polled.Proofs.Sparing

/-!
Closures that start themselves over.

One pass over the closure of a loop is a run of the body and a look at the condition (`Draft.Lap.turns`),
so all rounds together do what the loop does from its body on (`Draft.Lap.spins`).
-/

namespace Polled

open Lower Draft List

variable {d : Draft} {only : String → Prop}

theorem Shape.goes {c : Condition} {flow : Flow} {gs : List GuardedOp} (h : Shape False c flow gs)
    (hflow : flow = .continues) : ∀ g ∈ gs, g.op.endsActivation = false := by
  induction h with
  | line hplain =>
    intro g hg
    obtain ⟨op,hop,rfl⟩ := mem_map.1 hg
    exact (hplain op hop).goes
  | exit => cases hflow
  | @fork _ _ _ _ flowT _ _ _ _ _ hiff hmixed _ _ hseam _ ihT ihF =>
    obtain rfl := hmixed.resolve_right id
    have hboth : flowT = .continues := by
      cases flowT with
      | continues => rfl
      | returns => exact absurd (hiff.2 ⟨rfl, rfl⟩) (by simp [hflow])
    intro g hg
    simp only [mem_cons,mem_append] at hg
    rcases hg with rfl | (hg | hg) | hg
    · rfl
    · exact ihT hboth g hg
    · exact ihF hboth g hg
    · exact (hseam g hg).2.goes
  | seq _ _ ih ih' =>
    intro g hg
    exact (mem_append.1 hg).elim (ih rfl g) (ih' hflow g)

theorem Draft.slot_routine (d : Draft) (f : Frame) : (d.routine f).slot = d.registers.resolve := by
  funext r
  simp [Routine.slot,routine,Registers.slots,Registers.resolve,getD_eq_getElem?_getD]

namespace Env

variable {α : Type} {env : Env α} {names : List String}

theorem exists_all (h : ∀ x ∈ names, ∃ v, env x = some v) : ∃ vs, env.all names = some vs := by
  induction names with
  | nil => exact ⟨[], rfl⟩
  | cons x xs ih =>
    obtain ⟨⟨v,hv⟩,hxs⟩ := forall_mem_cons.1 h
    obtain ⟨vs,hvs⟩ := ih hxs
    exact ⟨v :: vs, by simp [all,hv,hvs]⟩

/-- The values stand for variables, and all others are as they were. -/
structure Stands (names : List String) (env₀ : Env α) (vs : List (Datum α)) (env : Env α) : Prop where
  values : names.map env = vs.map some
  others : ∀ y, y ∉ names → env y = env₀ y

end Env

theorem Draft.HoldsOn.map_eq {α : Type} {slot : Register → Register}
    {memory : Register → Datum α} {env : Env α} {names : List String} {ts : List Register}
    (h : d.HoldsOn only slot memory env) (honly : ∀ x ∈ names, only x)
    (hnames : names.map d.scope.get? = ts.map some) :
    names.map env = (ts.map fun t => memory (slot t)).map some := by
  induction names generalizing ts with
  | nil =>
    obtain rfl : ts = [] := by simpa using hnames.symm
    rfl
  | cons x xs ih =>
    cases ts with
    | nil => simp at hnames
    | cons t ts =>
      obtain ⟨hx,hxs⟩ := cons.inj hnames
      obtain ⟨hfirst,hrest⟩ := forall_mem_cons.1 honly
      rw [map_cons,h x t hfirst hx,ih hrest hxs]
      rfl

theorem Draft.round_spec (e : Draft) (t : Register) (values garbage kept : List Register) :
    (e.round t values garbage kept).registers.resolve = e.registers.resolve ∧
      (e.round t values garbage kept).ops = e.ops ++
        ⟨.entry, .branch t e.count (e.count + 1)⟩ ::
          [⟨e.count, .restartLoop values garbage⟩, ⟨e.count + 1, .ret values garbage⟩] := by
  obtain ⟨registers,heq,hlayout⟩ := e.tick.tick.exists_disownAll kept
  have hresolve : registers.resolve = e.registers.resolve := congrArg Layout.root hlayout
  rw [Draft.round,heq]
  refine ⟨hresolve, ?_⟩
  simp [emit,tick]

/-- A drafted body that goes on at its end. -/
structure Draft.Lap (d : Draft) : Prop where
  valid : d.Valid
  current : d.current = .entry
  goes : ∀ g ∈ d.ops, g.op.endsActivation = false
  flags : ∀ c ∈ .entry :: flagsIn d.ops, c < d.control.conditionCount

theorem Block.lap {f : Frame} {body : Block} {log : List Event} {flow : Flow} (hloop : f.inLoop = true)
    (h : body.lower f (.start f.params log) = .ok (flow, d)) : flow = .continues ∧ d.Lap := by
  obtain rfl := Block.continues_of_inLoop hloop body _ _ _ h
  have hcover := Lowered.callees_cover f.table ⟨d.routine f, d.closures, d.log⟩
  have hknow := (Block.grows f body _ _ _ h).callees_know
  have hstart := valid_start f.params log
  obtain ⟨⟨ops,hadvance⟩,-⟩ := Block.proceeding hcover body False.elim _ _ _ hstart
    (lt_add_one 0) hknow h
  have hlowers := Block.lowers hcover body hstart (lt_add_one 0) hknow h
  have hout : f.inLoop = false → (Code.block body.stmts).balanced = false → False := by simp [hloop]
  obtain ⟨gs,hlaid⟩ := hlowers.laid hout
  have hops : d.ops = gs := hlaid.ops_eq
  refine ⟨rfl, hadvance.valid hstart (lt_add_one 0), hadvance.extend.current, ?_, fun c hc => ?_⟩
  · rw [hops]
    exact hlaid.shape.goes rfl
  · rw [hops] at hc
    rcases mem_cons.1 hc with rfl | hc
    · exact hadvance.extend.count_le
    · exact (hlaid.fresh.bound c hc).2

section

variable {W α : Type} {calls : Calls W α} {slot : Register → Register} {m : Slate α}

theorem carry_exits {c : Condition} (goes : Bool) (hc : ∀ c' ∈ m.flags, c' < c)
    (values garbage : List Register) :
    carry calls slot [⟨c, .restartLoop values garbage⟩, ⟨c + 1, .ret values garbage⟩]
      (m.raise [if goes then c else c + 1]) =
        pure (if goes then .restart (values.map fun t => m.memory (slot t))
        else .exit (values.map fun t => m.memory (slot t))) := by
  cases goes with
  | true =>
    rw [carry_cons_of_mem mem_cons_self]
    exact Act.pure_bind _ _
  | false =>
    have hnot : c ∉ (m.raise [c + 1]).flags := by
      intro hmem
      rcases mem_cons.1 hmem with heq | hmem
      · exact (lt_add_one c).ne heq
      · exact lt_irrefl c (hc c hmem)
    exact (carry_cons_of_notMem hnot).trans (carry_singleton mem_cons_self)

theorem Draft.Performs.branches {source : Calls W α} {X Y : Type} {e : Draft} {cond : Expr}
    {t : Register} {line : List Op} {env : Env α} {a b : Condition} {rest : List GuardedOp}
    {j : Leg α → Act W X} {k : Bool × Env α → Act W Y} {S : X → Y → Prop}
    (hline : Performs calls slot d e cond.names (fun value => [t].map value) (cond.act source) line)
    (honly : ∀ x ∈ cond.names, only x) (hcurrent : d.current ∈ m.flags)
    (hholds : d.HoldsOn only slot m.memory env)
    (hnext : ∀ (m' : Slate α) (env' : Env α), e.HoldsOn only slot m'.memory env' →
      (∀ y, y ∉ cond.names → env' y = env y) → (∀ c ∈ m'.flags, c ∈ m.flags ∨ c ∈ flagsOf line) →
      Act.Matches (carry calls slot rest (m'.raise [if (m'.memory (slot t)).isTrue then a else b]) >>= j)
        (k ((m'.memory (slot t)).isTrue, env')) S) :
    Act.Matches (carry calls slot
      (line.map (GuardedOp.mk d.current) ++ ⟨d.current, .branch t a b⟩ :: rest) m >>= j)
      (cond.test source env >>= k) S := by
  rw [carry_append,Act.bind_assoc,Expr.test,Act.bind_assoc]
  refine (hline.single.runs only m env honly hcurrent hholds).found.bind ?_
  rintro _ _ ⟨⟨m₁,env₁,hholds₁,hframe₁⟩,w,_,hcarry,-⟩
  obtain ⟨hsub,hflags⟩ := flags_of_carry hcarry
  rw [flagsIn_map_mk] at hflags
  rw [Leg.go,Act.pure_bind,carry_of_onward (hsub hcurrent) rfl]
  exact hnext m₁ env₁ hholds₁ hframe₁ hflags

namespace Draft.Lap

variable {g : Frame} {cond : Expr} {round draft : Draft} {names : List String} {args : List (Datum α)}
  {env₀ env : Env α}

section

variable (hlap : round.Lap) (hround : EndsRound g cond round draft) (hfit : calls.Fit g.table)
variable (hnames : names = g.params.map (·.1)) (hnodup : names.Nodup)
  (hcond : ∀ x ∈ cond.names, x ∈ names)
variable (henv : Env.Stands names env₀ args env)

include hlap hround hfit hnames hnodup hcond henv

/-- One pass over a closure is one turn of its loop. -/
theorem turns : Act.Matches (carry calls (draft.routine g).slot (draft.routine g).ops
        (.entry ((List.range (draft.routine g).paramCount).map (draft.routine g).slot) args)
        >>= Leg.ended)
      (Act.turn (cond.test calls) (round.effect calls names) env)
      (Sum.LiftRel (Env.Stands names env₀) (Env.Stands names env₀)) := by
  obtain ⟨t,e,values,kept,htest,-,hvalues,-,rfl⟩ := hround
  obtain ⟨line,hline⟩ := cond.performs (fun _ _ => rfl) hfit hlap.valid rfl htest
  obtain ⟨_,hline'⟩ := cond.line knowsTable_any hlap.valid htest
  obtain rfl := line_unique hline'.ops_eq hline.fills.ops_eq
  obtain ⟨hresolve,hops⟩ := e.round_spec t values (e.exitGarbage values) kept
  have hslot : ((e.round t values (e.exitGarbage values) kept).routine g).slot =
      round.registers.resolve := by
    rw [slot_routine,hresolve,hline.resolve_eq]
  have hcount : ((e.round t values (e.exitGarbage values) kept).routine g).paramCount =
      names.length := by
    rw [hnames,length_map]
    rfl
  have hscope : names.map e.scope.get? = values.map some := by
    rw [hnames,map_map]
    exact hvalues
  rw [hslot,hcount,show ((e.round t values (e.exitGarbage values) kept).routine g).ops = _ from hops,
    hline.fills.ops_eq,append_assoc,carry_append,Act.bind_assoc,Act.turn,
    effect_eq (Env.all_eq_some.2 henv.values),Act.bind_assoc]
  refine (Act.Matches.refl _).found.bind ?_
  rintro _ _ ⟨rfl,w,_,hbody,-⟩
  obtain ⟨m,rfl⟩ := onward_of_carry hlap.goes hbody
  obtain ⟨hsub,hflags⟩ := flags_of_carry hbody
  -- all captured variables are there behind the body, since the next round takes them
  have hbound : ∀ x ∈ names, ∃ v, round.env m x = some v := by
    intro x hx
    obtain ⟨r,-,hr⟩ := mem_map.1 (hscope ▸ mem_map_of_mem hx)
    obtain ⟨u,hu,-⟩ := (Expr.alters hlap.valid htest).names x r hr.symm
    exact ⟨_, congrArg (Option.map (round.value m)) hu⟩
  obtain ⟨vs,hvs⟩ := Env.exists_all hbound
  have hlen : names.length = vs.length := by simpa using congrArg List.length (Env.all_eq_some.1 hvs)
  rw [handBack_onward hvs,Act.pure_bind]
  have hset := @Env.map_setAll _ env names vs hnodup hlen
  have hholds : round.HoldsOn (· ∈ names) round.registers.resolve m.memory (env.setAll names vs) := by
    intro x u hx hxu
    rw [map_inj_left.1 (hset.trans (Env.all_eq_some.1 hvs).symm) x hx]
    exact congrArg (Option.map (round.value m)) hxu
  have hless : ∀ c ∈ m.flags, c < round.count := fun c hc =>
    hlap.flags c ((hflags c hc).elim (fun hc => mem_singleton.1 hc ▸ mem_cons_self) (mem_cons_of_mem _))
  rw [← hlap.current]
  refine hline.branches hcond (hlap.current ▸ hsub mem_cons_self) hholds
    fun m' env' hholds' hframe hflags' => ?_
  rw [carry_exits,Act.pure_bind]
  · have hstands :
        Env.Stands names env₀ (values.map fun t => m'.memory (round.registers.resolve t)) env' := by
      refine ⟨hholds'.map_eq (fun _ h => h) hscope, fun y hy => ?_⟩
      rw [hframe y fun hmem => hy (hcond y hmem),Env.setAll_of_notMem hy,henv.others y hy]
    cases (m'.memory (round.registers.resolve t)).isTrue with
    | true => exact .pure (.inl hstands)
    | false => exact .pure (.inr hstands)
  · intro c hc
    rcases hflags' c hc with hc | hc
    · exact (hless c hc).trans_le hline'.count_le
    · exact (hline'.flags c hc).2

/-- All rounds together do what the loop does from its body on. -/
theorem spins : Act.Matches ((draft.routine g).spin calls args)
      (Act.iterate (Act.turn (cond.test calls) (round.effect calls names)) env)
      (Env.Stands names env₀) :=
  Act.Matches.iterate (fun _ _ henv => hlap.turns hround hfit hnames hnodup hcond henv) henv

end

end Draft.Lap

end

end Polled
