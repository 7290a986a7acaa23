import Polled.Proofs.Spinning

/-!
A loop where it stands.

The operations at the place of a loop look at its condition once, and call the closure or rename the
captured values. Together with the closure they do what the loop does (`loop_matches`).
-/

namespace Polled

open Lower Draft List

variable {x : String} {r : Register}

namespace Draft

theorem names_of_captures (d : Draft) (names : List String) :
    (d.captures names).map (·.name) = names.filter d.scope.contains := by
  induction names with
  | nil => rfl
  | cons x xs ih =>
    cases hx : d.scope.get? x with
    | none => simpa [captures,Scope.contains,hx] using ih
    | some r => simpa [captures,Scope.contains,hx] using ih

/-- Behind the condition of a loop: the call of its closure and the way around it. -/
def waysOps (c : Condition) (callee : String) (child : ChildSlot) (done : Option Condition)
    (ts : List (Capture × Register × Register)) : List GuardedOp :=
  ⟨c, .callAsync callee (ts.map (·.2.1)) (ts.map (·.2.2)) child done⟩ ::
    (ts.map fun t => Op.rename t.2.1 t.2.2).map (GuardedOp.mk (c + 1))

section

variable {W α : Type} {calls : Calls W α} {slot : Register → Register} {m : Slate α} {c : Condition}
  {child : ChildSlot}
variable {done : Option Condition} {ts : List (Capture × Register × Register)}

theorem carry_renames (hc : c ∈ m.flags) (hapart : ∀ t ∈ ts, ∀ t' ∈ ts, slot t.2.2 ≠ slot t'.2.1) :
    carry calls slot ((ts.map fun t => Op.rename t.2.1 t.2.2).map (GuardedOp.mk c)) m =
      pure (.onward (m.write (ts.map fun t => slot t.2.2) (ts.map fun t => m.memory (slot t.2.1)))) := by
  induction ts generalizing m with
  | nil => rfl
  | cons t ts ih =>
    have hkept : ∀ t' ∈ ts, (m.write [slot t.2.2] [m.memory (slot t.2.1)]).memory (slot t'.2.1) =
        m.memory (slot t'.2.1) := fun t' ht' =>
      Function.update_of_ne (hapart t mem_cons_self t' (mem_cons_of_mem _ ht')).symm ..
    have hrest := @ih (m.write [slot t.2.2] [m.memory (slot t.2.1)]) hc fun u hu u' hu' =>
      hapart u (mem_cons_of_mem _ hu) u' (mem_cons_of_mem _ hu')
    rw [map_cons,map_cons,carry_of_onward hc rfl,hrest,map_congr_left hkept]
    rfl

theorem carry_called {r : Routine} (hroot : ∀ t ∈ ts, slot t.2.2 = t.2.2) (hdone : c + 1 ∉ done.toList)
    (hc : c + 1 ∉ m.flags) :
    carry (calls.along r) slot (waysOps c r.name child done ts) (m.raise [c]) = (do
      let vs ← r.spin calls (ts.map fun t => m.memory (slot t.2.1))
      return .onward (((m.raise [c]).write (ts.map (·.2.2)) vs).raise done.toList)) := by
  have hact : Op.act (calls.along r) slot (m.raise [c])
    (.callAsync r.name (ts.map (·.2.1)) (ts.map (·.2.2)) child done) =
      (do
        let vs ← r.spin calls (ts.map fun t => m.memory (slot t.2.1))
        return .onward (((m.raise [c]).write (ts.map fun t => slot t.2.2) vs).raise done.toList)) := by
    rw [Op.act,Calls.along,Function.update_self,map_map,map_map]
    rfl
  rw [waysOps,carry_cons_of_mem mem_cons_self,hact,Act.bind_assoc,map_congr_left hroot]
  congr 1
  funext vs
  rw [Act.pure_bind,Leg.go,carry_of_forall_notMem]
  intro g hg hmem
  obtain ⟨_,-,rfl⟩ := mem_map.1 hg
  rcases mem_append.1 hmem with hmem | hmem
  · exact hdone hmem
  · exact (mem_cons.1 hmem).elim (Nat.succ_ne_self c) hc

theorem carry_passed {callee : String} (hroot : ∀ t ∈ ts, slot t.2.2 = t.2.2)
    (hapart : ∀ t ∈ ts, ∀ t' ∈ ts, slot t.2.2 ≠ slot t'.2.1) (hc : c ∉ m.flags) :
    carry calls slot (waysOps c callee child done ts) (m.raise [c + 1]) =
      pure (.onward
        ((m.raise [c + 1]).write (ts.map (·.2.2)) (ts.map fun t => m.memory (slot t.2.1)))) := by
  have hnot : c ∉ (m.raise [c + 1]).flags :=
    fun hmem => (mem_cons.1 hmem).elim (Nat.succ_ne_self c).symm hc
  rw [waysOps,carry_cons_of_notMem hnot,carry_renames mem_cons_self hapart,map_congr_left hroot]
  rfl

end

/-- The operations at the place of a loop: its condition and the two ways behind it. -/
def siteOps (d : Draft) (callee : String) (t : Register) (line : List Op) (child : ChildSlot)
    (done : Option Condition) (ts : List (Capture × Register × Register)) : List GuardedOp :=
  line.map (GuardedOp.mk d.current) ++
    ⟨d.current, .branch t d.control.conditionCount (d.control.conditionCount + 1)⟩ ::
      waysOps d.control.conditionCount callee child done ts

/-- Operations have been carried out up to where a draft stands. -/
structure Reached {α : Type} (d : Draft) (m : Slate α) (env : Env α) : Prop where
  current : d.current ∈ m.flags
  flags : ∀ c ∈ m.flags, c < d.control.conditionCount
  holds : d.Holds d.registers.resolve m.memory env

/-- The place of a loop: the draft `d₀` in which the condition is looked at, the draft `e` behind it, and
the captured values with where they come from and where they go. -/
structure Place (f : Frame) (cond : Expr) (callee : String) (d d' d₀ e : Draft) (t : Register)
    (line : List Op) (child : ChildSlot) (done : Option Condition)
    (ts : List (Capture × Register × Register)) : Prop where
  valid : d₀.Valid
  scope_eq : d₀.scope = d.scope
  root_eq : d₀.registers.resolve = d.registers.resolve
  current : d₀.current = d.current
  count_eq : d₀.control.conditionCount = d.control.conditionCount + 2
  test : cond.lower f d₀ = .ok ([t], e)
  line_eq : e.ops = d₀.ops ++ line.map (GuardedOp.mk d₀.current)
  hops : Hops e ts
  scope : ∀ x r, d'.scope.get? x = some r ↔
    (x ∉ ts.map (·.1.name) ∧ e.scope.get? x = some r) ∨ ∃ t ∈ ts, t.1.name = x ∧ t.2.2 = r
  resolve_eq : d'.registers.resolve = d.registers.resolve
  done_ge : ∀ c ∈ done, d.control.conditionCount + 2 ≤ c
  site : d.Extends d' (d.siteOps callee t line child done ts)
  fresh : Fresh d.control.conditionCount d'.control.conditionCount
    (d.siteOps callee t line child done ts)

variable {f : Frame} {cond : Expr} {d d' : Draft}

theorem place_of_encloses {names : List String} {count : Nat} {new : List Routine} (hd : d.Valid)
    (hnames : names.Nodup) (hcount : d.loopCount < count)
    (h : Encloses f cond (d.captures names) count new d d') :
    ∃ d₀ e t line child done ts, Place f cond (f.loop count (d.captures names)).name d d' d₀ e t line
      child done ts ∧ ts.map (·.1) = d.captures names := by
  have hresolve := (h.renews hd hnames hcount rfl).resolve_eq
  obtain ⟨_,_,_,_,_,hdetour⟩ := detour_of_encloses h knowsTable_any hd hnames hcount rfl
  have hlaid : Laid False d d' .continues _ := hdetour.laid
  obtain ⟨log,t,e,sources,child,done,control,htest,-,hsources,hflag,rfl⟩ := h
  generalize hcaptures : d.captures names = captures at *
  obtain ⟨hext,hvalid,hscope,hticks,-⟩ := @enclose_spec (fun _ => none) False 0 d
    (captures.map (·.kind)) count log new hd hcount.le
  obtain ⟨⟨line,hstraight⟩,-⟩ := cond.straight f.table.callees_cover hvalid htest
  have hhops : Hops e (crossing captures sources _) :=
    hops_of_line hd hnames hcount.le hcaptures.symm hstraight hsources
  obtain ⟨hfst,hsrc,hdest⟩ := d.crossed_maps (length_sources hsources)
  have hcontrol : e.control.conditionCount ≤ control.conditionCount := by omega
  have hsite := @extends_around _ _ _ _ _ _ _ _ _ _ _ _ control
    (f.loop count captures).name child done hd hcount.le hstraight hhops hcontrol
  have hscope' := hhops.get?_around t control (f.loop count captures).name child done
  have hfresh := append_cancel_left (hlaid.ops_eq.symm.trans hsite.ops_eq) ▸ hlaid.fresh
  rw [aroundOps] at hsite hfresh
  unfold crossed at *
  generalize crossing captures sources _ = ts at *
  refine ⟨_, e, t, line, child, done, ts, ⟨hvalid, hscope, (Renews.enclose hd).resolve_eq, hext.current,
    hticks, htest, hstraight.extend.ops_eq, hhops, hscope', hresolve, fun c hc => ?_, ?_, ?_⟩, hfst⟩
  · have hle := hstraight.extend.count_le
    rcases hflag with ⟨-,rfl,-⟩ | ⟨-,rfl,-⟩
    · obtain rfl : e.control.conditionCount = c := Option.some.inj hc
      exact hticks ▸ hle
    · cases hc
  · rw [siteOps,waysOps,hsrc,hdest]
    exact hsite
  · rw [siteOps,waysOps,hsrc,hdest]
    exact hfresh

namespace Place

variable {callee : String} {d₀ e : Draft} {t : Register} {line : List Op} {child : ChildSlot}
  {done : Option Condition}
variable {ts : List (Capture × Register × Register)}

variable {W α : Type} {calls : Calls W α}

section

variable (h : Place f cond callee d d' d₀ e t line child done ts)

include h

theorem bound (hx : d'.scope.get? x = some r) : ∃ u, d.scope.get? x = some u := by
  have halters := Expr.alters h.valid h.test
  rw [← h.scope_eq]
  rcases (h.scope x r).1 hx with ⟨-,hx⟩ | ⟨t,ht,rfl,rfl⟩
  · exact halters.bound ⟨r, hx⟩
  · exact halters.bound ⟨_, h.hops.sources t ht⟩

theorem spares (hx : x ∉ cond.names) (hcaptured : x ∉ ts.map (·.1.name)) (hxr : d.scope.get? x = some r)
    (hclear : d.Clear (cond.moves f.table) r) :
    d'.scope.get? x = some r := by
  obtain ⟨-,hspares,-⟩ := cond.spares h.valid h.test
  refine (h.scope x r).2 (.inl ⟨hcaptured, hspares x r hx (h.scope_eq ▸ hxr) fun y hy u hu => ?_⟩)
  rw [h.root_eq]
  exact hclear y hy u (h.scope_eq ▸ hu)

theorem holds {memory : Register → Datum α} {env env' : Env α}
    {vs : List (Datum α)} (hholds : e.Holds d.registers.resolve memory env)
    (hvs : Env.Stands (ts.map (·.1.name)) env vs env') :
    d'.Holds d.registers.resolve (Machine.store memory (ts.map (·.2.2)) vs) env' := by
  have hresolve := (Expr.alters h.valid h.test).resolve_eq.trans h.root_eq
  have hroot := h.hops.root
  rw [hresolve] at hroot
  have hlen : (ts.map (·.2.2)).length = vs.length := by simpa using congrArg List.length hvs.values
  intro x r hx
  rcases (h.scope x r).1 hx with ⟨hx,hxr⟩ | ⟨t,ht,rfl,rfl⟩
  · have hnot : d.registers.resolve r ∉ ts.map (·.2.2) := by
      intro hmem
      obtain ⟨t,ht,heq⟩ := mem_map.1 hmem
      refine h.hops.unnamed t ht ⟨x, r, hxr, ?_⟩
      rw [hresolve,hroot t ht]
      exact heq.symm
    rw [Machine.store_of_notMem hnot,hvs.others x hx]
    exact hholds x r hxr
  · have hmap := hvs.values
    rw [← @Machine.map_store _ memory _ _ h.hops.dests hlen,map_map,map_map,map_map] at hmap
    rw [hroot t ht]
    exact map_inj_left.1 hmap t ht

end

variable {r : Routine} {body : Env α → Act W (Env α)} {m : Slate α} {env : Env α}

section

variable (h : Place f cond r.name d d' d₀ e t line child done ts) (hnew : f.table.lookup? r.name = none)
variable (hfit : calls.Fit f.table)
variable (hspin : ∀ args env₀ env, Env.Stands (ts.map (·.1.name)) env₀ args env →
  Act.Matches (r.spin calls args) (Act.iterate (Act.turn (cond.test calls) body) env)
  (Env.Stands (ts.map (·.1.name)) env₀))
variable (hreached : d.Reached m env)

include h hnew hfit hspin hreached

/-- With a closure that does what the loop does from its body on, the operations at its place do what the
loop does. -/
theorem carries :
    Act.Matches (carry (calls.along r) d.registers.resolve (d.siteOps r.name t line child done ts) m)
      (Act.loop (cond.test calls) body env)
      fun leg env' => ∃ m', leg = .onward m' ∧ d'.Holds d.registers.resolve m'.memory env' := by
  have hcalls : ∀ sig ∈ f.table.entries, calls.along r sig.name = calls sig.name := by
    intro sig hsig
    refine Function.update_of_ne (fun heq => ?_) ..
    exact find?_eq_none.1 hnew sig hsig (beq_iff_eq.2 heq)
  obtain ⟨_,hline⟩ := cond.performs hcalls hfit h.valid h.root_eq h.test
  obtain ⟨_,hflagged⟩ := cond.line knowsTable_any h.valid h.test
  obtain rfl := line_unique hline.fills.ops_eq h.line_eq
  obtain rfl := line_unique hflagged.ops_eq h.line_eq
  have hroot := h.hops.root
  have hapart := @Hops.apart _ _ h.hops
  rw [hline.resolve_eq] at hroot hapart
  have hscope : (ts.map (·.1.name)).map e.scope.get? = (ts.map (·.2.1)).map some := by
    rw [map_map,map_map]
    exact map_congr_left h.hops.sources
  rw [Act.loop_eq,← Act.bind_pure (carry _ _ _ _),siteOps,← h.current]
  have hholds : d₀.HoldsOn (fun _ => True) d.registers.resolve m.memory env := fun x u _ hx =>
    hreached.holds x u (h.scope_eq ▸ hx)
  refine hline.branches (fun _ _ => trivial) (h.current ▸ hreached.current) hholds
    fun m₁ env₁ hholds₁ _ hflags₁ => ?_
  -- neither of the two ways is open before the branch
  have hfar : ∀ c ∈ m₁.flags, c < d.count ∨ d.count + 2 ≤ c := fun c hc =>
    (hflags₁ c hc).imp (hreached.flags c) fun hc => h.count_eq ▸ (hflagged.flags c hc).1
  have hvalues : (ts.map (·.1.name)).map env₁ =
      (ts.map fun t => m₁.memory (d.registers.resolve t.2.1)).map some := by
    simpa using hholds₁.map_eq (fun _ _ => trivial) hscope
  rw [Act.bind_pure]
  cases (m₁.memory (d.registers.resolve t)).isTrue with
  | true =>
    have hdone : d.count + 1 ∉ done.toList := fun hmem =>
      Nat.not_succ_le_self _ (h.done_ge _ (Option.mem_toList.1 hmem))
    have hclosed : d.count + 1 ∉ m₁.flags := fun hmem =>
      (hfar _ hmem).elim (Nat.not_succ_lt_self) (Nat.not_succ_le_self _)
    rw [if_pos rfl,carry_called hroot hdone hclosed]
    refine (hspin _ env₁ env₁ ⟨hvalues, fun _ _ => rfl⟩).bind_left fun vs env' hvs => ?_
    exact .pure ⟨_, rfl, h.holds (holdsOn_true.1 hholds₁) hvs⟩
  | false =>
    have hclosed : d.count ∉ m₁.flags := fun hmem =>
      (hfar _ hmem).elim (lt_irrefl _) fun hle => Nat.not_succ_le_self _ (Nat.le_of_succ_le hle)
    rw [if_neg Bool.false_ne_true,carry_passed hroot (fun _ ht _ ht' => hapart ht ht') hclosed]
    exact .pure ⟨_, rfl, h.holds (holdsOn_true.1 hholds₁) ⟨hvalues, fun _ _ => rfl⟩⟩

theorem reaches :
    Act.Matches (carry (calls.along r) d'.registers.resolve (d.siteOps r.name t line child done ts) m)
      (Act.loop (cond.test calls) body env) fun leg env' => ∃ m', leg = .onward m' ∧
        d'.Reached m' env' := by
  rw [h.resolve_eq]
  refine (h.carries hnew hfit hspin hreached).found.mono ?_
  rintro _ _ ⟨⟨m',rfl,hholds⟩,w,_,hcarry,-⟩
  obtain ⟨hsub,hflags⟩ := flags_of_carry hcarry
  refine ⟨m', rfl, h.site.current ▸ hsub hreached.current, fun c hc => ?_, h.resolve_eq ▸ hholds⟩
  rcases hflags c hc with hc | hc
  · exact (hreached.flags c hc).trans_le h.fresh.le
  · exact (h.fresh.bound c hc).2

end

end Place

end Draft

/-- A loop does what its place and its closure do: one comes to an end exactly if the other does, with
the same values of variables. Names that it has nothing to do with keep their registers, and none is left
of those that it brings in. Every draft that the lowering of a function comes by is valid (`valid_start`,
`Advances.valid`). -/
theorem loop_matches {f : Frame} {span : Span} {cond : Expr} {body : Block} {d d' : Draft} {flow : Flow}
    (hd : d.Valid) (h : (Stmt.loop span cond body).lower f d = .ok (flow, d')) :
    ∃ count g names log round r rest site,
      g = f.loop count (d.captures (loopNames cond body)) ∧
        names = (loopNames cond body).filter d.scope.contains ∧
      body.lower g (.start g.params log) = .ok (.continues, round) ∧ r.name = g.name ∧
      d'.closures = d.closures ++ r :: rest ∧ d'.ops = d.ops ++ site ∧
      (∀ {W α : Type} {calls : Calls W α} {m : Slate α} {env : Env α}, calls.Fit f.table →
        d.Reached m env → Act.Matches (carry (calls.along r) d'.registers.resolve site m)
          (Act.loop (cond.test calls) (round.effect calls names) env)
          fun leg env' => ∃ m', leg = .onward m' ∧ d'.Reached m' env') ∧
      (∀ x ∈ names, ∃ t, d'.scope.get? x = some t) ∧
      (∀ x t, x ∉ loopNames cond body → d.scope.get? x = some t → d.Clear (cond.moves f.table) t →
        d'.scope.get? x = some t) ∧
      ∀ x, d.scope.get? x = none → d'.scope.get? x = none := by
  obtain ⟨-,count,log,round,_,hcount,hnew,hbody,hround,hsite⟩ := Stmt.loop_eq_ok h
  obtain ⟨-,hlap⟩ := Block.lap rfl hbody
  have hnodup : (loopNames cond body).Nodup := nodup_orderedSet _
  obtain ⟨_,e,t,_,_,_,ts,hplace,hts⟩ := place_of_encloses hd hnodup hcount hsite
  have hnames : ts.map (·.1.name) = (loopNames cond body).filter d.scope.contains := by
    rw [← names_of_captures,← hts,map_map]
    rfl
  have hparams : (loopNames cond body).filter d.scope.contains =
      (f.loop count (d.captures (loopNames cond body))).params.map (·.1) := by
    rw [← names_of_captures,Frame.loop,map_map]
    rfl
  -- the condition is looked at before the loop, so it has no names of its own
  have hcond : ∀ x ∈ cond.names, x ∈ (loopNames cond body).filter d.scope.contains := by
    intro x hx
    obtain ⟨hbound,-⟩ := cond.spares hplace.valid hplace.test
    obtain ⟨u,hu⟩ := hbound x hx
    rw [hplace.scope_eq] at hu
    simp [loopNames,hx,Scope.contains,hu]
  refine ⟨count, _, _, log, round, _, _, _, rfl, rfl, hbody, rfl, hsite.closures, hplace.site.ops_eq,
    ?_, ?_, ?_, ?_⟩
  · intro W α calls m env hfit hreached
    refine hplace.reaches hnew hfit (fun args env₀ env henv => ?_) hreached
    rw [hnames] at henv ⊢
    exact hlap.spins hround hfit hparams (hnodup.filter _) hcond henv
  · intro x hx
    obtain ⟨t,ht,rfl⟩ := mem_map.1 (hnames ▸ hx)
    exact ⟨_, (hplace.scope _ _).2 (.inr ⟨t, ht, rfl, rfl⟩)⟩
  · intro x t hx hxt hclear
    refine hplace.spares (fun hmem => ?_) (fun hmem => ?_) hxt hclear
    · exact hx (mem_of_mem_filter (hcond x hmem))
    · exact hx (mem_of_mem_filter (hnames ▸ hmem))
  · intro x hx
    cases hx' : d'.scope.get? x with
    | none => rfl
    | some r =>
      obtain ⟨u,hu⟩ := hplace.bound hx'
      cases hx.symm.trans hu

/-- `sync native func thirsty(cup: String): String, Boolean` -/
def sipTable : SignatureTable where
  entries :=
    [⟨"thirsty", "main", true, true, [("cup", .owned .string)],
      [.owned .string, .owned .boolean], .nowhere⟩]

def sipFrame : Frame :=
  ⟨sipTable, "serve", false, [("cup", .owned .string), ("mat", .owned .string)], [], false⟩

def thirsty : Expr := .call .nowhere (bare "thirsty") [.thread (bare "cup")]

/-- The loop goes on while `thirsty` says so, which takes the cup and gives it back. -/
def sipping : Stmt :=
  .loop .nowhere thirsty ⟨.nowhere, [.bind .nowhere [bare "rest"] (.text .nowhere "again")]⟩

def sipped : Draft :=
  match sipping.lower sipFrame (.start sipFrame.params []) with
  | .ok (_, d) => d
  | .error _ => .start sipFrame.params []

theorem lower_sipping :
    sipping.lower sipFrame (.start sipFrame.params []) = .ok (.continues, sipped) := by cbv

/-- Twice there is more to drink. -/
def sips : Calls Nat Empty :=
  fun _ args n vs n' => vs = [args.headD (.text ""), .truth (n < 2)] ∧ n' = n + 1

def brimming : Slate Empty := .entry [0, 1] [.text "tea", .text "cork"]

theorem sipping_matches : sips.Fit sipTable ∧
      (start sipFrame.params []).Reached brimming ((start sipFrame.params []).env brimming) ∧
      ∃ (round : Draft) (r : Routine) (rest : List Routine), sipped.closures = r :: rest ∧
        Act.Matches (carry (sips.along r) sipped.registers.resolve sipped.ops brimming)
          (Act.loop (thirsty.test sips) (round.effect sips ["cup"])
            ((start sipFrame.params []).env brimming))
          (fun leg env' => ∃ m', leg = .onward m' ∧ sipped.Reached m' env') ∧
        (∃ t, sipped.scope.get? "cup" = some t) ∧ sipped.scope.get? "mat" = some 1 ∧
        sipped.scope.get? "rest" = none := by
  have hfit : sips.Fit sipTable := by
    rintro _ hsig _ w _ _ ⟨rfl,-⟩
    obtain rfl := mem_singleton.1 hsig
    rfl
  have hreached : (start sipFrame.params []).Reached brimming
      ((start sipFrame.params []).env brimming) := by
    refine ⟨by decide, by decide, fun x r hx => ?_⟩
    rw [env,hx]
    rfl
  obtain ⟨_,g,_,_,round,r,rest,site,-,rfl,-,-,hclosures,hops,hmatches,hcaptured,hkept,hgone⟩ :=
    loop_matches (valid_start sipFrame.params []) lower_sipping
  rw [show sipped.ops = site from hops]
  refine ⟨hfit, hreached, round, r, rest, hclosures, hmatches hfit hreached, hcaptured _ (by decide),
    hkept _ _ (by decide) (by decide) ?_, hgone _ (by decide)⟩
  intro y hy u hu
  obtain rfl : y = "cup" := mem_singleton.1 hy
  obtain rfl : 0 = u := Option.some.inj hu
  decide

end Polled
