import Polled.Proofs.Courses

/-!
What operations read has been written before.

The one place where that takes an argument is behind a branch: a variable goes on in the register of the
arm that was taken, or in a copy of it that the arm makes at its end.
-/

namespace Polled

open Lower Passage List

variable {r t : Register} {side ended : Bool} {d d' : Draft} {line T : List Op} {callees : Callees}
variable {took : Condition → Prop} {f : Frame} {c : Code} {flow : Flow}

namespace Draft

/-- Registers of one group share a slot. -/
def Respects (d : Draft) (slot : Register → Register) : Prop :=
  ∀ a b, a < d.registers.size → b < d.registers.size → d.registers.resolve a = d.registers.resolve b →
    slot a = slot b

variable {slot : Register → Register} {base : Register → Prop} {e : Draft}

theorem Respects.of_grows (h : d'.Respects slot)
    (hgrows : d.registers.layout.Grows d'.registers.layout) : d.Respects slot := by
  intro a b ha hb hab
  refine h a b (ha.trans_le hgrows.size_le) (hb.trans_le hgrows.size_le) ?_
  exact (hgrows.root_old a ha).trans (hab.trans (hgrows.root_old b hb).symm)

theorem Respects.of_layout (h : d'.Respects slot) (heq : d'.registers.layout = d.registers.layout) :
    d.Respects slot := by
  have hsize : d'.registers.size = d.registers.size := congrArg Layout.size heq
  have hroot : d'.registers.resolve = d.registers.resolve := congrArg Layout.root heq
  intro a b
  rw [← hsize,← hroot]
  exact h a b

theorem get?_giveNames {xs : List String} {rs : List Register} {x : String} (hsorted : d.scope.Sorted)
    (h : (d.giveNames xs rs).scope.get? x = some r) : d.scope.get? x = some r ∨ r ∈ rs := by
  induction xs generalizing d rs with
  | nil => exact .inl h
  | cons y xs ih =>
    cases rs with
    | nil => exact .inl h
    | cons t rs =>
      rcases ih (sorted_giveName hsorted y) h with h | h
      · rcases (get?_giveName hsorted).1 h with ⟨-,rfl⟩ | ⟨-,h,-⟩
        · exact .inr mem_cons_self
        · exact .inl h
      · exact .inr (mem_cons_of_mem t h)

end Draft

section

variable {slot : Register → Register} {base : Register → Prop} {ops : List Op}

theorem Fed.append (h : Fed slot base T)
    (hops : ∀ op ∈ ops, (∀ r done, op ≠ .free r done) → ∀ r ∈ op.reads, Given slot base T (slot r)) :
    Fed slot base (T ++ ops) := by
  induction ops generalizing T with
  | nil => simpa using h
  | cons op ops ih =>
    have hrest := ih (h.concat (hops op mem_cons_self)) fun o ho hfree r hr =>
      (hops o (mem_cons_of_mem op ho) hfree r hr).append [op]
    simpa using hrest

theorem given_of_mem {op : Op} (hop : op ∈ ops) (hr : r ∈ op.provides) :
    Given slot base (T ++ ops) (slot r) := by
  refine .inr (mem_flatMap.2 ⟨op, mem_append_right T hop, ?_⟩)
  exact mem_map_of_mem hr

end

open Draft

section

variable {slot : Register → Register} {base : Register → Prop} {span : Span}
variable {dt df : Draft} {test : Register} {flowT flowF : Flow} {opsT opsF seam : List GuardedOp}

section

variable (h : Arms callees False d test dt df flowT flowF opsT opsF)
variable (hbehind : Behind f span d dt df d' flowT flowF flow) (hslot : d'.Respects slot)

include h hbehind hslot

theorem Draft.Arms.respects : df.Respects slot := by
  rcases h.behind hbehind with ⟨hlayout,-⟩ | ⟨-,-,_,_,hreunion⟩
  · exact hslot.of_layout hlayout
  · intro a b ha hb hab
    exact hslot a b (ha.trans_le hreunion.blends.size_le) (hb.trans_le hreunion.blends.size_le)
      (hreunion.blends.root_congr a b hab)

theorem Draft.Arms.respects_arm (side : Bool) : Draft.Respects (bif side then dt else df) slot := by
  cases side with
  | true => exact (h.respects hbehind hslot).of_grows h.grows
  | false => exact h.respects hbehind hslot

end

/-- How the names of an arm go on behind it, with what the arm does at its end. -/
structure Draft.Handover (scope : Scope) (d' : Draft) (slot : Register → Register)
    (ops : List Op) : Prop where
  names : ∀ x j, d'.scope.get? x = some j →
    ∃ r t, scope.get? x = some r ∧ slot t = slot j ∧ (t = r ∨ .rename r t ∈ ops)
  ops : ∀ op ∈ ops, (∃ r done, op = .free r done) ∨ ∃ x r t, scope.get? x = some r ∧ op = .rename r t

theorem Draft.Handover.silent {scope : Scope} (hscope : d'.scope = scope) :
    Handover scope d' slot [] where
  names x j hx := ⟨j, j, hscope ▸ hx, rfl, .inl rfl⟩
  ops := by simp

theorem Draft.Handover.supplied {e : Draft} {ops : List Op} (h : Handover e.scope d' slot ops)
    (hT : e.Supplied slot base T) : d'.Supplied slot base (T ++ ops) := by
  refine ⟨fun x j hx => ?_, hT.fed.append fun op hop hfree r hr => ?_⟩
  · obtain ⟨r,t,hr,hslot,hcopy⟩ := h.names x j hx
    rw [← hslot]
    rcases hcopy with rfl | hmove
    · exact (hT.names x t hr).append _
    · exact given_of_mem hmove mem_cons_self
  · rcases h.ops op hop with ⟨t,done,rfl⟩ | ⟨x,t,u,ht,rfl⟩
    · exact absurd rfl (hfree t done)
    · rw [mem_singleton.1 hr]
      exact hT.names x t ht

theorem Draft.Reunion.handover {moves : List Transfer} {frees : List (Register × Condition)}
    (h : Reunion d dt df d' moves frees) (hslot : d'.Respects slot) (hseam : d'.ops = df.ops ++ seam)
    (side : Bool) :
    Handover (bif side then dt else df).scope d' slot
      ((seam.filter (·.condition == d.armCondition side)).map (·.op)) := by
  have hne : d.armCondition (!side) ≠ d.armCondition side := by
    cases side with
    | true => exact (lt_add_one _).ne'
    | false => exact (lt_add_one _).ne
  have hscope : (bif side then dt.scope else df.scope) = (bif side then dt else df).scope := by
    cases side <;> rfl
  obtain rfl := append_cancel_left (hseam.symm.trans (h.ops_eq.trans (append_assoc _ _ _)))
  refine ⟨fun x j hx => ?_, fun op hop => ?_⟩
  · rcases h.blends.names x j hx with hempty | ⟨hj,hsides⟩
    · simp at hempty
    · obtain ⟨r,t,hr,ht,hroot,hcopy⟩ := hsides side
      refine ⟨r, t, hscope ▸ hr, hslot t j ht hj hroot, hcopy.imp_right fun hmove => ?_⟩
      refine mem_map.2 ⟨Transfer.op d.armCondition ⟨side, r, t⟩,
        mem_filter.2 ⟨?_, by simp [Transfer.op]⟩, rfl⟩
      exact mem_append_left _ (mem_map_of_mem hmove)
  · obtain ⟨g,hg,rfl⟩ := mem_map.1 hop
    obtain ⟨hg,hside⟩ := mem_filter.1 hg
    rcases mem_append.1 hg with hg | hg
    · obtain ⟨m,hm,rfl⟩ := mem_map.1 hg
      have hm' : m.side = side := by
        by_contra hother
        refine hne ?_
        rw [show (!side) = m.side by cases side <;> simp_all]
        simpa [Transfer.op] using hside
      obtain ⟨⟨x,hx⟩,-⟩ := h.blends.copies m hm
      rw [hm'] at hx
      exact .inr ⟨x, m.source, m.dest, hscope ▸ hx, rfl⟩
    · obtain ⟨p,-,rfl⟩ := mem_map.1 hg
      exact .inl ⟨_, _, rfl⟩

theorem Draft.Arms.handover (h : Arms callees False d test dt df flowT flowF opsT opsF)
    (hbehind : Behind f span d dt df d' flowT flowF flow) (hslot : d'.Respects slot)
    (hseam : d'.ops = df.ops ++ seam) (hgoes : (bif side then flowT else flowF) = .continues) :
    Handover (bif side then dt else df).scope d' slot
      ((seam.filter (·.condition == d.armCondition side)).map (·.op)) := by
  cases flowT with
  | returns =>
    cases flowF with
    | returns => cases side <;> cases hgoes
    | continues =>
      obtain ⟨-,rfl⟩ := hbehind
      obtain rfl : seam = [] := self_eq_append_right.1 hseam
      cases side with
      | true => cases hgoes
      | false => exact .silent rfl
  | continues =>
    cases flowF with
    | returns =>
      obtain ⟨-,rfl⟩ := hbehind
      obtain rfl : seam = [] := self_eq_append_right.1 hseam
      cases side with
      | true => exact .silent rfl
      | false => cases hgoes
    | continues =>
      obtain ⟨_,_,hreunion⟩ := h.reunion hbehind
      exact hreunion.handover hslot hseam side

end

section

variable {slot : Register → Register} {base : Register → Prop}

theorem Draft.Detour.supplied {callee : String} {child : ChildSlot} {done : Option Condition}
    {captures : List Capture} {sources : List Register}
    (h : Detour anyOutline d d' t callee child done captures sources line)
    (hT : d.Supplied slot base T) :
    d'.Supplied slot base (T ++ (line ++ [.branch t d.count (d.count + 1)] ++
      bif side then [.callAsync callee sources (d.arrivals captures) child done]
      else (d.crossed captures sources).map fun t =>
        Op.rename t.2.1 t.2.2)) := by
  obtain ⟨hfed,htest,hsources⟩ := h.supplies slot base T hT
  have hlen : sources.length = captures.length := by
    obtain ⟨-,-,hkinds,-⟩ := h.kinded ⟨false, [], []⟩ d'.registers.kind fun _ _ => rfl
    simpa using congrArg List.length hkinds
  have hbranch : Fed slot base (T ++ line ++ [.branch t d.count (d.count + 1)]) :=
    hfed.concat fun _ r hr => mem_singleton.1 hr ▸ htest
  have hsources' : ∀ r ∈ sources, Given slot base
      (T ++ line ++ [.branch t d.count (d.count + 1)]) (slot r) :=
    fun r hr => (hsources r hr).append _
  rw [← append_assoc,← append_assoc]
  cases side with
  | true =>
    refine ⟨fun x r hx => ?_, hbranch.append fun op hop _ r hr => ?_⟩
    · rw [cond_true,append_assoc (T ++ line)]
      refine h.names slot base T _ hT (fun r hr => ?_) x r hx
      rw [← append_assoc]
      exact given_of_mem (mem_singleton_self _) hr
    · rw [mem_singleton.1 hop] at hr
      exact hsources' r hr
  | false =>
    refine ⟨fun x r hx => ?_, hbranch.append fun op hop _ r hr => ?_⟩
    · rw [cond_false,append_assoc (T ++ line)]
      refine h.names slot base T _ hT (fun r (hr : r ∈ d.arrivals captures) => ?_) x r hx
      rw [← append_assoc]
      rw [← (d.crossed_maps hlen).2.2] at hr
      obtain ⟨p,hp,rfl⟩ := mem_map.1 hr
      exact given_of_mem (mem_map.2 ⟨p, hp, rfl⟩) mem_cons_self
    · obtain ⟨p,hp,rfl⟩ := mem_map.1 hop
      obtain ⟨i,-,hsource,-⟩ := mem_crossing hp
      rw [mem_singleton.1 hr]
      exact hsources' _ (mem_of_getElem? hsource)

theorem Course.ended_of_returns (h : Course callees took f c d flow d' T ended)
    (hflow : flow = .returns) : ended = true := by
  induction h with
  | exit _ _ _ => rfl
  | @branch _ _ _ _ _ _ _ _ _ _ _ _ _ _ _ _ _ _ side _ _ _ _ _ hbehind _ _ _ _ _ ih =>
    obtain ⟨_,_⟩ := hbehind.flow_iff.1 hflow
    exact ih (by cases side <;> assumption)
  | last _ ih => exact ih hflow
  | stop _ _ _ => rfl
  | cons _ _ _ _ _ _ ih' => exact ih' hflow
  | _ => cases hflow

theorem Course.continues (h : Course callees took f c d flow d' T false) : flow = .continues := by
  cases flow with
  | continues => rfl
  | returns => cases h.ended_of_returns rfl

theorem Course.supplied (h : Course callees took f c d flow d' T ended) (hslot : d'.Respects slot)
    {T₀ : List Op} (hT : d.Supplied slot base T₀) :
    Fed slot base (T₀ ++ T) ∧ (ended = false → d'.Supplied slot base (T₀ ++ T)) := by
  induction h generalizing T₀ with
  | @bind _ names value _ _ _ line hd hvalue _ hline =>
    obtain ⟨line',hline'⟩ := value.line knowsTable_any hd hvalue
    obtain rfl := line_unique hline'.ops_eq hline
    obtain ⟨he,hrs⟩ := hline'.supplies slot base T₀ hT
    obtain ⟨⟨_,hstraight⟩,-⟩ := value.straight f.table.callees_cover hd hvalue
    refine ⟨he.fed, fun _ => ⟨fun x r hx => ?_, he.fed⟩⟩
    exact (get?_giveNames (hstraight.valid hd).sorted hx).elim (he.names x r) (hrs r)
  | @run _ value _ _ line hd hvalue hline =>
    obtain ⟨line',hline'⟩ := value.line knowsTable_any hd hvalue
    obtain rfl := line_unique hline'.ops_eq hline
    obtain ⟨he,-⟩ := hline'.supplies slot base T₀ hT
    exact ⟨he.fed, fun _ => he⟩
  | @exit _ _ _ _ _ _ hd hvalues hline =>
    obtain ⟨line',hline',-⟩ := exitValues_line knowsTable_any hd hvalues
    obtain rfl := line_unique hline'.ops_eq hline
    obtain ⟨he,hrs⟩ := hline'.supplies slot base T₀ hT
    rw [← append_assoc]
    exact ⟨he.fed.concat fun _ r hr => hrs r hr, by simp⟩
  | @branch _ cond _ _ d₀ d dt df d' test flowT flowF flow _ _ seam line T side ended hd₀ htest hline
      harms hbehind _ harm hseam _ _ ih =>
    obtain ⟨line',hline'⟩ := cond.line knowsTable_any hd₀ htest
    obtain rfl := line_unique hline'.ops_eq hline
    obtain ⟨hd,htests⟩ := hline'.supplies slot base T₀ hT
    have hstart : (d.armStart dt test side).Supplied slot base
        (T₀ ++ line' ++ [d.split test]) := by
      refine ⟨fun x r hx => (hd.names x r ?_).append _, hd.fed.concat fun _ r hr => htests r hr⟩
      rwa [scope_armStart] at hx
    obtain ⟨hfed,hgoes⟩ := ih (harms.respects_arm hbehind hslot side) hstart
    rw [← append_assoc,← append_assoc,← append_assoc]
    cases ended with
    | true =>
      rw [cond_true,append_nil]
      exact ⟨hfed, by simp⟩
    | false =>
      have hafter := (harms.handover hbehind hslot hseam harm.continues).supplied (hgoes rfl)
      exact ⟨hafter.fed, fun _ => hafter⟩
  | loop hdetour => exact ⟨(hdetour.supplied hT).fed, fun _ => hdetour.supplied hT⟩
  | nil => simpa using ⟨hT.fed, hT⟩
  | last _ ih => exact ih hslot hT
  | stop hgrows _ ih => exact ⟨(ih (hslot.of_grows hgrows) hT).1, by simp⟩
  | @cons _ _ _ e _ _ T frees _ _ hgrows hfrees _ _ _ ih ih' =>
    obtain ⟨-,he⟩ := ih (hslot.of_grows hgrows) hT
    have he := he rfl
    have hswept : (e.swept f).Supplied slot base (T₀ ++ T ++ frees) := by
      refine ⟨fun x r hx => ((he.names x r ?_).append frees), he.fed.append fun op hop hfree => ?_⟩
      · rwa [swept,(freeAll_spec e f _).1] at hx
      · obtain ⟨r,done,rfl⟩ := hfrees op hop
        exact absurd rfl (hfree r done)
    have hrest := ih' hslot hswept
    simpa only [append_assoc] using hrest

end

/-- Whatever an operation but a release reads is a parameter or was written earlier on the path. -/
def Routine.Feeds (r : Routine) : Prop :=
  ∀ p ∈ r.paths, Fed r.slot (· ∈ (List.range r.paramCount).map r.slot) p

theorem supplied_start (params : List (String × Kind)) (log : List Event) (slot : Register → Register) :
    (start params log).Supplied slot (· ∈ (List.range params.length).map slot) [] := by
  refine ⟨fun x r hx => .inl (mem_map_of_mem (mem_range.2 ?_)), fed_nil⟩
  have hlt := (entry_start params log).1.bound x r hx
  rwa [size_start] at hlt

theorem respects_routine (d : Draft) (f : Frame) : d.Respects (d.routine f).slot := by
  intro a b _ _ hab
  rw [Routine.slot_eq (f := d.registers) rfl]
  exact hab

section

variable {table : SignatureTable} {r : Routine}

theorem Draft.Turning.mem_through {known : String → Outline → Prop} {params : List Kind} {mid : Nat}
    {values garbage : List Register} {w v : Walk}
    (h : Turning known params d d' mid t values garbage line) (hw : w.Active d)
    (hv : v ∈ w.through (line.map (GuardedOp.mk d.current) ++ ([⟨d.current, .branch t mid (mid + 1)⟩] ++
      [⟨mid, .restartLoop values garbage⟩, ⟨mid + 1, .ret values garbage⟩]))) :
    ∃ op, (op = .restartLoop values garbage ∨ op = .ret values garbage) ∧
      v.trace = w.trace ++ line ++ [.branch t mid (mid + 1)] ++ [op] ∧ v.ended = true := by
  rw [Walk.mem_through_exits hw.goes hw.current
    (fun op hop => ⟨(h.plain op hop).isBranch, (h.plain op hop).goes⟩)
    (fun c hc => (hw.bound c hc).trans_le h.mid_le) ⟨rfl, rfl⟩ ⟨rfl, rfl⟩] at hv
  rcases hv with rfl | rfl
  · exact ⟨_, .inl rfl, rfl, rfl⟩
  · exact ⟨_, .inr rfl, rfl, rfl⟩

theorem Draft.EndsRound.walks {f : Frame} {cond : Expr} {ss : List Stmt} {d₁ d' : Draft}
    {log : List Event} {ops : List GuardedOp}
    (hadvance : Advances callees False (.start f.params log) d₁ .continues ops)
    (hbody : Lowers callees f (.block ss) (.start f.params log) .continues d₁)
    (hround : EndsRound f cond d₁ d') :
    ∃ mid t values garbage line, Turning anyOutline (f.params.map (·.2)) d₁ d' mid t values
      garbage line ∧ ∀ v ∈ Walk.start.through (d'.routine f).ops, v.ended = true ∧ ∃ T ended rest,
        Course callees (fun _ => True) f (.block ss) (.start f.params log) .continues d₁ T ended ∧
          v.trace = T ++ rest ∧
        (rest = [] ∨ ended = false ∧
          ∃ exit, (exit = .restartLoop values garbage ∨ exit = .ret values garbage) ∧
          rest = line ++ [.branch t mid (mid + 1)] ++ [exit]) := by
  obtain ⟨mid,t,values,garbage,line,hturning⟩ := turning_of_endsRound hround hadvance knowsTable_any
  refine ⟨mid, t, values, garbage, line, hturning, fun v hv => ?_⟩
  have hbefore : d₁.ops = ops := hadvance.extend.ops_eq
  have hops : (d'.routine f).ops = ops ++ _ := hturning.ops_eq.trans (congrArg (· ++ _) hbefore)
  rw [hops,Walk.mem_through_append] at hv
  obtain ⟨u,hu,hv⟩ := hv
  have hcourse := hbody.course_start (hbefore ▸ hu) fun _ _ => trivial
  cases hend : u.ended with
  | true =>
    obtain rfl := Walk.eq_of_ended hend hv
    exact ⟨hend, v.trace, _, [], hcourse, (append_nil _).symm, .inl rfl⟩
  | false =>
    obtain ⟨exit,hexit,htrace,hended⟩ := hturning.mem_through
      (hadvance.active (active_start (lt_add_one 0)) hu hend) hv
    refine ⟨hended, u.trace, _, line ++ [.branch t mid (mid + 1)] ++ [exit], hcourse, ?_,
      .inr ⟨hend, exit, hexit, rfl⟩⟩
    rw [htrace]
    simp only [append_assoc]

theorem Closure.feeds {loops : List (Expr × Block)} {all : List Routine}
    (h : Closure callees table loops all r) : r.Feeds := by
  obtain ⟨f,_,_,_,d',log,_,-,-,-,-,-,hadvance,hbody,hround,-,rfl⟩ := h
  obtain ⟨mid,t,_,_,_,hturning,hwalks⟩ := hround.walks hadvance hbody
  have hslot := (respects_routine d' f).of_grows hturning.grows
  intro p hp
  obtain ⟨v,hv,rfl⟩ := mem_map.1 hp
  obtain ⟨-,T,_,_,hcourse,htrace,hrest⟩ := hwalks v hv
  obtain ⟨_,hgoes⟩ := hcourse.supplied hslot (supplied_start f.params log _)
  rw [htrace]
  rcases hrest with rfl | ⟨hend,_,hexit,rfl⟩
  · rwa [append_nil]
  · obtain ⟨hline,htest,hvalues⟩ := hturning.supplies _ _ _ (hgoes hend)
    have hbranch := @Fed.concat _ _ _ (.branch t mid (mid + 1)) hline fun _ r hr =>
      mem_singleton.1 hr ▸ htest
    rw [← append_assoc,← append_assoc]
    exact hbranch.concat fun _ r hr => (hvalues r (by rcases hexit with rfl | rfl <;> exact hr)).append _

theorem feeds_of_lowerFunction {d : Decl} {body : Block} {log : List Event} {l : Lowered}
    (h : lowerFunction table d body log = .ok l) (hr : r ∈ l.routine :: l.closures) : r.Feeds := by
  rcases mem_cons.1 hr with rfl | hr
  · obtain ⟨_,draft,hroutine,hcourse⟩ := exists_course h
    intro p hp
    obtain ⟨v,hv,rfl⟩ := mem_map.1 hp
    rw [hroutine]
    exact ((hcourse v hv).supplied (respects_routine draft _) (supplied_start _ _ _)).1
  · exact (closure_of_lowerFunction h hr).1.feeds

end

end Polled
