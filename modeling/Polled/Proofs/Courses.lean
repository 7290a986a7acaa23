import Polled.Proofs.Shapes

/-!
One path through lowered code.

`Course` is `Lowers` along a single path. `Lowers.course` finds it for every walk, so that what holds of
paths is shown by induction over courses, without looking at conditions again.
-/

namespace Polled

open Lower Passage List

variable {g : GuardedOp} {mixed : Prop} {flow flowT flowF : Flow} {dt df : Draft} {test : Register}
variable {opsT opsF : List GuardedOp}

namespace Draft

def armStart (d dt : Draft) (test : Register) : Bool → Draft
  | true => d.fork test
  | false => (dt.resume d).under (d.armCondition false)

theorem scope_armStart (d dt : Draft) (test : Register) (side : Bool) :
    (d.armStart dt test side).scope = d.scope := by
  cases side <;> rfl

theorem Arms.grows_start {callees : Callees} {strict : Prop} {d : Draft}
    (h : Arms callees strict d test dt df flowT flowF opsT opsF) (side : Bool) :
    d.registers.layout.Grows (d.armStart dt test side).registers.layout := by
  cases side with
  | true => exact .refl h.valid.sound.wf
  | false =>
    rw [show (d.armStart dt test false).registers.layout =
      dt.registers.layout from dt.registers.layout_withLive _]
    exact h.grows_true

end Draft

open Draft

/-- A path through lowered code, with the operations on it and whether it has come to an exit. `took` is
what is known of the conditions that it chooses. -/
inductive Course (callees : Callees) (took : Condition → Prop) :
    Frame → Code → Draft → Flow → Draft → List Op → Bool → Prop
  | bind {f : Frame} {span : Span} {names : List (Located String)} {value : Expr} {d e : Draft}
      {rs : List Register}
      {line : List Op} (hd : d.Valid) (hvalue : value.lower f d = .ok (rs, e))
        (hlen : rs.length = names.length)
      (hline : e.ops = d.ops ++ line.map (GuardedOp.mk d.current)) :
      Course callees took f (.stmt (.bind span names value)) d .continues
        (e.giveNames (names.map (·.node)) rs) line false
  | run {f : Frame} {span : Span} {value : Expr} {d e : Draft} {line : List Op} (hd : d.Valid)
      (hvalue : value.lower f d = .ok ([], e))
        (hline : e.ops = d.ops ++ line.map (GuardedOp.mk d.current)) :
      Course callees took f (.stmt (.run span value)) d .continues e line false
  | exit {f : Frame} {span : Span} {value : Option Expr} {d e : Draft} {rs : List Register}
      {line : List Op}
      (hd : d.Valid) (hvalues : exitValues f value d = .ok (rs, e))
      (hline : e.ops = d.ops ++ line.map (GuardedOp.mk d.current)) :
      Course callees took f (.stmt (.ret span value)) d .returns (e.leave rs)
        (line ++ [.ret rs (e.exitGarbage rs)]) true
  | branch {f : Frame} {span : Span} {cond : Expr} {onTrue onFalse : Block} {d₀ d dt df d' : Draft}
      {test : Register}
      {flowT flowF flow : Flow} {opsT opsF seam : List GuardedOp} {line T : List Op} {side ended : Bool}
      (hd₀ : d₀.Valid) (htest : cond.lower f d₀ = .ok ([test], d))
      (hline : d.ops = d₀.ops ++ line.map (GuardedOp.mk d₀.current))
      (harms : Arms callees False d test dt df flowT flowF opsT opsF)
      (hbehind : Behind f span d dt df d' flowT flowF flow) (htook : took (d.armCondition side))
      (harm : Course callees took f (.block (bif side then onTrue else onFalse).stmts)
        (d.armStart dt test side) (bif side then flowT else flowF) (bif side then dt else df) T ended)
      (hseam : d'.ops = df.ops ++ seam)
        (hT : Lowers callees f (.block onTrue.stmts) (d.fork test) flowT dt)
      (hF : Lowers callees f (.block onFalse.stmts)
        ((dt.resume d).under (d.armCondition false)) flowF df) :
      Course callees took f (.stmt (.branch span cond onTrue onFalse)) d₀ flow d'
        (line ++ [.branch test (d.armCondition true) (d.armCondition false)] ++ T ++
          bif ended then [] else (seam.filter (·.condition == d.armCondition side)).map (·.op)) ended
  | loop {f : Frame} {span : Span} {cond : Expr} {body : Block} {d d' : Draft} {t : Register}
      {callee : String}
      {slot : ChildSlot} {done : Option Condition} {captures : List Capture} {sources : List Register}
        {line : List Op}
      {side : Bool} (hdetour : Detour anyOutline d d' t callee slot done captures sources line) :
      Course callees took f (.stmt (.loop span cond body)) d .continues d'
        (line ++ [.branch t d.control.conditionCount (d.control.conditionCount + 1)] ++
          bif side then
          [.callAsync callee sources (List.range' d.registers.size captures.length) slot done]
          else (crossing captures sources (List.range' d.registers.size captures.length)).map fun t =>
            Op.rename t.2.1 t.2.2) false
  | nil {f : Frame} {d : Draft} : Course callees took f (.block []) d .continues d [] false
  | last {f : Frame} {s : Stmt} {d d' : Draft} {T : List Op} {ended : Bool}
      (hs : Course callees took f (.stmt s) d .returns d' T ended) : Course callees took f (.block [s]) d
        .returns d' T ended
  | stop {f : Frame} {s : Stmt} {ss : List Stmt} {d e d' : Draft} {flow : Flow} {T : List Op}
      (hgrows : e.registers.layout.Grows d'.registers.layout)
        (hs : Course callees took f (.stmt s) d .continues e T true) :
      Course callees took f (.block (s :: ss)) d flow d' T true
  | cons {f : Frame} {s : Stmt} {ss : List Stmt} {d e d' : Draft} {flow : Flow} {T frees T' : List Op}
      {ended : Bool}
      (hgrows : e.registers.layout.Grows d'.registers.layout) (hfrees : ∀ op ∈ frees, ∃ r done,
        op = .free r done)
      (hs : Course callees took f (.stmt s) d .continues e T false)
      (hss : Course callees took f (.block ss) (e.swept f) flow d' T' ended)
      (hfirst : Lowers callees f (.stmt s) d .continues e) :
      Course callees took f (.block (s :: ss)) d flow d' (T ++ frees ++ T') ended

section

variable {callees : Callees} {f : Frame} {d d' : Draft} {ops : List GuardedOp} {w v : Walk}

theorem Draft.Line.mem_through {known : String → Outline → Prop} {rs : List Register} {line : List Op}
    {gs : List GuardedOp} (h : Line known d d' rs line) (hw : w.Active d) :
    v ∈ w.through (line.map (GuardedOp.mk d.current) ++ gs) ↔
      v ∈ Walk.through gs ⟨w.chosen, w.trace ++ line, false⟩ := by
  rw [Walk.mem_through_append,Walk.through_plain line hw.goes hw.current fun op hop =>
    ⟨(h.plain op hop).isBranch, (h.plain op hop).goes⟩]
  simp

theorem Draft.mem_through_seam {u : Walk} {seam : List GuardedOp} {side : Bool}
    (hseam : ∀ g ∈ seam, (∃ b, g.condition = d.armCondition b) ∧ g.op.Plain)
    (hmem : d.armCondition side ∈ u.chosen) (hnot : d.armCondition (!side) ∉ u.chosen)
    (hv : v ∈ u.through seam) :
    v.ended = u.ended ∧ v.trace = u.trace ++
      bif u.ended then [] else (seam.filter (·.condition == d.armCondition side)).map (·.op) := by
  cases hend : u.ended with
  | true =>
    simp [Walk.eq_of_ended hend hv,hend]
  | false =>
    rw [through_taken hend (fun g hg => ⟨(hseam g hg).1, (hseam g hg).2.isBranch, (hseam g hg).2.goes⟩)
      hmem hnot, mem_singleton] at hv
    simp [hv]

end

variable {took : Condition → Prop}

/-- Every walk follows a course. -/
theorem Lowers.course {callees : Callees} {f : Frame} {c : Code} {d d' : Draft}
    (h : Lowers callees f c d flow d') {ops : List GuardedOp} (hops : d'.ops = d.ops ++ ops) {w v : Walk}
    (hw : w.Active d) (hv : v ∈ w.through ops) (htook : ∀ c ∈ v.chosen, took c) :
    ∃ T, v.trace = w.trace ++ T ∧ Course callees took f c d flow d' T v.ended := by
  induction h generalizing ops w v with
  | @bind f _ names value d e rs hd hvalue hlen =>
    obtain ⟨line,hline⟩ := value.line knowsTable_any hd hvalue
    obtain ⟨_,heq⟩ := e.exists_giveNames (names.map (·.node)) rs
    have hops : e.ops = d.ops ++ ops := by
      rw [heq] at hops
      exact hops
    obtain rfl :=
      append_cancel_left (hops.symm.trans (hline.ops_eq.trans (congrArg _ (append_nil _).symm)))
    obtain rfl := mem_singleton.1 ((hline.mem_through hw).1 hv)
    exact ⟨line, rfl, .bind hd hvalue hlen hline.ops_eq⟩
  | @run f _ value _ _ hd hvalue =>
    obtain ⟨line,hline⟩ := value.line knowsTable_any hd hvalue
    obtain rfl :=
      append_cancel_left (hops.symm.trans (hline.ops_eq.trans (congrArg _ (append_nil _).symm)))
    obtain rfl := mem_singleton.1 ((hline.mem_through hw).1 hv)
    exact ⟨line, rfl, .run hd hvalue hline.ops_eq⟩
  | @exit f _ _ d e rs hd _ hvalues =>
    obtain ⟨line,hline,-⟩ := exitValues_line knowsTable_any hd hvalues
    obtain ⟨_,heq,-⟩ := e.exists_leave rs
    have hops : e.ops ++ [⟨e.current, .ret rs (e.exitGarbage rs)⟩] = d.ops ++ ops := by
      rw [heq] at hops
      exact hops
    rw [hline.ops_eq,append_assoc] at hops
    obtain rfl := (append_cancel_left hops).symm
    rw [hline.mem_through hw,hline.current] at hv
    have hnext := @Walk.next_op ⟨w.chosen, w.trace ++ line, false⟩ d.current (.ret rs (e.exitGarbage rs))
      rfl hw.current rfl
    rw [Walk.through,hnext] at hv
    obtain rfl : v = _ := by simpa [Walk.through] using hv
    exact ⟨line ++ [.ret rs (e.exitGarbage rs)], by simp, .exit hd hvalues hline.ops_eq⟩
  | @branch f _ cond onTrue onFalse _ d dt df _ test flowT flowF _ _ _ hd₀ htest _ harms hT hF
      hbehind ihT ihF =>
    obtain ⟨line,hline⟩ := cond.line knowsTable_any hd₀ htest
    obtain ⟨_,hseam,hplain,-⟩ := harms.knit hbehind
    have hall : df.ops = d.ops ++ _ := harms.extends_false.ops_eq
    rw [hseam,hall,hline.ops_eq] at hops
    simp only [append_assoc] at hops
    obtain rfl := (append_cancel_left hops).symm
    obtain ⟨side,hv⟩ := (mem_through_fork hw hline.current fun op hop =>
      ⟨(hline.plain op hop).isBranch, (hline.plain op hop).goes⟩).1 hv
    have hactive := active_fork line (d.split test) hw hline.current
      hline.count_le
    rw [← append_assoc] at hv
    obtain ⟨u,hu,hv⟩ := Walk.mem_through_append.1 hv
    obtain ⟨hu,hmem,hnot⟩ := harms.side hactive hu
    have hkept := (Walk.chosen_of_through hv).1
    obtain ⟨hended,htrace⟩ := mem_through_seam hplain hmem hnot hv
    have harm : ∃ T, u.trace = w.trace ++ line ++ [d.split test] ++ T ∧
        Course callees took f (.block (bif side then onTrue else onFalse).stmts)
        (d.armStart dt test side)
          (bif side then flowT else flowF) (bif side then dt else df) T u.ended := by
      cases side with
      | true =>
        exact ihT harms.onTrue.extend.ops_eq (Arms.active_true hactive) hu fun c hc =>
          htook c (hkept c hc)
      | false =>
        exact ihF harms.onFalse.extend.ops_eq (harms.active_false hactive) hu fun c hc =>
          htook c (hkept c hc)
    obtain ⟨T,hT',hcourse⟩ := harm
    rw [hended,htrace,hT']
    exact ⟨_, by simp only [append_assoc],
      .branch hd₀ htest hline.ops_eq harms hbehind (htook _ (hkept _ hmem)) hcourse hseam hT hF⟩
  | @loop f _ _ _ _ _ _ _ _ _ _ _ hd hcaptures hcount _ _ _ _ hsite =>
    obtain ⟨t,_,done,_,_,hdetour⟩ := detour_of_encloses hsite knowsTable_any hd
      (nodup_orderedSet _) hcount hcaptures
    obtain rfl := append_cancel_left (hops.symm.trans hdetour.ops_eq)
    rw [mem_through_around hw fun op hop =>
      ⟨(hdetour.plain op hop).isBranch, (hdetour.plain op hop).goes⟩] at hv
    rcases hv with rfl | rfl
    · exact ⟨_, by simp only [append_assoc,cond_true], @Course.loop _ _ _ _ _ _ _ _ _ _ _ _ _ _
        _ true hdetour⟩
    · exact ⟨_, by simp only [append_assoc,cond_false], @Course.loop _ _ _ _ _ _ _ _ _ _ _ _ _ _ _
        false hdetour⟩
  | nil =>
    obtain rfl : ops = [] := by simpa using hops
    obtain rfl := mem_singleton.1 hv
    exact ⟨[], by simp, hw.goes ▸ .nil⟩
  | last _ ih =>
    obtain ⟨T,hT,hcourse⟩ := ih hops hw hv htook
    exact ⟨T, hT, .last hcourse⟩
  | @cons f _ _ _ e _ _ _ _ _ hadvance hsweep hrest hs _ ih ih' =>
    obtain ⟨frees,hfrees,hlaid⟩ := @laid_swept True e f
    obtain rfl := append_cancel_left (hsweep.extend.ops_eq.symm.trans hlaid.ops_eq)
    have hgrows := hsweep.extend.grows.trans hrest.extend.grows
    rw [hrest.extend.ops_eq,hlaid.ops_eq,hadvance.extend.ops_eq,append_assoc,append_assoc] at hops
    obtain rfl := (append_cancel_left hops).symm
    obtain ⟨u,hu,hv⟩ := Walk.mem_through_append.1 hv
    obtain ⟨T,hT,hcourse⟩ := ih hadvance.extend.ops_eq hw hu fun c hc =>
      htook c ((Walk.chosen_of_through hv).1 c hc)
    cases hend : u.ended with
    | true =>
      obtain rfl := Walk.eq_of_ended hend hv
      rw [hend] at hcourse ⊢
      exact ⟨T, hT, .stop hgrows hcourse⟩
    | false =>
      have hactive := hadvance.active hw hu hend
      have hplain : ∀ op ∈ frees, op.Inline := by
        intro op hop
        obtain ⟨r,_,rfl⟩ := hfrees op hop
        exact ⟨rfl, rfl⟩
      obtain ⟨u',hu',hv⟩ := Walk.mem_through_append.1 hv
      have hthrough := Walk.through_plain frees hend hactive.current hplain
      have hactive' : u'.Active (e.swept f) := hsweep.active hactive hu' (by
        rw [hthrough,mem_singleton] at hu'
        rw [hu'])
      rw [hthrough,mem_singleton] at hu'
      obtain ⟨_,hT',hcourse'⟩ := ih' hrest.extend.ops_eq hactive' hv htook
      rw [hend] at hcourse
      refine ⟨_, ?_, .cons hgrows hfrees hcourse hcourse' hs⟩
      rw [hT',hu',hT]
      simp only [append_assoc]

theorem Lowers.course_start {callees : Callees} {f : Frame} {c : Code} {d' : Draft}
    {params : List (String × Kind)} {log : List Event}
    (h : Lowers callees f c (.start params log) flow d') {v : Walk} (hv : v ∈ Walk.start.through d'.ops)
    (htook : ∀ c ∈ v.chosen, took c) :
    Course callees took f c (.start params log) flow d' v.trace v.ended := by
  have hactive : Walk.start.Active (start params log) := @active_start (start params log) (lt_add_one 0)
  obtain ⟨T,hT,hcourse⟩ := h.course (nil_append _).symm hactive hv htook
  obtain rfl : v.trace = T := hT
  exact hcourse

theorem exists_course {table : SignatureTable} {d : Decl} {body : Block} {log : List Event} {l : Lowered}
    (h : lowerFunction table d body log = .ok l) :
    ∃ callees draft, l.routine = draft.routine (d.frame table) ∧
      ∀ v ∈ Walk.start.through l.routine.ops, Course callees (· ∈ v.chosen) (d.frame table)
        (.block body.stmts) (.start d.typedParams log) .returns draft v.trace v.ended := by
  obtain ⟨callees,draft,_,-,-,hbody,rfl⟩ := lowers_of_lowerFunction h
  exact ⟨callees, draft, rfl, fun v hv => hbody.course_start hv fun _ hc => hc⟩

end Polled
