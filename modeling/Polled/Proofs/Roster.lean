import Polled.Proofs.Moving
import Polled.Proofs.Programs
import Polled.Proofs.Unfailing

/-!
The routines of a program, their names and their order.

A function comes with the closures of its loops behind it, in the order in which the loops begin
(`Block.loops`). No name is given twice, so what an operation calls is one routine of the program.
-/

namespace Polled

open Lower Draft List

variable {table : SignatureTable} {r : Routine} {d : Decl} {rs : List Routine} {name : String}

/-- The routine is what one round of the loop is lowered to, under a name that belongs to `owner`. -/
def Rounds (table : SignatureTable) (owner : String) (loop : Expr × Block) (r : Routine) : Prop :=
  ∃ f log draft, f.table = table ∧ LoopName table owner f.name ∧
    iteration f loop.2.span loop.1.span (lowerTest f .whileCondition loop.1) (loop.2.lower f)
    (.start f.params log) =
      .ok ((), draft) ∧ r = draft.routine f

theorem Rounds.owned {owner mid : String} {loop : Expr × Block} (h : Rounds table mid loop r)
    (hmid : LoopName table owner mid) : Rounds table owner loop r := by
  obtain ⟨f,log,draft,hf,hname,hround⟩ := h
  exact ⟨f, log, draft, hf, hmid.trans hname, hround⟩

/-- The draft has got closures for these loops, in this order. -/
def Draft.Closes (f : Frame) (loops : List (Expr × Block)) (d d' : Draft) : Prop :=
  ∃ new, d'.closures = d.closures ++ new ∧ Forall₂ (Rounds f.table f.name) loops new

namespace Draft.Closes

variable {f : Frame} {loops loops' : List (Expr × Block)} {d e d' : Draft}

theorem of_eq (h : d'.closures = d.closures) : Closes f [] d d' := ⟨[], by rw [h,append_nil], .nil⟩

theorem trans (h : Closes f loops d e) (h' : Closes f loops' e d') :
    Closes f (loops ++ loops') d d' := by
  obtain ⟨new,heq,hnew⟩ := h
  obtain ⟨new',heq',hnew'⟩ := h'
  exact ⟨new ++ new', by rw [heq',heq,append_assoc], rel_append hnew hnew'⟩

theorem then_eq (h : Closes f loops d e) (heq : d'.closures = e.closures) : Closes f loops d d' :=
  append_nil loops ▸ h.trans (of_eq heq)

theorem after_eq (h : Closes f loops e d') (heq : e.closures = d.closures) : Closes f loops d d' :=
  (of_eq heq).trans h

end Draft.Closes

theorem closes_loopOver {f : Frame} {cond : Expr} {body : Block} {d d' : Draft}
    (h : loopOver f (loopNames cond body) cond.span body.span (fun f => lowerTest f .whileCondition cond)
      (fun f => body.lower f) d = .ok ((), d'))
    (hbody : ∀ (g : Frame) (d d' : Draft) (flow : Flow), body.lower g d = .ok (flow, d') →
      d.Closes g body.loops d') :
    d.Closes f ((cond, body) :: body.loops) d' := by
  obtain ⟨captures,count,draft,_,_,t,e,_,_,_,_,-,-,hfresh,hiter,htest,-,-,-,
    rfl⟩ := loopOver_eq_ok h
  have hround := hiter
  obtain ⟨_,d₁,_,_,_,_,_,hrun,htest₁,-,-,-,-,hdraft⟩ := iteration_eq_ok hiter
  have hname : LoopName f.table f.name (f.loop count captures).name := .outer hfresh
  -- what the condition and the end of the round leave of the closures is what the body has made
  rw [lowerTest,single_eq_ok] at htest htest₁
  have hinner : draft.closures = d₁.closures := by
    rw [hdraft]
    exact ((cond.still htest₁).trans (Draft.still_round _ _ _ _ _)).1
  obtain ⟨new,hnew,hrounds⟩ := hbody _ _ _ _ hrun
  have hall : draft.closures = new := hinner.trans hnew
  refine ⟨draft.routine (f.loop count captures) :: new, ?_,
    .cons ?_ (hrounds.imp fun _ _ h => h.owned hname)⟩
  · rw [← hall]
    exact Draft.closures_around htest
  · exact ⟨f.loop count captures, _, draft, rfl, hname, hround, rfl⟩

mutual
theorem Stmt.closes (f : Frame) :
    (s : Stmt) → (d d' : Draft) → (flow : Flow) → s.lower f d = .ok (flow, d') → d.Closes f s.loops d'
  | .bind span names value, d, d', flow, h => .of_eq (Stmt.still_bind h).1
  | .run span value, d, d', flow, h => .of_eq (Stmt.still_run h).1
  | .ret span value, d, d', flow, h => .of_eq (still_lowerExit h).1
  | .branch span cond onTrue onFalse, d, d', flow, h => by
    obtain ⟨_,e,_,_,dt,df,htest,-,honTrue,honFalse,hbehind⟩ := Stmt.branch_eq_ok h
    have hT := (Block.closes f onTrue _ _ _ honTrue).after_eq (cond.still htest).1
    have hF : dt.Closes f onFalse.loops df := (Block.closes f onFalse _ _ _ honFalse).after_eq rfl
    exact (hT.trans hF).then_eq hbehind.still.1
  | .loop span cond body, d, d', flow, h => by
    simp only [Stmt.lower,bind_eq_ok,pure_eq_ok] at h
    obtain ⟨_,_,hloop,-,rfl⟩ := h
    exact closes_loopOver hloop fun g => Block.closes g body

theorem Block.closes (f : Frame) :
    (b : Block) → (d d' : Draft) → (flow : Flow) → b.lower f d = .ok (flow, d') → d.Closes f b.loops d'
  | ⟨_, stmts⟩, d, d', flow, h => Stmt.closes_all f stmts d d' flow h

theorem Stmt.closes_all (f : Frame) : (ss : List Stmt) → (d d' : Draft) → (flow : Flow) →
    Stmt.lowerAll f ss d = .ok (flow, d') → d.Closes f (loopsOfStmts ss) d'
  | [], d, d', flow, h => by
    obtain ⟨-,rfl⟩ := (pure_eq_ok _ _).1 h
    exact .of_eq rfl
  | s :: ss, d, d', flow, h => by
    rcases Stmt.lowerAll_cons_eq_ok h with ⟨hs,rfl,-⟩ | ⟨e,e',hs,hsweep,hrest⟩
    · exact (Stmt.closes f s d d' _ hs).trans (.of_eq rfl)
    · exact ((Stmt.closes f s d e _ hs).then_eq (still_sweep hsweep).1).trans
        (Stmt.closes_all f ss e' d' flow hrest)
end

/-- What stands for a declaration: its routine, and directly behind it one closure for each of its
loops. -/
def Decl.Lists (table : SignatureTable) (d : Decl) (rs : List Routine) : Prop :=
  ∃ r closures, rs = r :: closures ∧ r.name = d.name.node ∧
    Forall₂ (Rounds table d.name.node) (d.body.elim [] Block.loops) closures

theorem Generates.lists (h : Generates table d rs) : d.Lists table rs := by
  rcases h with ⟨hbody,rfl⟩ | ⟨body,_,l,hbody,hl,rfl⟩
  · exact ⟨_, [], rfl, rfl, by rw [hbody]; exact .nil⟩
  · obtain ⟨_,hlower,heq⟩ := lowerFunction_eq_ok hl
    obtain ⟨new,hnew,hrounds⟩ := Block.closes (d.frame table) body _ _ _ hlower
    have hclosures : l.closures = new := by rw [heq]; exact hnew
    exact ⟨l.routine, l.closures, rfl,
      (outline_of_lowerFunction hl).1, by rw [hbody,hclosures]; exact hrounds⟩

/-- The names that a routine refers to. -/
def Routine.mentioned (r : Routine) : List String :=
  r.ops.filterMap (fun g => g.op.call?.map (·.1)) ++ r.childCalls

theorem Routine.WellFormed.mem_calls (h : r.WellFormed) (hname : name ∈ r.mentioned) :
    ∃ g ∈ r.ops, ∃ args, g.op.call? = some (name, args) := by
  rcases mem_append.1 hname with hname | hname
  · obtain ⟨g,hg,hcall⟩ := mem_filterMap.1 hname
    obtain ⟨⟨callee,args⟩,hop,rfl⟩ := Option.map_eq_some_iff.1 hcall
    exact ⟨g, hg, args, hop⟩
  · obtain ⟨k,hk⟩ := mem_iff_getElem?.1 hname
    have hchild : (name, k) ∈ childrenIn r.ops := h.children ▸ mem_zipIdx_iff_getElem?.2 hk
    obtain ⟨g,hg,hop⟩ := mem_flatMap.1 hchild
    refine ⟨g, hg, ?_⟩
    cases hcase : g.op with
    | callAsync callee args results slot done =>
      rw [hcase] at hop
      obtain ⟨rfl,-⟩ := Prod.mk.inj (mem_singleton.1 hop)
      exact ⟨args, rfl⟩
    | _ => simp [hcase,Op.child] at hop

theorem Op.Kinded.exists_known {known : String → Outline → Prop} {own : Outline}
    {kind : Register → Kind} {op : Op} (h : op.Kinded known own kind) {args : List Register}
    (hcall : op.call? = some (name, args)) :
    ∃ o, known name o := by
  cases op with
  | callSync | callAsync =>
    obtain ⟨rfl,-⟩ := Prod.mk.inj (Option.some.inj hcall)
    obtain ⟨o,ho,-⟩ := h
    exact ⟨o, ho⟩
  | _ => cases hcall

theorem Generates.wellFormed (h : Generates table d rs) (hr : r ∈ rs) :
    r.mentioned = [] ∨ r.WellFormed := by
  rcases h with ⟨-,rfl⟩ | ⟨_,_,l,-,hl,rfl⟩
  · rw [mem_singleton.1 hr]
    exact .inl rfl
  · exact .inr (wellFormed_of_lowerFunction hl hr)

section

variable {p : Bundle} {table : SignatureTable} {log log' : List Event} {prog : Program}

/-- The routines of a program have different names. They are the declared functions in the order of their
modules, each with one closure behind it for every loop of its body. All that a routine refers to is one
of them. -/
theorem routines_listed (htable : p.signatures = .ok table)
    (h : p.generate table log = .ok (prog, log')) :
    (prog.routines.map (·.name)).Nodup ∧
      (∃ groups, Forall₂ (Decl.Lists table) p.decls groups ∧ prog.routines = groups.flatten) ∧
      ∀ r ∈ prog.routines, ∀ name ∈ r.mentioned, ∃! t, t ∈ prog.routines ∧ t.name = name := by
  obtain ⟨parts,hparts,hdecls,hroutines,hnodup,-,hkinded⟩ := exists_parts htable h
  refine ⟨hnodup, ⟨parts.map (·.2), ?_, hroutines.trans flatMap_def⟩, fun r hr name hname => ?_⟩
  · rw [← hdecls,forall₂_map_left_iff,forall₂_map_right_iff,forall₂_same]
    exact fun part hpart => (hparts part hpart).lists
  · obtain ⟨part,hpart,hmem⟩ := mem_flatMap.1 (hroutines ▸ hr)
    rcases (hparts part hpart).wellFormed hmem with hnone | hformed
    · rw [hnone] at hname
      cases hname
    · obtain ⟨g,hg,_,hcall⟩ := hformed.mem_calls hname
      obtain ⟨o,t,ht,-⟩ := (hkinded r hr g hg).exists_known hcall
      have hmem := mem_of_find?_eq_some ht
      have hnamed : t.name = name := by simpa using find?_some ht
      exact ⟨t, ⟨hmem, hnamed⟩, fun u hu => inj_on_of_nodup_map hnodup hu.1 hmem
        (hu.2.trans hnamed.symm)⟩

/-- `while more() { … }` -/
def asLongAs (inner : List Stmt) : Stmt :=
  .loop .nowhere (.call .nowhere (bare "more") []) ⟨.nowhere, inner⟩

/-- `sync native func more(): Boolean`, a function `main_1` with a loop, and a main function with a loop
in a loop. -/
def patrol : Bundle where
  entry := "main"
  modules := [⟨"main", 0, ⟨[],
    [{ refill with
        name := bare "more"
        isSync := true
        isNative := true
        params := []
        returns := [bare (.owned .boolean)] },
      { refill with
        name := bare "main_1"
        params := []
        returns := []
        body := some ⟨.nowhere, [asLongAs [], .ret .nowhere none]⟩ },
      { refill with
        name := bare "main"
        params := []
        returns := []
        body := some ⟨.nowhere, [asLongAs [asLongAs []], .ret .nowhere none]⟩ }]⟩⟩]

def patrolTable : SignatureTable :=
  match patrol.signatures with
  | .ok table => table
  | .error _ => .empty

def patrolled : Program :=
  match patrol.generate patrolTable [] with
  | .ok (prog, _) => prog
  | .error _ => ⟨"", []⟩

theorem signatures_patrol : patrol.signatures = .ok patrolTable := by cbv

theorem generate_patrol : ∃ log, patrol.generate patrolTable [] = .ok (patrolled, log) := ⟨_, by cbv⟩

theorem patrol_listed :
    patrolled.routines.map (·.name) = ["more", "main_1", "main_1_1", "main", "main_2", "main_2_1"] ∧
      (patrolled.routines.map (·.name)).Nodup ∧
      (∃ groups, Forall₂ (Decl.Lists patrolTable) patrol.decls groups ∧
        patrolled.routines = groups.flatten) ∧
      ∀ r ∈ patrolled.routines, ∀ name ∈ r.mentioned, ∃! t, t ∈ patrolled.routines ∧ t.name = name := by
  obtain ⟨_,hlog⟩ := generate_patrol
  exact ⟨by cbv, routines_listed signatures_patrol hlog⟩

end

end Polled
