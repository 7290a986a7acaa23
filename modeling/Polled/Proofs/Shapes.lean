import Polled.Proofs.Sites

/-!
How lowered code is laid out under conditions.

`Shape` is all that control flow depends on: straight lines, exits, and branches whose arms stand under
the two targets.
-/

namespace Polled

open Lower Passage List

variable {mixed : Prop} {c : Condition} {flow : Flow} {gs hs : List GuardedOp} {low mid high : Nat}
  {line : List Op}
variable {t : Register} {callees : Callees} {d d' : Draft} {f : Frame} {log : List Event}

def flagsIn (gs : List GuardedOp) : List Condition := gs.flatMap (·.op.completionFlags)

@[simp] theorem flagsIn_nil : flagsIn [] = [] := rfl

@[simp] theorem flagsIn_cons (g : GuardedOp) (gs : List GuardedOp) :
    flagsIn (g :: gs) = g.op.completionFlags ++ flagsIn gs := rfl

@[simp] theorem flagsIn_append (gs hs : List GuardedOp) :
    flagsIn (gs ++ hs) = flagsIn gs ++ flagsIn hs := flatMap_append

@[simp] theorem flagsIn_map_mk (c : Condition) (ops : List Op) :
    flagsIn (ops.map (GuardedOp.mk c)) = flagsOf ops := by
  simp [flagsIn,flagsOf,flatMap_map]

/-- Code under a condition. If `mixed` is excluded, either both arms of a branch return or none. -/
inductive Shape (mixed : Prop) : Condition → Flow → List GuardedOp → Prop
  | line {c : Condition} {ops : List Op} (hplain : ∀ op ∈ ops, op.Plain) :
      Shape mixed c .continues (ops.map (GuardedOp.mk c))
  | exit {c : Condition} {op : Op} (hop : op.endsActivation = true) : Shape mixed c .returns [⟨c, op⟩]
  | fork {c a b : Condition} {t : Register} {flowT flowF flow : Flow} {opsT opsF seam : List GuardedOp}
      (hflow : flow = .returns ↔ flowT = .returns ∧ flowF = .returns) (hmixed : flowT = flowF ∨ mixed)
      (hT : Shape mixed a flowT opsT) (hF : Shape mixed b flowF opsF)
      (hseam : ∀ g ∈ seam, (g.condition = a ∨ g.condition = b) ∧ g.op.Plain)
      (hstop : flowT = .returns ∨ flowF = .returns → seam = []) :
      Shape mixed c flow (⟨c, .branch t a b⟩ :: (opsT ++ opsF ++ seam))
  | seq {c : Condition} {flow : Flow} {ops ops' : List GuardedOp} (h : Shape mixed c .continues ops)
      (h' : Shape mixed c flow ops') : Shape mixed c flow (ops ++ ops')

theorem Shape.nil : Shape mixed c .continues [] := @Shape.line mixed c [] (by simp)

theorem Shape.marks (h : Shape mixed c flow gs) {g : GuardedOp} (hg : g ∈ gs)
    (hgoes : g.op.endsActivation = false) :
    g.op.provides ≠ [] ∨ g.op.completionFlags ≠ [] := by
  induction h with
  | line hplain =>
    obtain ⟨op,hop,rfl⟩ := mem_map.1 hg
    exact (hplain op hop).marks
  | exit hop =>
    rw [mem_singleton.1 hg,hop] at hgoes
    cases hgoes
  | fork _ _ _ _ hseam _ ihT ihF =>
    simp only [mem_cons,mem_append] at hg
    rcases hg with rfl | (hg | hg) | hg
    · exact .inr (by simp [Op.completionFlags])
    · exact ihT hg
    · exact ihF hg
    · exact (hseam g hg).2.marks
  | seq _ _ ih ih' => exact (mem_append.1 hg).elim ih ih'

/-- The flags are all different and lie in a range. -/
structure Fresh (low high : Nat) (gs : List GuardedOp) : Prop where
  le : low ≤ high
  nodup : (flagsIn gs).Nodup
  bound : ∀ c ∈ flagsIn gs, low ≤ c ∧ c < high

theorem fresh_of_flags_eq_nil (h : flagsIn gs = []) : Fresh low low gs :=
  ⟨le_rfl, by simp [h], by simp [h]⟩

theorem Fresh.append (h : Fresh low mid gs) (h' : Fresh mid high hs) : Fresh low high (gs ++ hs) where
  le := h.le.trans h'.le
  nodup := by
    rw [flagsIn_append,nodup_append]
    refine ⟨h.nodup, h'.nodup, ?_⟩
    rintro c hc _ hc' rfl
    exact absurd (h.bound c hc).2 (not_lt.2 (h'.bound c hc').1)
  bound c hc := by
    rw [flagsIn_append,mem_append] at hc
    rcases hc with hc | hc
    · exact ⟨(h.bound c hc).1, (h.bound c hc).2.trans_le h'.le⟩
    · exact ⟨h.le.trans (h'.bound c hc).1, (h'.bound c hc).2⟩

theorem Fresh.of_perm (h : Fresh low high gs) (hperm : (flagsIn gs).Perm (flagsIn hs)) :
    Fresh low high hs :=
  ⟨h.le, hperm.nodup_iff.1 h.nodup, fun c hc => h.bound c (hperm.mem_iff.2 hc)⟩

theorem Fresh.branch {low high : Nat} {gs : List GuardedOp} (h : Fresh (low + 2) high gs) (c : Condition)
    (t : Register) :
    Fresh low high (⟨c, .branch t low (low + 1)⟩ :: gs) := by
  have hfirst : Fresh low (low + 2) [⟨c, .branch t low (low + 1)⟩] :=
    ⟨Nat.le_add_right _ 2, by simp [flagsIn,Op.completionFlags], by simp [flagsIn,Op.completionFlags]⟩
  exact hfirst.append h

theorem flagsIn_freeOps (count : Nat) (rs : List (Register × Condition)) :
    flagsIn (freeOps count rs) = List.range' count rs.length := by
  rw [flagsIn,freeOps,flatMap_map]
  induction rs generalizing count with
  | nil => rfl
  | cons p rs ih =>
    rw [zipIdx_cons,flatMap_cons,ih]
    rfl

theorem fresh_freeOps (count : Nat) (rs : List (Register × Condition)) :
    Fresh count (count + rs.length) (freeOps count rs) := by
  refine ⟨le_self_add, ?_, ?_⟩
  · rw [flagsIn_freeOps]
    exact nodup_range'
  · intro c hc
    rw [flagsIn_freeOps] at hc
    exact mem_range'_1.1 hc

mutual
/-- Of the arms of every `if`, both return or none. Nothing inside of a loop returns. -/
def Stmt.balanced : Stmt → Bool
  | .branch _ _ onTrue onFalse =>
    onTrue.balanced && onFalse.balanced && onTrue.mustReturn == onFalse.mustReturn
  | _ => true

def Block.balanced : Block → Bool
  | ⟨_, stmts⟩ => balancedStmts stmts

def balancedStmts : List Stmt → Bool
  | [] => true
  | s :: ss => s.balanced && balancedStmts ss
end

namespace Code

def balanced : Code → Bool
  | .stmt s => s.balanced
  | .block ss => balancedStmts ss

def mustReturn : Code → Bool
  | .stmt s => s.mustReturn
  | .block ss => lastReturns ss

end Code

theorem Block.mustReturn_eq (b : Block) : b.mustReturn = Code.mustReturn (.block b.stmts) := by
  obtain ⟨_,_⟩ := b
  rw [Block.mustReturn,Code.mustReturn]

theorem Block.balanced_eq (b : Block) : b.balanced = Code.balanced (.block b.stmts) := by
  obtain ⟨_,_⟩ := b
  rw [Block.balanced,Code.balanced]

section

variable {c : Code}

theorem Lowers.returns_iff (h : Lowers callees f c d flow d') :
    flow = .returns ↔ c.mustReturn = true := by
  induction h with
  | bind => simp [Code.mustReturn,Stmt.mustReturn]
  | run => simp [Code.mustReturn,Stmt.mustReturn]
  | exit => simp [Code.mustReturn,Stmt.mustReturn]
  | branch _ _ _ _ _ _ hbehind ihT ihF =>
    rw [hbehind.flow_iff,ihT,ihF,← Block.mustReturn_eq,← Block.mustReturn_eq,Code.mustReturn,
      Stmt.mustReturn, Bool.and_eq_true]
  | loop => simp [Code.mustReturn,Stmt.mustReturn]
  | nil => simp [Code.mustReturn,lastReturns]
  | last _ ih => simpa [Code.mustReturn,lastReturns] using ih
  | @cons _ s ss _ _ _ _ _ _ _ _ _ _ _ _ ih ih' =>
    cases ss with
    | nil =>
      have hfirst : s.mustReturn = false := by simpa [Code.mustReturn] using ih
      simpa [Code.mustReturn,lastReturns,hfirst] using ih'
    | cons s' ss => simpa [Code.mustReturn,lastReturns] using ih'

theorem Lowers.continues_of_inLoop (h : Lowers callees f c d flow d') (hloop : f.inLoop = true) :
    flow = .continues := by
  induction h with
  | exit _ hout => exact absurd (hloop.symm.trans hout) (by decide)
  | @branch _ _ _ _ _ _ _ _ _ _ _ _ _ flow _ _ _ _ _ _ _ _ hbehind ihT =>
    cases flow with
    | continues => rfl
    | returns =>
      have hT := (hbehind.flow_iff.1 rfl).1
      rw [ihT hloop] at hT
      cases hT
  | last _ ih => exact ih hloop
  | cons _ _ _ _ _ _ ih' => exact ih' hloop
  | _ => rfl

theorem Lowers.flow_eq_or {e e' : Draft} {flow' : Flow} {onTrue onFalse : Block}
    (hT : Lowers callees f (.block onTrue.stmts) d flow d')
    (hF : Lowers callees f (.block onFalse.stmts) e flow' e')
    (hmixed : f.inLoop = false → onTrue.mustReturn ≠ onFalse.mustReturn → mixed) :
    flow = flow' ∨ mixed := by
  cases hloop : f.inLoop with
  | true => exact .inl ((hT.continues_of_inLoop hloop).trans (hF.continues_of_inLoop hloop).symm)
  | false =>
    have hiff := hT.returns_iff
    have hiff' := hF.returns_iff
    rw [← Block.mustReturn_eq] at hiff hiff'
    by_cases heq : onTrue.mustReturn = onFalse.mustReturn
    · rw [heq,← hiff'] at hiff
      cases flow <;> cases flow' <;> simp_all
    · exact .inr (hmixed hloop heq)

end

namespace Draft

/-- What has been laid out between two drafts. -/
structure Laid (mixed : Prop) (d d' : Draft) (flow : Flow) (ops : List GuardedOp) : Prop where
  ops_eq : d'.ops = d.ops ++ ops
  shape : Shape mixed d.current flow ops
  fresh : Fresh d.control.conditionCount d'.control.conditionCount ops

variable {mixed : Prop} {known : String → Outline → Prop} {d e d' : Draft} {flow : Flow}
  {ops ops' : List GuardedOp}

theorem Laid.seq (h : Laid mixed d e .continues ops) (h' : Laid mixed e d' flow ops')
    (hcurrent : e.current = d.current) :
    Laid mixed d d' flow (ops ++ ops') where
  ops_eq := by rw [h'.ops_eq,h.ops_eq,append_assoc]
  shape := h.shape.seq (hcurrent ▸ h'.shape)
  fresh := h.fresh.append h'.fresh

theorem Line.laid {rs : List Register} (h : Line known d e rs line) :
    Laid mixed d e .continues (line.map (GuardedOp.mk d.current)) where
  ops_eq := h.ops_eq
  shape := .line h.plain
  fresh := ⟨h.count_le, by simpa using h.nodup, by simpa using h.flags⟩

theorem freeOps_map (count : Nat) (rs : List Register) (c : Condition) :
    freeOps count (rs.map fun r => (r, c)) =
      ((rs.zipIdx count).map fun p => Op.free p.1 p.2).map (GuardedOp.mk c) := by
  rw [freeOps,zipIdx_map,map_map,map_map]
  rfl

theorem laid_swept (d : Draft) (f : Frame) : ∃ frees :
    List Op, (∀ op ∈ frees, ∃ r done, op = .free r done) ∧
    Laid mixed d (d.swept f) .continues (frees.map (GuardedOp.mk d.current)) := by
  generalize hlost : d.registers.unreachable (d.scope.reachable d.registers) = lost
  have hfrees : ∀ op ∈ (lost.zipIdx d.control.conditionCount).map fun p => Op.free p.1 p.2,
      ∃ r done, op = .free r done := by
    intro op hop
    obtain ⟨p,-,rfl⟩ := mem_map.1 hop
    exact ⟨_, _, rfl⟩
  obtain ⟨-,-,-,-,hops,-⟩ := d.freeAll_spec f (lost.map fun r => (r, d.current))
  refine ⟨_, hfrees, ?_, .line fun op hop => ?_, ?_⟩
  · rw [swept,hlost,hops,freeOps_map]
  · obtain ⟨r,_,rfl⟩ := hfrees op hop
    exact ⟨rfl, rfl, .inr (by simp [Op.completionFlags])⟩
  · rw [swept,hlost,count_freeAll,← freeOps_map]
    exact fresh_freeOps _ _

theorem Detour.laid {callee : String} {slot : ChildSlot} {done : Option Condition}
    {captures : List Capture} {sources : List Register}
    (h : Detour known d d' t callee slot done captures sources line) :
    Laid mixed d d' .continues (d.aroundOps t callee slot done captures sources line) where
  ops_eq := h.ops_eq
  shape := by
    refine .seq (.line h.plain) ?_
    have hrenames : ∀ op ∈ (d.crossed captures sources).map fun t =>
        Op.rename t.2.1 t.2.2, op.Plain := by
      intro op hop
      obtain ⟨p,-,rfl⟩ := mem_map.1 hop
      exact ⟨rfl, rfl, .inl (by simp [Op.provides])⟩
    have hcall : ∀ op ∈ [Op.callAsync callee sources (d.arrivals captures) slot done],
        op.Plain := by
      intro op hop
      rw [mem_singleton.1 hop]
      refine ⟨rfl, rfl, ?_⟩
      rcases eq_nil_or_concat captures with hnil | ⟨_,c,hcs⟩
      · exact .inr (by simpa [Op.completionFlags] using h.marks hnil)
      · exact .inl (by simp [Op.provides,hcs])
    have hfork := @Shape.fork mixed d.current d.count (d.count + 1) t .continues
      .continues .continues _ _ [] (by simp) (.inl rfl)
      (.line hcall) (.line hrenames) (by simp) fun _ => rfl
    simpa using hfork
  fresh := by
    have hrenames : flagsOf ((d.crossed captures sources).map fun t =>
        Op.rename t.2.1 t.2.2) = [] := by simp [flagsOf,flatMap_map,Op.completionFlags]
    have hflags : flagsIn (d.aroundOps t callee slot done captures sources line) =
        flagsOf line ++ ([d.count, d.count + 1] ++ done.toList) := by
      rw [aroundOps,flagsIn_append,flagsIn_append,flagsIn_append,flagsIn_map_mk,flagsIn_map_mk,
        flagsIn_map_mk,hrenames]
      simp [flagsOf,Op.completionFlags]
    -- the targets of the branch were handed out before the line
    have hrest : flagsIn ((line ++ [Op.callSync callee [] [] done]).map (GuardedOp.mk d.current)) =
        flagsOf line ++ done.toList := by
      simp [flagsOf,Op.completionFlags]
    have hfresh : Fresh (d.count + 2) d'.count
        ((line ++ [Op.callSync callee [] [] done]).map (GuardedOp.mk d.current)) :=
      ⟨h.count_le, hrest ▸ h.nodup, hrest ▸ h.flags⟩
    refine (hfresh.branch d.current t).of_perm ?_
    rw [flagsIn_cons,hrest,hflags]
    exact perm_append_comm_assoc _ _ _

theorem Laid.fork {test : Register} {dt df : Draft} {flowT flowF : Flow}
    {opsT opsF seam : List GuardedOp} (hT : Laid mixed (d.fork test) dt flowT opsT)
    (hF : Laid mixed (d.second dt) df flowF opsF)
    (hflow : flow = .returns ↔ flowT = .returns ∧ flowF = .returns) (hmixed : flowT = flowF ∨ mixed)
    (hops : d'.ops = df.ops ++ seam)
    (hseam : ∀ g ∈ seam, (∃ b, g.condition = d.armCondition b) ∧ g.op.Plain)
    (hstop : flowT = .returns ∨ flowF = .returns → seam = [])
    (hfresh : Fresh df.count d'.count seam) :
    Laid mixed d d' flow
      (⟨d.current, d.split test⟩ :: (opsT ++ opsF ++ seam)) where
  ops_eq := by
    have hfork : (d.fork test).ops = d.ops ++ [⟨d.current, d.split test⟩] := rfl
    have hresume : (d.second dt).ops = dt.ops := rfl
    rw [hops,hF.ops_eq,hresume,hT.ops_eq,hfork]
    simp
  shape := by
    refine .fork hflow hmixed hT.shape hF.shape (fun g hg => ?_) hstop
    obtain ⟨⟨b,hb⟩,hplain⟩ := hseam g hg
    cases b with
    | true => exact ⟨.inl hb, hplain⟩
    | false => exact ⟨.inr hb, hplain⟩
  fresh := ((hT.fresh.append hF.fresh).append hfresh).branch _ _

end Draft

open Draft

theorem Draft.Arms.knit {strict : Prop} {dt df : Draft} {test : Register} {flowT flowF : Flow}
    {gsT gsF : List GuardedOp} {span : Span} (h : Arms callees strict d test dt df flowT flowF gsT gsF)
    (hbehind : Behind f span d dt df d' flowT flowF flow) :
    ∃ seam, d'.ops = df.ops ++ seam ∧ (∀ g ∈ seam, (∃ b, g.condition = d.armCondition b) ∧ g.op.Plain) ∧
      (flowT = .returns ∨ flowF = .returns → seam = []) ∧
      Fresh df.control.conditionCount d'.control.conditionCount seam := by
  rcases h.behind hbehind with ⟨-,hops,hcontrol⟩ | ⟨rfl,rfl,moves,_,hreunion⟩
  · refine ⟨[], by rw [hops,append_nil], by simp, fun _ => rfl, ?_⟩
    rw [hcontrol]
    exact fresh_of_flags_eq_nil rfl
  · have hmoves : flagsIn (moves.map (Transfer.op d.armCondition)) = [] := by
      simp [flagsIn,flatMap_map,Transfer.op,Op.completionFlags]
    refine ⟨_, by rw [hreunion.ops_eq,append_assoc], fun g hg => ?_, by simp, ?_⟩
    · rcases mem_append.1 hg with hg | hg
      · obtain ⟨m,-,rfl⟩ := mem_map.1 hg
        exact ⟨⟨m.side, rfl⟩, rfl, rfl, .inl (cons_ne_nil _ _)⟩
      · obtain ⟨p,hp,rfl⟩ := mem_map.1 hg
        exact ⟨hreunion.sides _ (fst_mem_of_mem_zipIdx hp), rfl, rfl,
          .inr (by simp [Op.completionFlags])⟩
    · rw [hreunion.count_eq]
      exact (fresh_of_flags_eq_nil hmoves).append (fresh_freeOps _ _)

theorem Lowers.laid {c : Code} (h : Lowers callees f c d flow d')
    (hmixed : f.inLoop = false → c.balanced = false → mixed) : ∃ ops, Laid mixed d d' flow ops := by
  induction h with
  | @bind f _ names value d e rs hd hvalue =>
    obtain ⟨line,hline⟩ := value.line knowsTable_any hd hvalue
    obtain ⟨_,heq⟩ := e.exists_giveNames (names.map (·.node)) rs
    have hlaid : Laid mixed d e .continues _ := hline.laid
    rw [heq]
    exact ⟨_, hlaid.ops_eq, hlaid.shape, hlaid.fresh⟩
  | @run f _ value _ _ hd hvalue =>
    obtain ⟨line,hline⟩ := value.line knowsTable_any hd hvalue
    exact ⟨_, hline.laid⟩
  | @exit f _ _ _ e rs hd _ hvalues =>
    obtain ⟨line,hline,-⟩ := exitValues_line knowsTable_any hd hvalues
    obtain ⟨_,heq,-⟩ := e.exists_leave rs
    have hret : Laid mixed e (e.leave rs) .returns [⟨e.current, .ret rs (e.exitGarbage rs)⟩] := by
      rw [heq]
      exact ⟨rfl, .exit rfl, fresh_of_flags_eq_nil rfl⟩
    exact ⟨_, hline.laid.seq hret hline.current⟩
  | @branch f _ cond onTrue onFalse _ _ _ _ _ _ _ _ _ _ _ hd₀ htest _ harms hT hF hbehind ihT ihF =>
    obtain ⟨line,hline⟩ := cond.line knowsTable_any hd₀ htest
    obtain ⟨_,hopsT⟩ := ihT fun hout hT' => hmixed hout (by
      rw [← onTrue.balanced_eq] at hT'
      simp [Code.balanced,Stmt.balanced,hT'])
    obtain ⟨_,hopsF⟩ := ihF fun hout hF' => hmixed hout (by
      rw [← onFalse.balanced_eq] at hF'
      simp [Code.balanced,Stmt.balanced,hF'])
    have hflow :=
      hT.flow_eq_or hF fun hout hne => hmixed hout (by simp [Code.balanced,Stmt.balanced,hne])
    obtain ⟨_,hops,hseam,hstop,hfresh⟩ := harms.knit hbehind
    exact ⟨_, hline.laid.seq (hopsT.fork hopsF hbehind.flow_iff hflow hops hseam hstop hfresh)
      hline.current⟩
  | @loop f _ _ _ _ _ _ _ _ _ _ _ hd hcaptures hcount _ _ _ _ hsite =>
    obtain ⟨t,_,_,_,_,hdetour⟩ := detour_of_encloses hsite knowsTable_any hd
      (nodup_orderedSet _) hcount hcaptures
    exact ⟨_, hdetour.laid⟩
  | nil => exact ⟨[], by simp, .nil, fresh_of_flags_eq_nil rfl⟩
  | last _ ih => exact ih fun hout hc => hmixed hout (by simpa [Code.balanced,balancedStmts] using hc)
  | @cons f _ _ _ e _ _ _ _ _ hadvance hsweep _ _ _ ih ih' =>
    obtain ⟨_,hops⟩ := ih fun hout hc => hmixed hout (by simp_all [Code.balanced,balancedStmts])
    obtain ⟨_,hops'⟩ := ih' fun hout hc => hmixed hout (by simp_all [Code.balanced,balancedStmts])
    obtain ⟨_,-,hfrees⟩ := @laid_swept mixed e f
    exact ⟨_, (hops.seq hfrees hadvance.extend.current).seq hops'
      (hsweep.extend.current.trans hadvance.extend.current)⟩

/-- The operations of a routine from its entry to its exits. -/
structure Routine.Ordered (mixed : Prop) (r : Routine) : Prop where
  shape : Shape mixed .entry .returns r.ops
  fresh : Fresh 1 r.conditionCount r.ops

theorem Draft.Laid.ordered {params : List (String × Kind)} {ops : List GuardedOp}
    (h : Laid mixed (start params log) d' .returns ops) (f : Frame) : (d'.routine f).Ordered mixed := by
  have hops : (d'.routine f).ops = ops := h.ops_eq
  constructor
  · rw [hops]
    exact h.shape
  · rw [hops]
    exact h.fresh

theorem Draft.Turning.laid {known : String → Outline → Prop} {params : List Kind}
    {values garbage : List Register} (h : Turning known params d d' mid t values garbage line) :
    ∃ ops, Laid mixed d d' .returns ops := by
  refine ⟨_, h.ops_eq, ?_, ?_⟩
  · have hfork := @Shape.fork mixed d.current mid (mid + 1) t .returns .returns .returns _ _ []
      (by simp) (.inl rfl) (@Shape.exit mixed mid (.restartLoop values garbage) rfl)
        (@Shape.exit mixed (mid + 1) (.ret values garbage) rfl)
      (by simp) fun _ => rfl
    exact .seq (.line h.plain) hfork
  · have hline : Fresh d.count mid (line.map (GuardedOp.mk d.current)) :=
      ⟨h.mid_le, by simpa using h.nodup, by simpa using h.flags⟩
    have hexits : Fresh (mid + 2) (mid + 2) [⟨mid, .restartLoop values garbage⟩,
        ⟨mid + 1, .ret values garbage⟩] :=
      fresh_of_flags_eq_nil rfl
    rw [h.count_eq]
    exact hline.append (hexits.branch d.current t)

section

variable {table : SignatureTable} {r : Routine}

theorem Closure.ordered {loops : List (Expr × Block)} {all : List Routine}
    (h : Closure callees table loops all r) :
    r.Ordered mixed := by
  obtain ⟨f,_,body,d₁,d',_,ops,-,rfl,-,hloop,-,hadvance,hbody,hround,-,rfl⟩ := h
  obtain ⟨_,t,_,_,_,hturning⟩ := turning_of_endsRound hround hadvance knowsTable_any
  have hout : f.inLoop = false → (Code.block body.stmts).balanced = false → mixed := by simp [hloop]
  obtain ⟨_,hopsB⟩ := hbody.laid hout
  obtain ⟨_,hopsR⟩ : ∃ ops, Laid mixed d₁ d' .returns ops := hturning.laid
  exact (hopsB.seq hopsR hadvance.extend.current).ordered f

theorem ordered_of_lowerFunction {d : Decl} {body : Block} {l : Lowered}
    (h : lowerFunction table d body log = .ok l) (hr : r ∈ l.closures ∨ r = l.routine ∧
      (body.balanced = false → mixed)) : r.Ordered mixed := by
  rcases hr with hr | ⟨rfl,hmixed⟩
  · exact (closure_of_lowerFunction h hr).1.ordered
  · obtain ⟨_,_,ops,-,-,hbody,rfl⟩ := lowers_of_lowerFunction h
    obtain ⟨_,hops⟩ := hbody.laid fun _ hc => hmixed (body.balanced_eq.trans hc)
    exact hops.ordered (d.frame table)

end

end Polled
