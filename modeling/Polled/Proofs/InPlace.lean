import Polled.Proofs.Firing
import Polled.Proofs.Sites

/-!
Code that stays in place.

A call is scheduled if its callee is not synchronous, and a loop is the call of its closure. What a
function schedules can be read off its body.
-/

namespace Polled

open Lower List

mutual
def Expr.schedules (table : SignatureTable) : Expr → Bool
  | .name _ _ | .truth _ _ | .integer _ _ | .text _ _ => false
  | .tuple _ items => schedulesOfExprs table items
  | .call _ callee args => schedulesOfArgs table args || (table.lookup? callee.node).any (!·.isSync)
  | .compare _ _ lhs rhs => lhs.schedules table || rhs.schedules table

def schedulesOfExprs (table : SignatureTable) : List Expr → Bool
  | [] => false
  | e :: es => e.schedules table || schedulesOfExprs table es

def schedulesOfArgs (table : SignatureTable) : List Arg → Bool
  | [] => false
  | .thread _ :: args => schedulesOfArgs table args
  | .value e :: args => e.schedules table || schedulesOfArgs table args
end

mutual
/-- Some call in the statement is scheduled, or it has a loop. -/
def Stmt.schedules (table : SignatureTable) : Stmt → Bool
  | .bind _ _ value | .run _ value => value.schedules table
  | .ret _ value => value.any (·.schedules table)
  | .branch _ cond onTrue onFalse =>
    cond.schedules table || (onTrue.schedules table || onFalse.schedules table)
  | .loop _ _ _ => true

def Block.schedules (table : SignatureTable) : Block → Bool
  | ⟨_, stmts⟩ => schedulesOfStmts table stmts

def schedulesOfStmts (table : SignatureTable) : List Stmt → Bool
  | [] => false
  | s :: ss => s.schedules table || schedulesOfStmts table ss
end

def Code.schedules (table : SignatureTable) : Code → Bool
  | .stmt s => s.schedules table
  | .block ss => schedulesOfStmts table ss

theorem Block.schedules_eq (b : Block) (table : SignatureTable) :
    b.schedules table = schedulesOfStmts table b.stmts := by
  obtain ⟨_,_⟩ := b
  rw [Block.schedules]

/-- Operations of a function that calls no child. -/
def Op.inPlace : Op → Bool
  | .rename _ _ | .loadInteger _ _ | .loadString _ _ | .callSync _ _ _ _ | .compare _ _ _ _
      | .branch _ _ _ | .free _ _
  | .ret _ _ => true
  | _ => false

theorem Op.startsChild_of_inPlace {op : Op} (h : op.inPlace = true) : op.startsChild = false := by
  cases op <;> first | rfl | cases h

namespace Draft

/-- On the way from `d` to `d'` a child is called, or all that is added stays in place. -/
def Schedules (d d' : Draft) (scheduled : Bool) : Prop :=
  ∃ ops, d'.ops = d.ops ++ ops ∧
    bif scheduled then ∃ g ∈ ops, g.op.startsChild = true else ∀ g ∈ ops, g.op.inPlace = true

section

variable {d e d' : Draft} {a b : Bool}

theorem Schedules.of_ops (h : d'.ops = d.ops) : d.Schedules d' false :=
  ⟨[], by rw [h,append_nil], by simp⟩

variable {ops : List GuardedOp}

theorem Schedules.stay (hops : d'.ops = d.ops ++ ops) (h : ∀ g ∈ ops, g.op.inPlace = true) :
    d.Schedules d' false := ⟨ops, hops, h⟩

theorem Schedules.trans (h : d.Schedules e a) (h' : e.Schedules d' b) : d.Schedules d' (a || b) := by
  obtain ⟨ops,hops,hfirst⟩ := h
  obtain ⟨ops',hops',hsecond⟩ := h'
  refine ⟨ops ++ ops', by rw [hops',hops,append_assoc], ?_⟩
  cases a with
  | true =>
    obtain ⟨g,hg,hchild⟩ := hfirst
    exact ⟨g, mem_append_left _ hg, hchild⟩
  | false =>
    cases b with
    | true =>
      obtain ⟨g,hg,hchild⟩ := hsecond
      exact ⟨g, mem_append_right _ hg, hchild⟩
    | false => exact forall_mem_append.2 ⟨hfirst, hsecond⟩

theorem Schedules.then_stay (h : d.Schedules e a) (hops : d'.ops = e.ops ++ ops)
    (hstay : ∀ g ∈ ops, g.op.inPlace = true) : d.Schedules d' a := by
  have hall := h.trans (.stay hops hstay)
  rwa [Bool.or_false] at hall

theorem ops_passed {param : String × Kind} {r : Register}
    (h : d' = if param.2.borrowed then d else d.handOver r) :
    d'.ops = d.ops := by
  rw [h]
  split <;> rfl

end

end Draft

open Draft

section

variable {f : Frame}

theorem Draft.Schedules.call {sig : Signature} {passed : List Passed} {rs : List Register} {d d' : Draft}
    (h : callWith f sig passed d = .ok (rs, d')) : d.Schedules d' (!sig.isSync) := by
  obtain ⟨_,_,_,_,-,hre,-⟩ := callWith_eq_ok h
  obtain ⟨_,rfl⟩ := rebindThreads_eq_ok hre
  refine ⟨_, rfl, ?_⟩
  cases hsync : sig.isSync with
  | true => simp [Signature.call,hsync,Op.inPlace]
  | false => simp [Signature.call,hsync,Op.startsChild]

def Phrase.schedules (table : SignatureTable) : Phrase → Bool
  | .value e | .arg (.value e) _ => e.schedules table
  | .items es => schedulesOfExprs table es
  | .arg (.thread _) _ => false
  | .args _ as _ => schedulesOfArgs table as

variable {rs : List Register}

theorem Phrase.Lowers.schedules {p : Phrase} {d e : Draft} (h : Lowers f p d rs e) :
    d.Schedules e (p.schedules f.table) := by
  induction h with
  | name | nil | thread | done => exact .of_ops rfl
  | truth | integer | text => exact .stay rfl (by simp [Op.inPlace])
  | tuple _ ih | pass _ ih => exact ih
  | call hlookup _ hcall ih =>
    simp only [Phrase.schedules,Expr.schedules,hlookup,Option.any_some]
    exact ih.trans (.call hcall)
  | compare _ _ _ _ ihl ihr => exact (ihl.trans ihr).then_stay rfl (by simp [Op.inPlace])
  | cons _ _ ih ih' => exact ih.trans ih'
  | @next _ _ arg _ _ _ _ _ _ _ _ _ _ _ hpass _ ih ih' =>
    have hlater := (Schedules.of_ops (ops_passed hpass)).trans ih'
    cases arg with
    | thread x => exact ih.trans hlater
    | value v => exact ih.trans hlater

theorem Expr.lower_schedules (value : Expr) {d e : Draft} (h : value.lower f d = .ok (rs, e)) :
    d.Schedules e (value.schedules f.table) :=
  (value.lowers h).schedules

theorem exitValues_schedule {value : Option Expr} {d e : Draft}
    (h : exitValues f value d = .ok (rs, e)) : d.Schedules e (value.any (·.schedules f.table)) := by
  cases value with
  | none =>
    obtain ⟨-,rfl⟩ := (pure_eq_ok _ _).1 h
    exact .of_ops rfl
  | some value => exact value.lower_schedules h

end

theorem inPlace_freeOps {n : Nat} {frees : List (Register × Condition)} :
    ∀ g ∈ freeOps n frees, g.op.inPlace = true := by
  intro g hg
  obtain ⟨p,-,rfl⟩ := mem_map.1 hg
  rfl

variable {callees : Callees}

theorem Draft.Arms.schedules_behind {f : Frame} {span : Span} {d dt df d' : Draft} {test : Register}
    {flowT flowF flow : Flow} {opsT opsF : List GuardedOp}
    (h : Arms callees False d test dt df flowT flowF opsT opsF)
    (hbehind : Behind f span d dt df d' flowT flowF flow) : df.Schedules d' false := by
  rcases h.behind hbehind with ⟨-,hops,-⟩ | ⟨-,-,_,_,hreunion⟩
  · exact .of_ops hops
  · refine .stay (hreunion.ops_eq.trans (append_assoc ..))
      (forall_mem_append.2 ⟨fun g hg => ?_, inPlace_freeOps⟩)
    obtain ⟨m,-,rfl⟩ := mem_map.1 hg
    rfl

/-- Lowered code calls a child just if the source schedules something. -/
theorem Lowers.schedules {f : Frame} {c : Code} {d d' : Draft} {flow : Flow}
    (h : Lowers callees f c d flow d') : d.Schedules d' (c.schedules f.table) := by
  induction h with
  | @bind _ _ names value _ e rs _ hvalue =>
    obtain ⟨scope,heq⟩ := e.exists_giveNames (names.map (·.node)) rs
    obtain ⟨ops,hops,hscheduled⟩ := value.lower_schedules hvalue
    exact ⟨ops, heq ▸ hops, hscheduled⟩
  | @run _ _ value _ _ _ hvalue => exact value.lower_schedules hvalue
  | @exit _ _ _ _ e rs _ _ hvalues =>
    obtain ⟨registers,heq,-⟩ := e.exists_leave rs
    exact (exitValues_schedule hvalues).then_stay (congrArg Draft.ops heq) (by simp [Op.inPlace])
  | @branch _ _ cond _ _ _ d dt _ _ test _ _ _ _ _ _ htest _ harms _ _ hbehind ihT ihF =>
    have hfork : d.Schedules (d.fork test) false := .stay rfl (by simp [Op.inPlace])
    have hresume : dt.Schedules (d.second dt) false := .of_ops rfl
    have harmT := hfork.trans ihT
    have harmF := (hresume.trans ihF).trans (harms.schedules_behind hbehind)
    rw [Bool.or_false] at harmF
    simp only [Code.schedules,Stmt.schedules,Block.schedules_eq]
    exact (cond.lower_schedules htest).trans (harmT.trans harmF)
  | @loop f _ _ _ _ _ _ _ _ _ _ _ hd hcaptures hcount _ _ _ _ hsite =>
    obtain ⟨t,_,_,_,_,hdetour⟩ := detour_of_encloses hsite knowsTable_any hd
      (nodup_orderedSet _) hcount hcaptures
    refine ⟨_, hdetour.ops_eq, ?_⟩
    rw [Code.schedules,Stmt.schedules,aroundOps,map_singleton]
    exact ⟨_, mem_append_right _ (mem_append_right _ (mem_append_left _ (mem_singleton_self _))), rfl⟩
  | nil => exact .of_ops rfl
  | last _ ih =>
    simp only [Code.schedules,schedulesOfStmts,Bool.or_false]
    exact ih
  | @cons f _ _ _ e _ _ _ _ _ _ _ _ _ _ ih ih' =>
    obtain ⟨-,-,-,-,hops,-,-⟩ := e.freeAll_spec f
      ((e.registers.unreachable (e.scope.reachable e.registers)).map fun r => (r, e.current))
    have hswept : e.Schedules (e.swept f) false := .stay hops inPlace_freeOps
    exact ih.trans (hswept.trans ih')

section

variable {table : SignatureTable} {d : Decl} {body : Block} {log : List Event} {l : Lowered}

section

variable (h : lowerFunction table d body log = .ok l)

include h

theorem scheduled_of_lowerFunction :
    bif body.schedules table then ∃ g ∈ l.routine.ops, g.op.startsChild = true
    else ∀ g ∈ l.routine.ops, g.op.inPlace = true := by
  obtain ⟨_,draft,-,-,-,hbody,rfl⟩ := lowers_of_lowerFunction h
  obtain ⟨ops,hops,hscheduled⟩ := hbody.schedules
  obtain rfl : draft.ops = ops := hops
  rw [Block.schedules_eq]
  exact hscheduled

theorem any_startsChild_of_lowerFunction :
    l.routine.ops.any (·.op.startsChild) = body.schedules table := by
  have hscheduled := scheduled_of_lowerFunction h
  cases hbody : body.schedules table with
  | true =>
    rw [hbody] at hscheduled
    exact any_eq_true.2 hscheduled
  | false =>
    rw [hbody] at hscheduled
    exact any_eq_false.2 fun g hg => by simp [Op.startsChild_of_inPlace (hscheduled g hg)]

theorem inPlace_of_lowerFunction (hbody : body.schedules table = false) :
    ∀ g ∈ l.routine.ops, g.op.inPlace = true := by
  have hscheduled := scheduled_of_lowerFunction h
  rwa [hbody] at hscheduled

end

end

end Polled
