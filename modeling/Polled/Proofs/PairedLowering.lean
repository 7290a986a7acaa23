import Polled.Generation
import Polled.Proofs.Pairing

/-!
Lowering looks at places only to report them.

Paired functions are lowered from one draft: both to the same draft, or both to the same error at related
places and the same log.
-/

namespace Polled

open List

variable {cond cond' : Expr} {body body' : Block} {s t u v : Span} {ps qs : List Passed} {d d' : Decl}

section Signatures

/-- The same signature, declared at another place. -/
def Signature.Twin (s t : Signature) : Prop := ∃ span, t = { s with span }

def SignatureTable.Twin (t u : SignatureTable) : Prop := Forall₂ Signature.Twin t.entries u.entries

variable {t u : SignatureTable}

namespace SignatureTable.Twin

theorem lookup? (h : t.Twin u) (x : String) : Option.Rel Signature.Twin (t.lookup? x) (u.lookup? x) := by
  obtain ⟨entries⟩ := t
  obtain ⟨entries'⟩ := u
  change Forall₂ Signature.Twin entries entries' at h
  rw [SignatureTable.lookup?,SignatureTable.lookup?]
  induction h with
  | nil => exact .none
  | @cons s _ _ _ hs _ ih =>
    obtain ⟨span,rfl⟩ := hs
    rw [find?_cons,find?_cons]
    cases s.name == x with
    | true => exact .some ⟨span, rfl⟩
    | false => exact ih

theorem contains_eq (h : t.Twin u) (x : String) : t.contains x = u.contains x := by
  rw [contains,contains]
  generalize hp : t.lookup? x = p, hq : u.lookup? x = q
  have hpq := h.lookup? x
  rw [hp,hq] at hpq
  cases hpq <;> rfl

theorem size_eq (h : t.Twin u) : t.size = u.size := Forall₂.length_eq h

end SignatureTable.Twin

end Signatures

section Names

mutual
theorem Expr.names_unplaced : (e : Expr) → e.unplaced.names = e.names
  | .name _ _ | .truth _ _ | .integer _ _ | .text _ _ => rfl
  | .tuple _ items => namesOfExprs_unplaced items
  | .call _ _ args => namesOfArgs_unplaced args
  | .compare _ _ lhs rhs => by
      rw [Expr.unplaced,Expr.names,Expr.names,lhs.names_unplaced,rhs.names_unplaced]

theorem namesOfExprs_unplaced : (es : List Expr) → namesOfExprs (unplacedExprs es) = namesOfExprs es
  | [] => rfl
  | e :: es => by rw [unplacedExprs,namesOfExprs,namesOfExprs,e.names_unplaced,namesOfExprs_unplaced es]

theorem namesOfArgs_unplaced : (as : List Arg) → namesOfArgs (unplacedArgs as) = namesOfArgs as
  | [] => rfl
  | .thread x :: as => by
      rw [unplacedArgs,namesOfArgs,namesOfArgs,namesOfArgs_unplaced as,Located.unplaced]
  | .value e :: as => by
      rw [unplacedArgs,namesOfArgs,namesOfArgs,e.names_unplaced,namesOfArgs_unplaced as]
end

mutual
theorem Stmt.names_unplaced : (s : Stmt) → s.unplaced.names = s.names
  | .bind _ names value => by
    rw [Stmt.unplaced,Stmt.names,Stmt.names,value.names_unplaced,map_map]
    rfl
  | .ret _ none => rfl
  | .ret _ (some value) => value.names_unplaced
  | .branch _ cond t e => by
    rw [Stmt.unplaced,Stmt.names,Stmt.names,cond.names_unplaced,t.names_unplaced,e.names_unplaced]
  | .loop _ cond body => by
      rw [Stmt.unplaced,Stmt.names,Stmt.names,cond.names_unplaced,body.names_unplaced]
  | .run _ e => e.names_unplaced

theorem Block.names_unplaced : (b : Block) → b.unplaced.names = b.names
  | ⟨_, stmts⟩ => namesOfStmts_unplaced stmts

theorem namesOfStmts_unplaced : (ss : List Stmt) → namesOfStmts (unplacedStmts ss) = namesOfStmts ss
  | [] => rfl
  | s :: ss => by rw [unplacedStmts,namesOfStmts,namesOfStmts,s.names_unplaced,namesOfStmts_unplaced ss]
end

variable {R : Span → Span → Prop}

theorem loopNames_eq (hcond : cond.Paired R cond') (hbody : body.Paired R body') :
    loopNames cond body = loopNames cond' body' := by
  rw [loopNames,loopNames,← cond.names_unplaced,← body.names_unplaced,hcond.unplaced,hbody.unplaced,
    cond'.names_unplaced,body'.names_unplaced]

end Names

namespace Lower

variable {R : Span → Span → Prop} {α : Type} {V : α → α → Prop}

/-- From one draft, both steps come to the same draft, or halt with the same error at related places. -/
abbrev Agrees (R : Span → Span → Prop) (V : α → α → Prop) (x y : Lower α) : Prop :=
  Agree Eq (Halt.Paired R) V x y

section Steps

theorem agrees_of_ok {x : Lower α} (h : ∀ d, ∃ r, x d = .ok r) : Agrees R Eq x x := by
  rintro d _ rfl
  obtain ⟨r,hr⟩ := h d
  rw [hr]
  exact .ok ⟨rfl, rfl⟩

theorem agrees_refuse (fault : SourceFault) (h : R s t) :
    Agrees R V (refuse fault s) (refuse fault t) := by
  rintro d _ rfl
  exact .error ⟨.source fault h, rfl⟩

theorem agrees_unless (p : Prop) [Decidable p] (fault : SourceFault) (h : R s t) {x y : Lower α}
    (hxy : Agrees R V x y) :
    Agrees R V (if p then refuse fault s >>= fun _ : Unit => x else x)
      (if p then refuse fault t >>= fun _ : Unit => y else y) :=
  .ite p ((agrees_refuse fault h).bind_eq fun _ => hxy) hxy

theorem agrees_placing (hR : Steady R) (h : R s t) {x y : Lower α} (hxy : Agrees R V x y) :
    Agrees R V (placing s x) (placing t y) := by
  intro d d' hd
  have hrun := hxy hd
  rw [placing,placing]
  generalize x d = p, y d' = q at hrun ⊢
  cases hrun with
  | ok h => exact .ok h
  | error herror => exact .error ⟨herror.error.withPlace hR h, herror.log⟩

theorem agrees_ensure (outcome : Except Kind.Clash Unit) (fault : Kind.Clash → SourceFault) (h : R s t) :
    Agrees R Eq (ensure outcome fault s) (ensure outcome fault t) := by
  cases outcome with
  | ok _ => exact .pure rfl
  | error clash => exact agrees_refuse _ h

theorem agrees_get : Agrees R Eq get get := agrees_of_ok fun _ => ⟨_, rfl⟩

theorem agrees_modify (g : Draft → Draft) : Agrees R Eq (modify g) (modify g) :=
  agrees_of_ok fun _ => ⟨_, rfl⟩

theorem agrees_note (e : Event) : Agrees R Eq (note e) (note e) := agrees_of_ok fun _ => ⟨_, rfl⟩

theorem agrees_alloc (k : Kind) : Agrees R Eq (alloc k) (alloc k) := agrees_of_ok fun _ => ⟨_, rfl⟩

theorem agrees_kindOf (r : Register) : Agrees R Eq (kindOf r) (kindOf r) :=
  agrees_of_ok fun _ => ⟨_, rfl⟩

theorem agrees_release (r : Register) : Agrees R Eq (release r) (release r) :=
  agrees_of_ok fun _ => ⟨_, rfl⟩

theorem agrees_condition : Agrees R Eq condition condition := agrees_of_ok fun _ => ⟨_, rfl⟩

theorem agrees_newChild (callee : String) : Agrees R Eq (newChild callee) (newChild callee) :=
  agrees_of_ok fun _ => ⟨_, rfl⟩

theorem agrees_pushUnder (c : Condition) (op : Op) : Agrees R Eq (pushUnder c op) (pushUnder c op) :=
  agrees_of_ok fun _ => ⟨_, rfl⟩

theorem agrees_push (op : Op) : Agrees R Eq (push op) (push op) := agrees_of_ok fun _ => ⟨_, rfl⟩

theorem agrees_bindName (x : String) (r : Register) : Agrees R Eq (bindName x r) (bindName x r) :=
  agrees_of_ok fun _ => ⟨_, rfl⟩

theorem agrees_doneFlag (results : List Register) :
    Agrees R Eq (doneFlag results) (doneFlag results) := by
  cases results with
  | nil => exact agrees_condition.bind_eq fun _ => .pure rfl
  | cons r rs => exact .pure rfl

theorem agrees_allocAll (ks : List Kind) : Agrees R Eq (allocAll ks) (allocAll ks) := by
  induction ks with
  | nil => exact .pure rfl
  | cons k ks ih => exact (agrees_alloc k).bind_eq fun _ => ih.bind_eq fun _ => .pure rfl

theorem agrees_releaseAll (rs : List Register) : Agrees R Eq (releaseAll rs) (releaseAll rs) := by
  induction rs with
  | nil => exact .pure rfl
  | cons r rs ih => exact (agrees_release r).bind_eq fun _ => ih

theorem agrees_bindNames (xs : List String) (rs : List Register) :
    Agrees R Eq (bindNames xs rs) (bindNames xs rs) := by
  induction xs generalizing rs with
  | nil => exact .pure rfl
  | cons x xs ih =>
    cases rs with
    | nil => exact .pure rfl
    | cons r rs => exact (agrees_bindName x r).bind_eq fun _ => ih rs

theorem agrees_collectAtExit (keep : List Register) :
    Agrees R Eq (collectAtExit keep) (collectAtExit keep) :=
  agrees_get.bind_eq fun _ => (agrees_releaseAll _).bind_eq fun _ => .pure rfl

theorem agrees_read (x : String) (fault : SourceFault) (h : R s t) :
    Agrees R Eq (read x fault s) (read x fault t) := by
  have hlookup : Agrees R Eq (lookup? x) (lookup? x) := agrees_of_ok fun _ => ⟨_, rfl⟩
  refine hlookup.bind_eq fun found => ?_
  cases found with
  | none => exact agrees_refuse fault h
  | some r => exact .pure rfl

theorem agrees_single (place : ValueUse) (h : R s t) {x y : Lower (List Register)}
    (hxy : Agrees R Eq x y) :
    Agrees R Eq (single place s x) (single place t y) := by
  refine hxy.bind_eq fun rs => ?_
  match rs with
  | [r] => exact .pure rfl
  | [] | _ :: _ :: _ => exact agrees_refuse _ h

theorem agrees_checkTruth (r : Register) (h : R s t) (statement : Conditional) :
    Agrees R Eq (checkTruth r s statement) (checkTruth r t statement) :=
  (agrees_kindOf r).bind_eq fun _ => agrees_ensure _ _ h

end Steps

section Freeing

variable {f : Frame} (table : SignatureTable)

theorem agrees_freeUnder (c : Condition) (r : Register) :
    Agrees R Eq (freeUnder f c r) (freeUnder { f with table } c r) :=
  agrees_condition.bind_eq fun _ => (agrees_note _).bind_eq fun _ =>
    (agrees_pushUnder c _).bind_eq fun _ =>
    agrees_release r

theorem agrees_freeAllUnder (rs : List (Register × Condition)) :
    Agrees R Eq (freeAllUnder f rs) (freeAllUnder { f with table } rs) := by
  induction rs with
  | nil => exact .pure rfl
  | cons r rs ih => exact (agrees_freeUnder table r.2 r.1).bind_eq fun _ => ih

theorem agrees_sweep : Agrees R Eq (sweep f) (sweep { f with table }) :=
  agrees_get.bind_eq fun _ => agrees_freeAllUnder table _

end Freeing

section Branches

variable {f : Frame} (table : SignatureTable)

theorem agrees_secure (arm : Arm) (r : Register) (before : Nat) :
    Agrees R Eq (secure arm r before) (secure arm r before) := by
  refine agrees_get.bind_eq fun d => .ite _ ?_ (.pure rfl)
  exact (agrees_alloc _).bind_eq fun _ => (agrees_pushUnder _ _).bind_eq fun _ => agrees_get.bind_eq
    fun _ => .pure rfl

theorem agrees_joinRegisters (t u : Register) (before : Nat) (arms : Arm × Arm) :
    Agrees R Eq (joinRegisters t u before arms) (joinRegisters t u before arms) := by
  refine agrees_get.bind_eq fun d => .ite _ (.pure rfl) ?_
  exact (agrees_secure _ t before).bind_eq fun _ => (agrees_secure _ u before).bind_eq fun _ =>
    agrees_of_ok fun _ => ⟨_, rfl⟩

theorem agrees_joinNames (h : R s t) (before : Nat) (xs : List String) (arms : Arm × Arm)
    (merged : Scope) :
    Agrees R Eq (joinNames f s before xs arms merged)
      (joinNames { f with table } t before xs arms merged) := by
  induction xs generalizing arms merged with
  | nil => exact .pure rfl
  | cons x xs ih =>
    rw [joinNames,joinNames]
    cases arms.1.scope.get? x with
    | none => exact agrees_refuse _ h
    | some a =>
      cases arms.2.scope.get? x with
      | none => exact agrees_refuse _ h
      | some b =>
        exact (agrees_kindOf b).bind_eq fun _ => (agrees_kindOf a).bind_eq fun _ =>
          (agrees_ensure _ _ h).bind_eq fun _ =>
          (agrees_joinRegisters a b before arms).bind_eq fun _ => (agrees_note _).bind_eq fun _ => ih _ _

theorem agrees_mergeArms (h : R s t) (start : Scope) (before : Nat) (onTrue onFalse : Arm) :
    Agrees R Eq (mergeArms f s start before onTrue onFalse)
      (mergeArms { f with table } t start before onTrue onFalse) :=
  (agrees_joinNames table h before _ _ _).bind_eq fun _ => agrees_get.bind_eq fun _ =>
    (agrees_modify _).bind_eq fun _ =>
    agrees_freeAllUnder table _

theorem agrees_arm (c : Condition) {body body' : Lower Flow} (h : Agrees R Eq body body') :
    Agrees R Eq (arm c body) (arm c body') :=
  (agrees_modify _).bind_eq fun _ => h.bind_eq fun _ => agrees_get.bind_eq fun _ => .pure rfl

theorem agrees_branchOn (h : R s t) (test : Register) {onTrue onTrue' onFalse onFalse' : Lower Flow}
    (hTrue : Agrees R Eq onTrue onTrue') (hFalse : Agrees R Eq onFalse onFalse') :
    Agrees R Eq (branchOn f s test onTrue onFalse)
      (branchOn { f with table } t test onTrue' onFalse') := by
  refine agrees_condition.bind_eq fun ifTrue => agrees_condition.bind_eq fun ifFalse =>
    (agrees_push _).bind_eq fun _ =>
    agrees_get.bind_eq fun start => (agrees_arm ifTrue hTrue).bind_eq fun trueEnd =>
      (agrees_modify _).bind_eq fun _ =>
      (agrees_arm ifFalse hFalse).bind_eq fun falseEnd => (agrees_modify _).bind_eq fun _ => ?_
  match trueEnd, falseEnd with
  | (.returns, _), (.returns, _) | (.returns, _), (.continues, _) => exact .pure rfl
  | (.continues, _), (.returns, _) => exact (agrees_modify _).bind_eq fun _ => .pure rfl
  | (.continues, trueArm), (.continues, falseArm) =>
    exact (agrees_mergeArms table h start.scope _ trueArm falseArm).bind_eq fun _ => .pure rfl

end Branches

section Calls

variable {f : Frame} {table : SignatureTable}

structure PassedPaired (R : Span → Span → Prop) (p q : Passed) : Prop where
  register : p.register = q.register
  thread : Option.Rel (fun x y => x.1.Paired R y.1 ∧ x.2 = y.2) p.thread q.thread

theorem leftOver_eq (h : Forall₂ (PassedPaired R) ps qs) (rs : List Register) :
    leftOver rs ps = leftOver rs qs := by
  induction h generalizing rs with
  | nil => rfl
  | @cons p q _ _ hp _ ih =>
    cases rs with
    | nil => rfl
    | cons r rs =>
      obtain ⟨_,thread⟩ := p
      obtain ⟨_,_⟩ := q
      rw [leftOver,leftOver,ih]
      cases hp.thread <;> rfl

theorem agrees_passTo (function : String) (param : String × Kind) (h : R s t) (r : Register) :
    Agrees R Eq (passTo function param s r) (passTo function param t r) :=
  (agrees_kindOf r).bind_eq fun _ => (agrees_ensure _ _ h).bind_eq fun _ =>
    .ite _ (agrees_modify _) (.pure rfl)

theorem agrees_rebindThreads (function : String) (results : List Register)
    (h : Forall₂ (PassedPaired R) ps qs) (position : Nat) :
    Agrees R Eq (rebindThreads function results position ps)
      (rebindThreads function results position qs) := by
  induction h generalizing position with
  | nil => exact .pure rfl
  | @cons p q _ _ hp _ ih =>
    obtain ⟨_,thread⟩ := p
    obtain ⟨_,_⟩ := q
    rw [rebindThreads,rebindThreads]
    cases hp.thread with
    | none => exact ih _
    | @some x y hxy =>
      obtain ⟨⟨node,_⟩,before⟩ := x
      obtain ⟨⟨node',_⟩,before'⟩ := y
      obtain ⟨⟨hnode,hspan⟩,hbefore⟩ := hxy
      obtain rfl : node = node' := hnode
      obtain rfl : before = before' := hbefore
      cases results[position]? with
      | none => exact (agrees_refuse _ hspan).bind_eq fun _ => ih _
      | some r =>
        exact (agrees_kindOf r).bind_eq fun _ => (agrees_ensure _ _ hspan).bind_eq fun _ =>
          (agrees_bindName _ r).bind_eq fun _ => ih _

theorem agrees_callWith {sig sig' : Signature} (hsig : sig.Twin sig')
    (h : Forall₂ (PassedPaired R) ps qs) :
    Agrees R Eq (callWith f sig ps) (callWith { f with table } sig' qs) := by
  obtain ⟨_,rfl⟩ := hsig
  have hargs : ps.map (·.register) = qs.map (·.register) := map_eq_of_forall₂ h fun _ _ hp => hp.register
  have hrest (results : List Register) : Agrees R Eq
      (rebindThreads sig.name results 0 ps >>= fun _ => pure (leftOver results ps))
      (rebindThreads sig.name results 0 qs >>= fun _ => pure (leftOver results qs)) :=
    (agrees_rebindThreads _ _ h 0).bind_eq fun _ => .pure (leftOver_eq h results)
  refine (agrees_allocAll _).bind_eq fun results => (agrees_doneFlag results).bind_eq fun done =>
    (agrees_note _).bind_eq fun _ => ?_
  simp only [hargs,Signature.strategy]
  cases sig.isSync with
  | true => exact (agrees_push _).bind_eq fun _ => hrest results
  | false => exact (agrees_newChild _).bind_eq fun _ => (agrees_push _).bind_eq fun _ => hrest results

theorem agrees_calleeOf (htable : f.table.Twin table) {callee callee' : Located String}
    (hcallee : callee.Paired R callee') (count : Nat) (h : R s t) :
    Agrees R Signature.Twin (calleeOf f callee count s) (calleeOf { f with table } callee' count t) := by
  rw [calleeOf,calleeOf,hcallee.node]
  have hlookup := htable.lookup? callee'.node
  generalize f.table.lookup? callee'.node = p, table.lookup? callee'.node = q at hlookup ⊢
  cases hlookup with
  | none => exact agrees_refuse _ hcallee.span
  | @some sig sig' hsig =>
    obtain ⟨span,rfl⟩ := hsig
    exact agrees_unless _ _ h (.pure ⟨span, rfl⟩)

end Calls

section Loops

variable {f : Frame} {table : SignatureTable}

theorem agrees_closureName (htable : f.table.Twin table) :
    Agrees R Eq (closureName f) (closureName { f with table }) := by
  have hname : closureName { f with table } = closureName f := by
    simp only [closureName,htable.size_eq,htable.contains_eq]
  rw [hname]
  exact agrees_of_ok fun _ => ⟨_, rfl⟩

theorem agrees_nextRound (h : R s t) (params : List (String × Kind)) :
    Agrees R Eq (nextRound s params) (nextRound t params) := by
  induction params with
  | nil => exact .pure rfl
  | cons p ps ih =>
    exact (agrees_read _ _ h).bind_eq fun r => (agrees_kindOf r).bind_eq fun _ =>
      (agrees_ensure _ _ h).bind_eq fun _ =>
      ih.bind_eq fun _ => .pure rfl

theorem agrees_entryValues (h : R s t) (captures : List Capture) :
    Agrees R Eq (entryValues s captures) (entryValues t captures) := by
  induction captures with
  | nil => exact .pure rfl
  | cons c cs ih => exact (agrees_read _ _ h).bind_eq fun _ => ih.bind_eq fun _ => .pure rfl

theorem agrees_skipLoop (skip : Condition) (rs : List (Capture × Register × Register)) :
    Agrees R Eq (skipLoop skip rs) (skipLoop skip rs) := by
  induction rs with
  | nil => exact .pure rfl
  | cons r rs ih =>
    exact (agrees_pushUnder _ _).bind_eq fun _ => (agrees_release _).bind_eq fun _ =>
      (agrees_bindName _ _).bind_eq fun _ =>
      ih

theorem agrees_iteration (f : Frame) (table : SignatureTable) (hs : R s t) (hu : R u v)
    {test test' : Lower Register} {body body' : Lower Flow} (htest : Agrees R Eq test test')
    (hbody : Agrees R Eq body body') :
    Agrees R Eq (iteration f s u test body) (iteration { f with table } t v test' body') :=
  hbody.bind_eq fun _ => htest.bind_eq fun r => (agrees_checkTruth r hu _).bind_eq fun _ =>
    agrees_condition.bind_eq fun _ => agrees_condition.bind_eq fun _ =>
      (agrees_nextRound hs _).bind_eq fun values =>
      (agrees_collectAtExit values).bind_eq fun _ => (agrees_pushUnder _ _).bind_eq fun _ =>
        (agrees_pushUnder _ _).bind_eq fun _ => agrees_pushUnder _ _

theorem agrees_separately (params : List (String × Kind)) {step step' : Lower Unit}
    (h : Agrees R Eq step step') :
    Agrees R Eq (separately params step) (separately params step') := by
  rintro d _ rfl
  rw [separately,separately]
  have hrun := h (rfl : Draft.start params d.log = _)
  generalize step (.start params d.log) = x, step' (.start params d.log) = y at hrun ⊢
  cases hrun with
  | error herror => exact .error herror
  | @ok a b hab =>
    obtain ⟨⟨⟩,inner⟩ := a
    obtain ⟨⟨⟩,inner'⟩ := b
    obtain rfl : inner = inner' := hab.2
    exact .ok ⟨rfl, rfl⟩

theorem agrees_loopOver (htable : f.table.Twin table) (names : List String) (hs : R s t) (hu : R u v)
    {test test' : Frame → Lower Register} {body body' : Frame → Lower Flow}
    (htest : ∀ g : Frame, g.table.Twin table → Agrees R Eq (test g) (test' { g with table }))
    (hbody : ∀ g : Frame, g.table.Twin table → Agrees R Eq (body g) (body' { g with table })) :
    Agrees R Eq (loopOver f names s u test body) (loopOver { f with table } names t v test' body') := by
  refine (agrees_of_ok (x := capturesOf names) fun _ => ⟨_, rfl⟩).bind_eq fun captures =>
    (agrees_closureName htable).bind_eq fun closure => (agrees_allocAll _).bind_eq fun results => ?_
  -- The test is lowered twice: in the closure, behind its body, and then before the loop.
  let inner : Frame :=
    { table := f.table, name := closure, isSync := false, params := captures.map fun c => (c.name,
      c.kind),
      returnKinds := captures.map (·.kind), inLoop := true }
  have hround := agrees_iteration inner table hu hs (htest inner htable) (hbody inner htable)
  refine (agrees_separately _ hround).bind_eq fun draft =>
    (agrees_note _).bind_eq fun _ => (agrees_modify _).bind_eq fun _ =>
      agrees_condition.bind_eq fun start =>
      agrees_condition.bind_eq fun skip => (htest f htable).bind_eq fun r =>
        (agrees_checkTruth r hs _).bind_eq fun _ => ?_
  exact (agrees_push _).bind_eq fun _ => (agrees_entryValues hs _).bind_eq fun sources =>
    (agrees_newChild _).bind_eq fun _ => (agrees_doneFlag _).bind_eq fun _ =>
      (agrees_pushUnder _ _).bind_eq fun _ =>
      agrees_skipLoop _ _

end Loops

end Lower

open Lower

section Trees

variable {R : Span → Span → Prop} {f : Frame} {table : SignatureTable}

mutual
theorem Expr.lower_agrees (htable : f.table.Twin table) {e e' : Expr} (h : e.Paired R e') :
    Agrees R Eq (e.lower f) (e'.lower { f with table }) := by
  match e, e', h with
  | .name _ _, _, .name x hs =>
    rw [Expr.lower,Expr.lower]
    exact (agrees_read x _ hs).bind_eq fun _ => .pure rfl
  | .truth _ _, _, .truth value _ | .integer _ _, _, .integer value _ | .text _ _, _, .text value _ =>
    rw [Expr.lower,Expr.lower]
    exact (agrees_alloc _).bind_eq fun _ => (agrees_push _).bind_eq fun _ => .pure rfl
  | .tuple _ items, _, .tuple _ hitems =>
    rw [Expr.lower,Expr.lower]
    exact Expr.lowerItems_agrees htable hitems
  | .call _ callee args, _, .call hs hcallee hargs =>
    rw [Expr.lower,Expr.lower,← hargs.length_eq]
    refine (agrees_calleeOf htable hcallee _ hs).bind fun sig sig' hsig => ?_
    obtain ⟨span,rfl⟩ := hsig
    exact (Arg.lowerAll_agrees htable _ _ hargs).bind fun passed passed' hpassed => agrees_callWith
      ⟨span, rfl⟩ hpassed
  | .compare _ _ lhs rhs, _, .compare op _ hlhs hrhs =>
    rw [Expr.lower,Expr.lower]
    exact (agrees_single _ hlhs.span (Expr.lower_agrees htable hlhs)).bind_eq fun left =>
      (agrees_single _ hrhs.span (Expr.lower_agrees htable hrhs)).bind_eq fun right =>
        (agrees_kindOf left).bind_eq fun _ => (agrees_ensure _ _ hlhs.span).bind_eq fun _ =>
          (agrees_kindOf right).bind_eq fun _ => (agrees_ensure _ _ hrhs.span).bind_eq fun _ =>
            (agrees_alloc _).bind_eq fun _ => (agrees_push _).bind_eq fun _ => .pure rfl

theorem Expr.lowerItems_agrees (htable : f.table.Twin table) {es es' : List Expr}
    (h : Forall₂ (Expr.Paired R) es es') :
    Agrees R Eq (Expr.lowerItems f es) (Expr.lowerItems { f with table } es') := by
  match es, es', h with
  | [], _, .nil =>
    rw [Expr.lowerItems,Expr.lowerItems]
    exact .pure rfl
  | e :: es, _, .cons he hes =>
    rw [Expr.lowerItems,Expr.lowerItems]
    exact (agrees_single _ he.span (Expr.lower_agrees htable he)).bind_eq fun _ =>
      (Expr.lowerItems_agrees htable hes).bind_eq fun _ => .pure rfl

theorem Arg.lowerAll_agrees (htable : f.table.Twin table) (function : String)
    (params : List (String × Kind)) {as as' : List Arg} (h : Forall₂ (Arg.Paired R) as as') :
    Agrees R (Forall₂ (PassedPaired R)) (Arg.lowerAll f function params as)
      (Arg.lowerAll { f with table } function params as') := by
  match params, as, as', h with
  | [], _, _, _ | _ :: _, [], _, .nil =>
    simp only [Arg.lowerAll]
    exact .pure .nil
  | param :: params, .thread x :: as, .thread y :: as', .cons (.thread hx) has =>
    rw [Arg.lowerAll,Arg.lowerAll,hx.node]
    exact (agrees_read _ _ hx.span).bind_eq fun r => (agrees_kindOf r).bind_eq fun _ =>
      (agrees_passTo function param hx.span r).bind_eq fun _ =>
        (Arg.lowerAll_agrees htable function params has).bind fun _ _ hpassed =>
          .pure (.cons ⟨rfl, .some ⟨hx, rfl⟩⟩ hpassed)
  | param :: params, .value e :: as, .value e' :: as', .cons (.value he) has =>
    rw [Arg.lowerAll,Arg.lowerAll]
    exact (agrees_single _ he.span (Expr.lower_agrees htable he)).bind_eq fun r =>
      (agrees_passTo function param he.span r).bind_eq fun _ =>
        (Arg.lowerAll_agrees htable function params has).bind fun _ _ hpassed =>
          .pure (.cons ⟨rfl, .none⟩ hpassed)
end

theorem checkReturns_agrees (h : R s t) (position : Nat) (rs : List Register) (ks : List Kind) :
    Agrees R Eq (checkReturns s position rs ks) (checkReturns t position rs ks) := by
  induction rs generalizing position ks with
  | nil => exact .pure rfl
  | cons r rs ih =>
    cases ks with
    | nil => exact .pure rfl
    | cons k ks =>
      exact (agrees_kindOf r).bind_eq fun _ => (agrees_ensure _ _ h).bind_eq fun _ => ih _ ks

theorem checkReturnedOnce_agrees (h : R s t) (seen rs : List Register) :
    Agrees R Eq (checkReturnedOnce s seen rs) (checkReturnedOnce t seen rs) := by
  induction rs generalizing seen with
  | nil => exact .pure rfl
  | cons r rs ih => exact agrees_get.bind_eq fun d => .ite _ (agrees_unless _ _ h (ih _)) (ih seen)

theorem lowerExit_agrees (htable : f.table.Twin table) (h : R s t) {value value' : Option Expr}
    (hvalue : Option.Rel (Expr.Paired R) value value') :
    Agrees R Eq (lowerExit f s value) (lowerExit { f with table } t value') := by
  have hrest (values : List Register) : Agrees R Eq
      (do
        if values.length ≠ f.returnKinds.length then
          refuse (.returnCount f.name f.returnKinds.length values.length) s
        checkReturns s 1 values f.returnKinds
        checkReturnedOnce s [] values
        let garbage ← collectAtExit values
        push (.ret values garbage)
        return Flow.returns)
      (do
        if values.length ≠ f.returnKinds.length then
          refuse (.returnCount f.name f.returnKinds.length values.length) t
        checkReturns t 1 values f.returnKinds
        checkReturnedOnce t [] values
        let garbage ← collectAtExit values
        push (.ret values garbage)
        return Flow.returns) :=
    agrees_unless _ _ h ((checkReturns_agrees h 1 values _).bind_eq fun _ =>
      (checkReturnedOnce_agrees h [] values).bind_eq fun _ =>
        (agrees_collectAtExit values).bind_eq fun _ =>
        (agrees_push _).bind_eq fun _ => .pure rfl)
  refine agrees_unless _ _ h ?_
  cases hvalue with
  | none => exact hrest []
  | some he => exact (Expr.lower_agrees htable he).bind_eq hrest

theorem lowerTest_agrees (htable : f.table.Twin table) (place : ValueUse) (h : cond.Paired R cond') :
    Agrees R Eq (lowerTest f place cond) (lowerTest { f with table } place cond') :=
  agrees_single place h.span (Expr.lower_agrees htable h)

mutual
theorem Stmt.lower_agrees (hR : Steady R) (f : Frame) (htable : f.table.Twin table) {s s' : Stmt}
    (h : s.Paired R s') :
    Agrees R Eq (s.lower f) (s'.lower { f with table }) := by
  match s, s', h with
  | .bind _ names value, .bind _ names' value', .bind hs hnames hvalue =>
    rw [Stmt.lower,Stmt.lower,hnames.length_eq,map_node_eq hnames]
    exact (Expr.lower_agrees htable hvalue).bind_eq fun regs => agrees_unless _ _ hs
      ((agrees_bindNames _ regs).bind_eq fun _ => .pure rfl)
  | .ret _ _, .ret _ _, .ret hs hvalue =>
    rw [Stmt.lower,Stmt.lower]
    exact lowerExit_agrees htable hs hvalue
  | .branch _ cond t e, .branch _ cond' t' e', .branch hs hcond hTrue hFalse =>
    rw [Stmt.lower,Stmt.lower]
    exact (lowerTest_agrees htable _ hcond).bind_eq fun test =>
      (agrees_checkTruth test hcond.span _).bind_eq fun _ =>
      agrees_branchOn table hs test (Block.lower_agrees hR f htable hTrue)
        (Block.lower_agrees hR f htable hFalse)
  | .loop _ cond body, .loop _ cond' body', .loop hs hcond hbody =>
    rw [Stmt.lower,Stmt.lower,loopNames_eq hcond hbody]
    exact (agrees_loopOver htable _ hcond.span hbody.span (fun g hg => lowerTest_agrees hg _ hcond)
      fun g hg => Block.lower_agrees hR g hg hbody).bind_eq fun _ => .pure rfl
  | .run _ e, .run _ e', .run hs he =>
    rw [Stmt.lower,Stmt.lower]
    exact (Expr.lower_agrees htable he).bind_eq fun regs => agrees_unless _ _ he.span (.pure rfl)

theorem Block.lower_agrees (hR : Steady R) (f : Frame) (htable : f.table.Twin table) {b b' : Block}
    (h : b.Paired R b') :
    Agrees R Eq (b.lower f) (b'.lower { f with table }) := by
  match b, b', h with
  | ⟨_, stmts⟩, ⟨_, stmts'⟩, .mk _ hstmts =>
    rw [Block.lower,Block.lower]
    exact Stmt.lowerAll_agrees hR f htable hstmts

theorem Stmt.lowerAll_agrees (hR : Steady R) (f : Frame) (htable : f.table.Twin table)
    {ss ss' : List Stmt} (h : Forall₂ (Stmt.Paired R) ss ss') :
    Agrees R Eq (Stmt.lowerAll f ss) (Stmt.lowerAll { f with table } ss') := by
  match ss, ss', h with
  | [], _, .nil =>
    rw [Stmt.lowerAll,Stmt.lowerAll]
    exact .pure rfl
  | s :: ss, s' :: ss', .cons hs hss =>
    simp only [Stmt.lowerAll]
    refine (agrees_placing hR hs.span (Stmt.lower_agrees hR f htable hs)).bind_eq fun flow => ?_
    cases flow with
    | continues => exact (agrees_sweep table).bind_eq fun _ => Stmt.lowerAll_agrees hR f htable hss
    | returns =>
      match ss, ss', hss with
      | [], _, .nil => exact .pure rfl
      | _ :: _, _, .cons hnext _ => exact agrees_refuse _ hnext.span
end

theorem Block.lowerReturning_agrees (hR : Steady R) (htable : f.table.Twin table) {b b' : Block}
    (h : b.Paired R b') :
    Agrees R Eq (b.lowerReturning f) (b'.lowerReturning { f with table }) := by
  refine (Block.lower_agrees hR f htable h).bind_eq fun flow => ?_
  cases flow with
  | returns => exact .pure rfl
  | continues => exact agrees_refuse _ (hR.last h.span)

end Trees

section Generation

variable {R : Span → Span → Prop} {table table' : SignatureTable}

theorem lowerFunction_alike (hR : Steady R) (htable : table.Twin table') (hd : d.Paired R d')
    (hbody : body.Paired R body') (log : List Event) :
    Alike (Halt.Paired R) Eq (lowerFunction table d body log) (lowerFunction table' d' body' log) := by
  let f : Frame :=
    { table, name := d.name.node, isSync := d.isSync, params := d.typedParams,
      returnKinds := d.returnKinds,
      inLoop := false }
  have hrun := Block.lowerReturning_agrees hR (show f.table.Twin table' from htable) hbody
    (rfl : Draft.start f.params log = _)
  simp only [lowerFunction,← hd.name.node,← hd.isSync,← hd.typedParams_eq,← hd.returnKinds_eq]
  generalize body.lowerReturning f (.start f.params log) = x,
    body'.lowerReturning { f with table := table' } (.start f.params log) = y at hrun
  cases hrun with
  | @ok a b hab =>
    obtain ⟨⟨⟩,draft⟩ := a
    obtain ⟨⟨⟩,draft'⟩ := b
    obtain rfl : draft = draft' := hab.2
    exact .ok rfl
  | error herror => exact .error herror

/-- Paired by a relation that keeps within `Q`. Functions of different files may need different ones. -/
def Decl.Within (Q : Span → Span → Prop) (d d' : Decl) : Prop :=
  ∃ R, Steady R ∧ (∀ s t, R s t → Q s t) ∧ d.Paired R d'

variable {Q : Span → Span → Prop}

theorem generateDecl_alike (htable : table.Twin table') (h : d.Within Q d') (log : List Event) :
    Alike (Halt.Paired Q) Eq (generateDecl table d log) (generateDecl table' d' log) := by
  obtain ⟨R,hR,hRQ,hd⟩ := h
  rw [generateDecl,generateDecl,hd.name.node,hd.isSync,hd.typedParams_eq,hd.returnKinds_eq]
  have hbody := hd.body
  generalize d.body = body, d'.body = body' at hbody
  cases hbody with
  | none => exact .ok rfl
  | @some body body' hblock =>
    have hrun := lowerFunction_alike hR htable hd hblock log
    simp only
    generalize lowerFunction table d body log = x, lowerFunction table' d' body' log = y at hrun
    cases hrun with
    | ok hxy => exact .ok (by rw [hxy])
    | error herror => exact .error ⟨.inFunction _ (herror.error.imp hRQ), herror.log⟩

theorem generateDecls_alike (htable : table.Twin table') {ds ds' : List Decl}
    (h : Forall₂ (Decl.Within Q) ds ds') (log : List Event) :
    Alike (Halt.Paired Q) Eq (generateDecls table ds log) (generateDecls table' ds' log) := by
  induction h generalizing log with
  | nil => exact .ok rfl
  | cons hd _ ih =>
    refine (generateDecl_alike htable hd log).bind fun first _ hfirst => ?_
    subst hfirst
    exact (ih first.log).bind fun rest _ hrest => .ok (by rw [hrest])

theorem repeated?_paired {ps qs : List Param} (h : Forall₂ (Param.Paired R) ps qs) (seen : List String) :
    Option.Rel (Located.Paired R) (SignatureTable.repeated? seen ps)
      (SignatureTable.repeated? seen qs) := by
  induction h generalizing seen with
  | nil => exact .none
  | @cons _ _ _ _ hp _ ih =>
    rw [SignatureTable.repeated?,SignatureTable.repeated?,hp.name.node]
    split
    · exact .some hp.name
    · exact ih _

theorem SignatureTable.declare_alike (htable : table.Twin table') {s s' : Signature} (h : s.Twin s')
    (hspan : Q s.span s'.span) :
    Alike (CompileError.Paired Q) SignatureTable.Twin (table.declare s) (table'.declare s') := by
  obtain ⟨span,rfl⟩ := h
  have hlookup := htable.lookup? s.name
  rw [declare,declare]
  generalize table.lookup? s.name = x, table'.lookup? s.name = y at hlookup
  cases hlookup with
  | none => exact .ok (rel_append htable (.cons ⟨span, rfl⟩ .nil))
  | @some prior prior' hprior =>
    obtain ⟨_,rfl⟩ := hprior
    exact .error (.source _ hspan)

theorem SignatureTable.declareDecl_alike (htable : table.Twin table') (home : String)
    (h : d.Within Q d') :
    Alike (CompileError.Paired Q) SignatureTable.Twin (declareDecl home table d)
      (declareDecl home table' d') := by
  obtain ⟨R,_,hRQ,hd⟩ := h
  have hrepeated := repeated?_paired hd.params []
  rw [declareDecl,declareDecl,hd.name.node,hd.isSync,hd.isNative,hd.typedParams_eq,hd.returnKinds_eq]
  generalize repeated? [] d.params = x, repeated? [] d'.params = y at hrepeated
  cases hrepeated with
  | none => exact declare_alike htable ⟨_, rfl⟩ (hRQ _ _ hd.name.span)
  | some hp =>
    simp only [hp.node]
    exact .error (.source _ (hRQ _ _ hp.span))

structure BundleModule.Paired (Q : Span → Span → Prop) (m n : BundleModule) : Prop where
  name : m.name = n.name
  functions : Forall₂ (Decl.Within Q) m.tree.functions n.tree.functions

structure Bundle.Paired (Q : Span → Span → Prop) (p q : Bundle) : Prop where
  entry : p.entry = q.entry
  modules : Forall₂ (BundleModule.Paired Q) p.modules q.modules

variable {p q : Bundle}

theorem Bundle.Paired.signatures (h : p.Paired Q q) :
    Alike (CompileError.Paired Q) SignatureTable.Twin p.signatures q.signatures := by
  refine Alike.foldlM h.modules (fun t u m n htu hmn => ?_) .nil
  rw [hmn.name]
  exact Alike.foldlM hmn.functions (fun _ _ d d' htable hd => SignatureTable.declareDecl_alike htable
    n.name hd) htu

theorem Bundle.Paired.decls (h : p.Paired Q q) : Forall₂ (Decl.Within Q) p.decls q.decls := by
  have hmodules := h.modules
  rw [Bundle.decls,Bundle.decls]
  generalize p.modules = ms, q.modules = ns at hmodules
  induction hmodules with
  | nil => exact .nil
  | cons hmn _ ih =>
    rw [flatMap_cons,flatMap_cons]
    exact rel_append hmn.functions ih

theorem Bundle.Paired.generate (h : p.Paired Q q) (htable : table.Twin table') (log : List Event) :
    Alike (Halt.Paired Q) Eq (p.generate table log) (q.generate table' log) := by
  rw [Bundle.generate,Bundle.generate,htable.contains_eq,h.entry]
  cases table'.contains mainRoutine with
  | false => exact .error ⟨.program _, rfl⟩
  | true => exact (generateDecls_alike htable h.decls log).bind fun g g' hg => .ok (by rw [hg])

theorem Attempt.generate_alike {a b : Attempt Bundle} (hlog : a.log = b.log)
    (h : Alike (CompileError.Paired Q) (Bundle.Paired Q) a.outcome b.outcome) :
    Alike (CompileError.Paired Q) Eq a.generate.outcome b.generate.outcome := by
  obtain ⟨_,log,_⟩ := a
  obtain ⟨_,log',_⟩ := b
  obtain rfl : log = log' := hlog
  cases h with
  | error herror => exact .error herror
  | @ok p q hpq =>
    have hsignatures := hpq.signatures
    simp only [Attempt.generate]
    generalize p.signatures = x, q.signatures = y at hsignatures
    cases hsignatures with
    | error herror => exact .error herror
    | @ok table table' htable =>
      have hrun := hpq.generate htable log
      simp only
      generalize p.generate table log = x, q.generate table' log = y at hrun
      cases hrun with
      | error herror => exact .error herror.error
      | ok hxy => exact .ok (congrArg Prod.fst hxy)

end Generation

end Polled
