import Polled.Proofs.Straight

/-!
Expressions are straight work.

A call is its arguments, the operation, and the names that take its results.
-/

namespace Polled

open Lower List

variable {function : String} {results rs H G P : List Register} {position floor : Nat}
  {passed : List Passed}
variable {d d' : Draft} {f : Frame} {sig : Signature} {kinds : List Kind} {op : Op}
  {ps : List (Register × Bool)}
variable {T : List Op} {strict : Prop} {k : Kind} {y : Located String}

theorem rebindThreads_cons {p : Passed} (h : rebindThreads function results position (p :: passed) d =
    .ok ((), d')) :
    ∃ e, rebindThreads function results (position + 1) passed e = .ok ((), d') ∧
      (p.thread = none ∧ e = d ∨ ∃ x r, p.thread = some (x, d.registers.kind r) ∧
        results[position]? = some r ∧ e = d.giveName x.node r) := by
  rw [rebindThreads] at h
  cases hp : p.thread with
  | none =>
    rw [hp] at h
    exact ⟨d, h, .inl ⟨rfl, rfl⟩⟩
  | some xk =>
    rw [hp] at h
    cases hresult : results[position]? with
    | none => simp [hresult,bind_eq_ok,refuse_eq_ok] at h
    | some r =>
      simp only [hresult,bind_eq_ok,kindOf_eq_ok,ensure_eq_ok,bindName_eq_ok] at h
      obtain ⟨_,_,⟨rfl,rfl⟩,_,_,⟨hagree,rfl⟩,_,_,rfl,h⟩ := h
      exact ⟨_, h, .inr ⟨xk.1, r, by rw [(Kind.agree_eq_ok_iff _ _).1 hagree], rfl, rfl⟩⟩

section

variable (h : rebindThreads function results position passed d = .ok ((), d'))

include h

theorem rebindThreads_eq_ok : ∃ scope, d' = { d with scope } := by
  induction passed generalizing position d with
  | nil => exact ⟨_, ((pure_eq_ok _ _).1 h).2⟩
  | cons p passed ih =>
    obtain ⟨e,hrest,⟨-,rfl⟩ | ⟨x,r,-,-,rfl⟩⟩ := rebindThreads_cons h
    · exact ih hrest
    · exact @ih _ (d.giveName x.node r) hrest

theorem get?_of_rebindThreads {x : String} {t : Register} (hsorted : d.scope.Sorted)
    (hthreads : ∀ p ∈ passed, ∀ y k, p.thread = some (y, k) → y.node ≠ x)
    (hresults : ∀ i r, position ≤ i → results[i]? = some r →
      d.registers.resolve t ≠ d.registers.resolve r)
    (hx : d.scope.get? x = some t) : d'.scope.get? x = some t := by
  induction passed generalizing position d with
  | nil =>
    obtain ⟨-,rfl⟩ := (pure_eq_ok _ _).1 h
    exact hx
  | cons p passed ih =>
    obtain ⟨hp,hthreads⟩ := forall_mem_cons.1 hthreads
    obtain ⟨e,hrest,⟨-,rfl⟩ | ⟨y,r,hy,hresult,rfl⟩⟩ := rebindThreads_cons h
    · exact ih hrest hsorted hthreads (fun i r hi => hresults i r (Nat.le_of_lt hi)) hx
    · refine ih hrest (Draft.sorted_giveName hsorted _) hthreads
        (fun i r hi => hresults i r (Nat.le_of_lt hi)) ?_
      refine (Draft.get?_giveName hsorted).2 (.inr ⟨fun heq => hp y _ hy heq.symm, hx, fun _ => ?_⟩)
      exact hresults position r le_rfl hresult

/-- What `rebindThreads` has done to a draft. -/
structure Rebound (d d' : Draft) (results : List Register) (position : Nat) (passed : List Passed) :
    Prop where
  draft : ∃ scope, d' = { d with scope }
  sorted : d'.scope.Sorted
  scope : ∀ x r, d'.scope.get? x = some r →
    (d.scope.get? x = some r ∧ ∀ p ∈ passed, ∀ y k, p.thread = some (y, k) → y.node ≠ x) ∨
      ∃ i p y k, passed[i]? = some p ∧ p.thread = some (y, k) ∧ y.node = x ∧
        results[position + i]? = some r ∧ d.registers.kind r = k
  steps : ∀ {callees : Callees} {strict : Prop} {floor : Nat} {T : List Op} {H P : List Register},
    (∀ r ∈ results, r ∈ H) → Passage.Steps callees strict floor (d.along T H P) (d'.along T H P)

theorem rebound_of_rebindThreads (hd : d.Valid)
    (hbound : ∀ r ∈ results, r < d.size) : Rebound d d' results position passed := by
  induction passed generalizing position d with
  | nil =>
    obtain ⟨-,rfl⟩ := (pure_eq_ok _ _).1 h
    exact ⟨⟨_, rfl⟩, hd.sorted, fun x r hx => .inl ⟨hx, by simp⟩, fun _ => .refl⟩
  | cons p passed ih =>
    have hlater : ∀ {e : Draft}, Rebound e d' results (position + 1) passed → e.registers = d.registers →
        ∀ x r, d'.scope.get? x = some r →
          (e.scope.get? x = some r ∧ ∀ p ∈ passed, ∀ y k, p.thread = some (y, k) → y.node ≠ x) ∨
            ∃ i q y k, (p :: passed)[i]? = some q ∧ q.thread = some (y, k) ∧ y.node = x ∧
              results[position + i]? = some r ∧ d.registers.kind r = k := by
      intro e hre he x r hx
      rcases hre.scope x r hx with hx | ⟨i,q,y,k,hq,hy,hyx,hr,hk⟩
      · exact .inl hx
      · refine .inr ⟨i + 1, q, y, k, by simpa using hq, hy, hyx, ?_, by rw [← he]; exact hk⟩
        rw [← hr]
        congr 1
        omega
    obtain ⟨e,hrest,⟨hp,rfl⟩ | ⟨y,r,hp,hresult,rfl⟩⟩ := rebindThreads_cons h
    · have hre := ih hrest hd hbound
      refine ⟨hre.draft, hre.sorted, fun x r hx => ?_, hre.steps⟩
      rcases hlater hre rfl x r hx with ⟨hx,hne⟩ | hx
      · exact .inl ⟨hx, forall_mem_cons.2 ⟨fun y k hy => by simp [hp] at hy, hne⟩⟩
      · exact .inr hx
    · have hmem : r ∈ results := mem_of_getElem? hresult
      have hre := ih hrest (hd.giveName y.node (hbound r hmem)) hbound
      refine ⟨rebindThreads_eq_ok h, hre.sorted, fun x t hx => ?_, fun hH => ?_⟩
      · rcases hlater hre rfl x t hx with ⟨hx,hne⟩ | hx
        · rcases (Draft.get?_giveName hd.sorted).1 hx with ⟨rfl,rfl⟩ | ⟨hxne,hx,-⟩
          · exact .inr ⟨0, p, y, _, rfl, hp, rfl, hresult, rfl⟩
          · refine .inl ⟨hx, forall_mem_cons.2 ⟨fun z k hz heq => hxne ?_, hne⟩⟩
            obtain rfl := (Prod.mk.inj (Option.some.inj (hp.symm.trans hz))).1
            exact heq.symm
        · exact .inr hx
      · exact (Draft.steps_giveName hd (hH r hmem)).trans (hre.steps hH)

end

/-- A call, in place or of a child. -/
def IsCall (op : Op) (callee : String) (args results : List Register) : Prop :=
  (∃ done, op = .callSync callee args results done) ∨
    ∃ slot done, op = .callAsync callee args results slot done

/-- The operation that calls a function. -/
def Signature.call (sig : Signature) (args results : List Register) (slot : ChildSlot)
    (done : Option Condition) : Op :=
  if sig.isSync then .callSync sig.name args results done else .callAsync sig.name args results slot done

theorem Signature.isCall (sig : Signature) (args results : List Register) (slot : ChildSlot)
    (done : Option Condition) :
    IsCall (sig.call args results slot done) sig.name args results := by
  unfold call
  split
  · exact .inl ⟨done, rfl⟩
  · exact .inr ⟨slot, done, rfl⟩

theorem callWith_eq_ok (h : callWith f sig passed d = .ok (rs, d')) : ∃ slot done control log,
      (sig.returns = [] ∧ done = some d.count ∧ control.conditionCount = d.count + 1 ∨
        sig.returns ≠ [] ∧ done = none ∧ control.conditionCount = d.count) ∧
      rebindThreads sig.name (List.range' d.size sig.returns.length) 0 passed
        { d.reserveAll sig.returns with
          control, log,
          ops := d.ops ++ [⟨d.current, sig.call (passed.map (·.register))
            (List.range' d.size sig.returns.length) slot done⟩] } = .ok ((), d') ∧
      rs = leftOver (List.range' d.size sig.returns.length) passed := by
  obtain ⟨_,hres,-⟩ := d.exists_reserveAll sig.returns
  simp only [callWith,bind_eq_ok,allocAll_eq_ok,note_eq_ok] at h
  obtain ⟨_,_,⟨rfl,rfl⟩,done,e,hdone,_,_,rfl,h⟩ := h
  have hflag : ∃ control, e = { d.reserveAll sig.returns with control } ∧
      (sig.returns = [] ∧ done = some d.count ∧
          control.conditionCount = d.count + 1 ∨
        sig.returns ≠ [] ∧ done = none ∧ control.conditionCount = d.count) := by
    rw [hres] at hdone ⊢
    obtain ⟨control,rfl,hflag⟩ := doneFlag_eq_ok hdone
    exact ⟨control, rfl, by simpa using hflag⟩
  obtain ⟨control,rfl,hcount⟩ := hflag
  rw [hres] at h ⊢
  cases hs : sig.isSync with
  | true =>
    simp only [Signature.strategy,hs,if_true,bind_eq_ok,push_eq_ok,pure_eq_ok] at h
    obtain ⟨_,_,rfl,_,_,hre,rfl,rfl⟩ := h
    exact ⟨0, done, control, _, hcount, by rw [Signature.call,if_pos hs]; exact hre, rfl⟩
  | false =>
    simp only [Signature.strategy,hs,Bool.false_eq_true,if_false,bind_eq_ok,newChild_eq_ok,push_eq_ok,
      pure_eq_ok] at h
    obtain ⟨_,_,⟨rfl,rfl⟩,_,_,rfl,_,_,hre,rfl,rfl⟩ := h
    exact ⟨_, done, (control.newChild sig.name).2, _,
      hcount, by rw [Signature.call,if_neg (by simp [hs])]; exact hre, rfl⟩

theorem mem_leftOver {r : Register} (h : r ∈ leftOver results passed) :
    ∃ i : Nat, results[i]? = some r ∧ ∀ p : Passed, passed[i]? = some p → p.thread = none := by
  induction results generalizing passed with
  | nil => simp [leftOver] at h
  | cons s results ih =>
    cases passed with
    | nil =>
      obtain ⟨i,hi⟩ := mem_iff_getElem?.1 h
      exact ⟨i, hi, fun _ hp => by simp at hp⟩
    | cons p passed =>
      unfold leftOver at h
      have htail : r ∈ leftOver results passed →
          ∃ i : Nat, (s :: results)[i]? = some r ∧
            ∀ q : Passed, (p :: passed)[i]? = some q → q.thread = none := by
        intro hr
        obtain ⟨i,hi,hq⟩ := ih hr
        exact ⟨i + 1, by simpa using hi, by simpa using hq⟩
      split at h
      · exact htail h
      · rename_i hp
        rcases mem_cons.1 h with rfl | h
        · exact ⟨0, rfl, by simpa using hp⟩
        · exact htail h

namespace IsCall

variable {callee : String} {args : List Register} (h : IsCall op callee args results)

include h

theorem plain : op.Inline := by
  rcases h with ⟨_,rfl⟩ | ⟨_,_,rfl⟩ <;> exact ⟨rfl, rfl⟩

theorem frees : op.frees = [] := by
  rcases h with ⟨_,rfl⟩ | ⟨_,_,rfl⟩ <;> rfl

theorem reads : op.reads = args := by
  rcases h with ⟨_,rfl⟩ | ⟨_,_,rfl⟩ <;> rfl

theorem provides : op.provides = results := by
  rcases h with ⟨_,rfl⟩ | ⟨_,_,rfl⟩ <;> rfl

theorem passes {callees : Callees} (hkinds : callees callee = some kinds) :
    op.passes callees = (args.zip kinds).map fun (r, k) => (r, !k.borrowed) := by
  rcases h with ⟨_,rfl⟩ | ⟨_,_,rfl⟩ <;> simp [Op.passes,hkinds]

end IsCall

/-- The draft right behind a call, before threaded variables take its results. -/
structure Draft.AtCall (sig : Signature) (passed : List Passed) (results : List Register) (op : Op)
    (e mid d' : Draft) : Prop where
  draft : ∃ registers control log, mid =
    { e with registers, control, log, ops := e.ops ++ [⟨e.current, op⟩] }
  call : ∃ slot done, op = sig.call (passed.map (·.register)) results slot done ∧
    (sig.returns = [] ∧ done = some e.control.conditionCount ∧
        mid.control.conditionCount = e.control.conditionCount + 1 ∨
      sig.returns ≠ [] ∧ done = none ∧ mid.control.conditionCount = e.control.conditionCount)
  results_eq : results = List.range' e.registers.size sig.returns.length
  reserves : ∀ callees, Straight callees e { e with registers := mid.registers } results []
    (fun _ => True) [] []
  valid : mid.Valid
  size_eq : mid.registers.size = e.registers.size + sig.returns.length
  resolve_eq : mid.registers.resolve = e.registers.resolve
  kinds : results.map mid.registers.kind = sig.returns
  live : ∀ r ∈ results, mid.registers.isLive r = true
  rebinds : rebindThreads sig.name results 0 passed mid = .ok ((), d')
  rebound : Rebound mid d' results 0 passed

theorem callWith_spec {e : Draft} (he : e.Valid) (h : callWith f sig passed e = .ok (rs, d')) :
    ∃ results op mid, Draft.AtCall sig passed results op e mid d' ∧ rs = leftOver results passed := by
  obtain ⟨slot,done,control,log,hflag,hre,rfl⟩ := callWith_eq_ok h
  obtain ⟨registers,heq,hroot⟩ := e.exists_reserveAll sig.returns
  have hres : ∀ callees, Draft.Straight callees e (e.reserveAll sig.returns) _ [] _ [] [] :=
    fun _ => .reserveAll he sig.returns
  have hkinds := e.kinds_reserveAll sig.returns
  have hlive := fun r => @Draft.isLive_reserveAll r e sig.returns
  have hsize := @Draft.size_reserveAll e sig.returns
  rw [heq] at hre hres hkinds hlive hsize
  have hvalid := (hres fun _ => none).valid he
  have hbound := fun r => @Draft.Straight.lt_size _ _ _ _ _ _ _ _ r (hres fun _ => none) he
  exact ⟨_, _, _, {
    draft := ⟨registers, control, log, rfl⟩
    call := ⟨slot, done, rfl, hflag⟩
    results_eq := rfl
    reserves := hres
    valid := ⟨hvalid.sound, hvalid.sorted⟩
    size_eq := hsize
    resolve_eq := hroot
    kinds := hkinds
    live := hlive
    rebinds := hre
    rebound := rebound_of_rebindThreads hre ⟨hvalid.sound, hvalid.sorted⟩ hbound }, rfl⟩

namespace Draft.AtCall

variable {sig : Signature} {passed : List Passed} {results : List Register} {op : Op} {e mid d' : Draft}
  {r : Register}
variable (h : AtCall sig passed results op e mid d')

include h

theorem isCall : IsCall op sig.name (passed.map (·.register)) results := by
  obtain ⟨slot,done,rfl,-⟩ := h.call
  exact sig.isCall _ _ slot done

theorem size_le (hr : r ∈ results) : e.size ≤ r := (mem_range'_1.1 (h.results_eq ▸ hr)).1

theorem lt_size (hr : r ∈ results) : r < mid.registers.size :=
  h.size_eq ▸ (mem_range'_1.1 (h.results_eq ▸ hr)).2

theorem nodup : results.Nodup := h.results_eq ▸ nodup_range'

theorem count_le : e.control.conditionCount ≤ mid.control.conditionCount := by
  obtain ⟨_,_,-,⟨-,-,hcount⟩ | ⟨-,-,_⟩⟩ := h.call <;> omega

theorem resolve_self (hr : r ∈ results) : mid.registers.resolve r = r := by
  rw [h.resolve_eq,e.registers.resolve_of_size_le (h.size_le hr)]

end Draft.AtCall

namespace Draft

variable {callees : Callees} {d d' : Draft}

/-- An operation takes what was given up for it, looks at what is held, and makes its results ready. -/
theorem step_pass (hend : op.endsActivation = false) (hfrees : op.frees = [])
    (hpasses : op.passes callees = ps) (hreads : ps.map (·.1) = op.reads)
    (hlent : ∀ r ∈ d.registers.lent ps, r ∈ H) (hgiven : d.registers.given ps = G)
    (hresults : ∀ r ∈ op.provides, r ∈ H ∧ d.registers.isLive r = true) :
    Passage.Step callees strict floor (d.along T H (G ++ P)) (d.along (T ++ [op]) H P) := by
  refine .emit hend hfrees (hpasses ▸ hreads) ?_ ?_ ?_
  · intro p hp hng
    rw [hpasses] at hp
    refine hlent p.1 (mem_map.2 ⟨p, mem_filter.2 ⟨hp, ?_⟩, rfl⟩)
    simp only [Bool.not_eq_true',Bool.and_eq_false_iff]
    by_cases hown : p.2 = true
    · exact .inr (Bool.eq_false_iff.2 fun hheap => hng ⟨hown, hheap⟩)
    · exact .inl (Bool.eq_false_iff.2 hown)
  · rw [hpasses,← hgiven]
    rfl
  · exact fun r hr => ⟨(hresults r hr).1, fun hheap => ⟨(hresults r hr).2, hheap⟩⟩

theorem step_call {callee : String} {args : List Register} (hop : IsCall op callee args results)
    (hkinds : callees callee = some kinds)
    (hps : (args.zip kinds).map (fun (r, k) => (r, !k.borrowed)) = ps)
    (hlen : args.length = kinds.length) (hlent : ∀ r ∈ d.registers.lent ps, r ∈ H)
    (hgiven : d.registers.given ps = G) (hresults : ∀ r ∈ results, r ∈ H ∧ d.registers.isLive r = true) :
    Passage.Step callees strict floor (d.along T H (G ++ P)) (d.along (T ++ [op]) H P) := by
  refine step_pass hop.plain.2 hop.frees ((hop.passes hkinds).trans hps) ?_ hlent hgiven
    fun r hr => hresults r (hop.provides ▸ hr)
  rw [hop.reads,← hps,map_map]
  exact map_fst_zip hlen.le

theorem Straight.call {f : Frame} {table : SignatureTable} {sig : Signature} {args : List Arg}
    {passed : List Passed} {rs : List Register} {e : Draft} (hd : d.Valid)
    (hkinds : callees sig.name = some (sig.params.map (·.2)))
    (hargs : Arguments callees table d e sig.params args passed)
    (h : callWith f sig passed e = .ok (rs, d')) :
    (∃ ops, Straight callees d d' rs [] (fun xs => apartArgs table xs sig.params args = true)
        (rebindsOfArgs args) ops) ∧ ∀ r ∈ rs, d.size ≤ r ∧ ¬d'.Named r := by
  obtain ⟨ops,hstraight⟩ := hargs.straight
  have he := hstraight.valid hd
  obtain ⟨results,op,mid,hcall,rfl⟩ := callWith_spec he h
  have hop := hcall.isCall
  have hres := hcall.reserves callees
  have hreb := hcall.rebound
  have hnew : ∀ r ∈ results, e.size ≤ r := fun r => hcall.size_le
  have hself : ∀ r ∈ results, mid.registers.resolve r = r := fun r => hcall.resolve_self
  have hlive := hcall.live
  have hcount := hcall.count_le
  obtain ⟨registers,control,log,rfl⟩ := hcall.draft
  have hboth := hstraight.seq hres hd (fun _ => e.scope.names) fun _ _ _ _ _ _ _ x r hx _ =>
    (he.sorted.mem_names x).2 ⟨r, hx⟩
  have he' := hres.valid he
  have hfresh : ∀ r ∈ results, d.size ≤ r := fun r hr =>
    hstraight.extend.grows.size_le.trans (hnew r hr)
  obtain ⟨scope,rfl⟩ := hreb.draft
  have hscope : ∀ x r, scope.get? x = some r →
      (e.scope.get? x = some r ∧ ∀ p ∈ passed, ∀ y k, p.thread = some (y, k) → y.node ≠ x) ∨
        r ∈ results ∧ ∃ t, d.scope.get? x = some t ∧ registers.kind r = d.registers.kind t := by
    intro x r hx
    rcases hreb.scope x r hx with hx | ⟨i,p,y,k,hp,hy,rfl,hr,hk⟩
    · exact .inl hx
    · obtain ⟨t,ht,hkt⟩ := hargs.threads p (mem_of_getElem? hp) y k hy
      exact .inr ⟨mem_of_getElem? hr, t, ht, hk.trans hkt⟩
  have hmem : ∀ r ∈ leftOver results passed, r ∈ results := by
    intro r hr
    obtain ⟨i,hi,-⟩ := mem_leftOver hr
    exact mem_of_getElem? hi
  refine ⟨⟨ops ++ [op], ?_⟩, ?_⟩
  · constructor
    · refine Extends.rescope ?_ hreb.sorted ?_
      · have hemit := hboth.extend.trans (extends_emit he' op (.inl rfl))
        have hlogged : Draft.Extends (({ e with registers } : Draft).emit e.current op)
            { e with registers, control, log, ops := e.ops ++ [⟨e.current, op⟩] } [] :=
          .of_registers_scope he'.sound.wf he'.sorted rfl rfl rfl rfl hcount le_rfl prefix_rfl
        simpa [hstraight.extend.current] using hemit.trans hlogged
      · intro x r hx
        rcases hscope x r hx with ⟨hx,-⟩ | ⟨hr,-⟩
        · exact hstraight.extend.origin x r hx
        · exact .inl (hfresh r hr)
    · intro o ho
      rcases mem_append.1 ho with ho | ho
      · exact hstraight.plain o ho
      · rw [mem_singleton.1 ho]
        exact hop.plain
    · refine ⟨fun x r hx => ?_, hboth.quiet.live⟩
      rcases hscope x r hx with ⟨hx,-⟩ | ⟨hr,t,ht,hk⟩
      · exact hboth.quiet.keeps x r hx
      · exact ⟨t, ht, hk, .inr (hfresh r hr)⟩
    · exact fun r hr => .inl (hfresh r (hmem r hr))
    · intro x hx r hr
      rcases hscope x r hr with ⟨hr,hne⟩ | ⟨hr,-⟩
      · rcases hargs.names x hx with hx | ⟨p,hp,y,k,hy,hyx⟩
        · exact hstraight.rebinds x hx r hr
        · exact absurd hyx (hne p hp y k hy)
      · exact hfresh r hr
    · intro strict floor T H P xs hH hstrict
      have hkind : ∀ p ∈ operands passed sig.params, registers.kind p.1 = e.registers.kind p.1 := by
        intro p hp
        refine hres.extend.grows.kind_old p.1 ?_
        rcases e.registers.mem_lent_or_given hp with hp | hp
        · exact (hstraight.sound hd).lt_of_held hp
        · exact (hstraight.sound hd).lt_of_pending hp
      have hargs' := hboth.steps strict floor T H P xs hH
        fun hs => ⟨(hstrict hs).1, (hstrict hs).2, trivial⟩
      have hcall : Passage.Step callees strict floor
          (({ e with registers } : Draft).along (T ++ ops)
            (e.registers.lent (operands passed sig.params) ++ results ++ H)
            (e.registers.given (operands passed sig.params) ++ P))
          (({ e with registers } : Draft).along (T ++ ops ++ [op])
            (e.registers.lent (operands passed sig.params) ++ results ++ H) P) := by
        refine step_call hop hkinds rfl (by simpa using hargs.fits.1) ?_ (Registers.given_congr hkind) ?_
        · intro r hr
          have hr : r ∈ e.registers.lent (operands passed sig.params) := Registers.lent_congr hkind ▸ hr
          exact mem_append_left _ (mem_append_left _ hr)
        · exact fun r hr => ⟨mem_append_left _ (mem_append_right _ hr), hlive r hr⟩
      have hnames := @hreb.steps callees strict floor (T ++ ops ++ [op])
        (e.registers.lent (operands passed sig.params) ++ results ++ H) P
        fun r hr => mem_append_left _ (mem_append_right _ hr)
      rw [append_nil,append_nil] at hargs'
      rw [← append_assoc]
      refine ((hargs'.tail hcall).trans hnames).tail (step_drop ?_)
      intro r hr
      rcases mem_append.1 hr with hr | hr
      · exact mem_append_left _ (mem_append_right _ (hmem r hr))
      · exact mem_append_right _ hr
  · intro r hr
    refine ⟨hfresh r (hmem r hr), ?_⟩
    obtain ⟨i,hi,hthread⟩ := mem_leftOver hr
    rintro ⟨x,t,hx,htr⟩
    have htr : registers.resolve t = registers.resolve r := htr
    rw [hself r (hmem r hr)] at htr
    rcases hreb.scope x t hx with ⟨hx,-⟩ | ⟨j,p,y,k,hp,hy,-,hj,-⟩
    · have hlt : t < e.size := he.sound.lt_of_scope hx
      have hle : registers.resolve t ≤ t := he'.sound.wf.root_le t
      rw [htr] at hle
      exact absurd (hle.trans_lt hlt) (not_lt.2 (hnew r (hmem r hr)))
    · rw [hself t (mem_of_getElem? hj)] at htr
      subst htr
      obtain rfl : 0 + j = i := (List.getElem?_inj (List.getElem?_eq_some_iff.1 hj).1 hcall.nodup).1
        (hj.trans hi.symm)
      rw [Nat.zero_add] at hthread
      simp [hthread p hp] at hy

end Draft

/-- The callees are those of the table, at least. -/
def Callees.Cover (callees : Callees) (table : SignatureTable) : Prop :=
  ∀ name sig, table.lookup? name = some sig → callees sig.name = some (sig.params.map (·.2))

/-- Calls look at the parameters of a callee in the table. -/
def SignatureTable.callees (table : SignatureTable) : Callees := fun name =>
  (table.lookup? name).map fun sig => sig.params.map (·.2)

theorem SignatureTable.callees_cover (table : SignatureTable) : table.callees.Cover table := by
  intro name sig hsig
  have hname : sig.name = name := by simpa using find?_some hsig
  rw [callees,hname,hsig]
  rfl

theorem calleeOf_eq_ok {callee : Located String} {count : Nat} {span : Span}
    (h : calleeOf f callee count span d = .ok (sig, d')) :
    f.table.lookup? callee.node = some sig ∧ count = sig.params.length ∧ d' = d := by
  simp only [calleeOf] at h
  cases hlookup : f.table.lookup? callee.node with
  | none => simp [hlookup,refuse_eq_ok] at h
  | some found =>
    simp only [hlookup,unless_eq_ok,pure_eq_ok] at h
    obtain ⟨hcount,rfl,rfl⟩ := h
    exact ⟨rfl, not_not.1 hcount, rfl⟩

/-- The parts that an expression is made of. -/
inductive Phrase where
  | value (e : Expr)
  | items (es : List Expr)
  | arg (arg : Arg) (thread : Option (Located String × Kind))
  | args (params : List (String × Kind)) (args : List Arg) (passed : List Passed)

/-- The lowering of an expression as a derivation, with one rule for each of its parts. -/
inductive Phrase.Lowers (f : Frame) : Phrase → Draft → List Register → Draft → Prop
  | name {span : Span} {x : String} {d : Draft} {r : Register} (hx : d.scope.get? x = some r) :
    Phrase.Lowers f (.value (.name span x)) d [r] d
  | truth {span : Span} {value : Bool} {d : Draft} :
    Phrase.Lowers f (.value (.truth span value)) d [d.registers.size]
      ((d.reserve (.owned .boolean)).emit d.current
        (.loadInteger d.registers.size (if value then 1 else 0)))
  | integer {span : Span} {value : Nat} {d : Draft} :
    Phrase.Lowers f (.value (.integer span value)) d [d.registers.size]
      ((d.reserve (.owned .integer)).emit d.current (.loadInteger d.registers.size value))
  | text {span : Span} {value : String} {d : Draft} :
    Phrase.Lowers f (.value (.text span value)) d [d.registers.size]
      ((d.reserve (.lent .string)).emit d.current (.loadString d.registers.size value))
  | tuple {span : Span} {items : List Expr} {d d' : Draft} {rs : List Register}
      (h : Phrase.Lowers f (.items items) d rs d') :
    Phrase.Lowers f (.value (.tuple span items)) d rs d'
  | call {span : Span} {callee : Located String} {args : List Arg} {sig : Signature}
      {passed : List Passed}
      {d e d' : Draft} {rs : List Register} (hlookup : f.table.lookup? callee.node = some sig)
      (hargs : Phrase.Lowers f (.args sig.params args passed) d (passed.map (·.register)) e)
      (hcall : callWith f sig passed e = .ok (rs, d')) :
        Phrase.Lowers f (.value (.call span callee args)) d rs d'
  | compare {span : Span} {op : Comparison} {lhs rhs : Expr} {d e e' : Draft} {l r : Register}
      (hl : Phrase.Lowers f (.value lhs) d [l] e) (hr : Phrase.Lowers f (.value rhs) e [r] e')
      (hlk : (e'.registers.kind l).convert (.lent .integer) = .ok ())
      (hrk : (e'.registers.kind r).convert (.lent .integer) = .ok ()) :
    Phrase.Lowers f (.value (.compare span op lhs rhs)) d [e'.registers.size]
      ((e'.reserve (.owned .boolean)).emit e'.current (.compare op l r e'.registers.size))
  | nil {d : Draft} : Phrase.Lowers f (.items []) d [] d
  | cons {e : Expr} {es : List Expr} {d d₁ d' : Draft} {r : Register} {rs : List Register}
      (he : Phrase.Lowers f (.value e) d [r] d₁) (hes : Phrase.Lowers f (.items es) d₁ rs d') :
    Phrase.Lowers f (.items (e :: es)) d (r :: rs) d'
  | thread {x : Located String} {d : Draft} {r : Register} (hx : d.scope.get? x.node = some r) :
    Phrase.Lowers f (.arg (.thread x) (some (x, d.registers.kind r))) d [r] d
  | pass {v : Expr} {d d' : Draft} {r : Register} (hv : Phrase.Lowers f (.value v) d [r] d') :
    Phrase.Lowers f (.arg (.value v) none) d [r] d'
  | done {d : Draft} : Phrase.Lowers f (.args [] [] []) d [] d
  | next {param : String × Kind} {params : List (String × Kind)} {arg : Arg} {args : List Arg}
      {thread : Option (Located String × Kind)} {passed : List Passed} {d e e' d' : Draft} {r : Register}
      {rs : List Register} (harg : Phrase.Lowers f (.arg arg thread) d [r] e)
      (hconv : (e.registers.kind r).convert param.2 = .ok ())
        (hpass : e' = if param.2.borrowed then e else e.handOver r)
      (hrest : Phrase.Lowers f (.args params args passed) e' rs d') :
    Phrase.Lowers f (.args (param :: params) (arg :: args) (⟨r, thread⟩ :: passed)) d (r :: rs) d'

mutual
theorem Expr.lowers {f : Frame} :
    (e : Expr) → {d d' : Draft} → {rs : List Register} → e.lower f d = .ok (rs, d') →
    Phrase.Lowers f (.value e) d rs d'
  | .name _ _, d, d', rs, h => by
    simp only [Expr.lower,bind_eq_ok,read_eq_ok,pure_eq_ok] at h
    obtain ⟨r,_,⟨hx,rfl⟩,rfl,rfl⟩ := h
    exact .name hx
  | .truth _ _, d, d', rs, h => by
    simp only [Expr.lower,bind_eq_ok,alloc_eq_ok,push_eq_ok,pure_eq_ok] at h
    obtain ⟨_,_,⟨rfl,rfl⟩,_,_,rfl,rfl,rfl⟩ := h
    exact .truth
  | .integer _ _, d, d', rs, h => by
    simp only [Expr.lower,bind_eq_ok,alloc_eq_ok,push_eq_ok,pure_eq_ok] at h
    obtain ⟨_,_,⟨rfl,rfl⟩,_,_,rfl,rfl,rfl⟩ := h
    exact .integer
  | .text _ _, d, d', rs, h => by
    simp only [Expr.lower,bind_eq_ok,alloc_eq_ok,push_eq_ok,pure_eq_ok] at h
    obtain ⟨_,_,⟨rfl,rfl⟩,_,_,rfl,rfl,rfl⟩ := h
    exact .text
  | .tuple _ items, d, d', rs, h => .tuple (Expr.lowers_items items h)
  | .call _ callee args, d, d', rs, h => by
    simp only [Expr.lower,bind_eq_ok] at h
    obtain ⟨sig,e,hsig,_,e',hargs,hcall⟩ := h
    obtain ⟨hlookup,hlen,rfl⟩ := calleeOf_eq_ok hsig
    exact .call hlookup (Arg.lowers sig.params args hlen hargs) hcall
  | .compare _ op lhs rhs, d, d', rs, h => by
    simp only [Expr.lower,bind_eq_ok,single_eq_ok,kindOf_eq_ok,ensure_eq_ok,alloc_eq_ok,push_eq_ok,
      pure_eq_ok] at h
    obtain ⟨l,e,hl,r,_,hr,_,_,⟨rfl,rfl⟩,_,_,⟨hlk,rfl⟩,_,_,⟨rfl,rfl⟩,_,_,⟨hrk,rfl⟩,_,_,
      ⟨rfl,rfl⟩,_,_,rfl,rfl,rfl⟩ := h
    exact .compare (Expr.lowers lhs hl) (Expr.lowers rhs hr) hlk hrk

theorem Expr.lowers_items {f : Frame} : (es : List Expr) → {d d' : Draft} → {rs : List Register} →
    Expr.lowerItems f es d = .ok (rs, d') → Phrase.Lowers f (.items es) d rs d'
  | [], d, d', rs, h => by
    obtain ⟨rfl,rfl⟩ := (pure_eq_ok _ _).1 h
    exact .nil
  | e :: es, d, d', rs, h => by
    simp only [Expr.lowerItems,bind_eq_ok,single_eq_ok,pure_eq_ok] at h
    obtain ⟨r,_,he,_,_,hes,rfl,rfl⟩ := h
    exact .cons (Expr.lowers e he) (Expr.lowers_items es hes)

theorem Arg.lowers {f : Frame} :
    (params : List (String × Kind)) → (args : List Arg) → {function : String} →
    {d d' : Draft} → {passed : List Passed} → args.length = params.length →
    Arg.lowerAll f function params args d = .ok (passed, d') →
    Phrase.Lowers f (.args params args passed) d (passed.map (·.register)) d'
  | [], [], _, d, d', passed, _, h => by
    obtain ⟨rfl,rfl⟩ := (pure_eq_ok _ _).1 h
    exact .done
  | param :: params, .thread x :: args, _, d, d', passed, hlen, h => by
    simp only [Arg.lowerAll,bind_eq_ok,read_eq_ok,kindOf_eq_ok,passTo_eq_ok,pure_eq_ok] at h
    obtain ⟨r,_,⟨hx,rfl⟩,_,_,⟨rfl,rfl⟩,_,_,⟨hconv,rfl⟩,_,_,hrest,rfl,rfl⟩ := h
    exact .next (.thread hx) hconv rfl (Arg.lowers params args (by simpa using hlen) hrest)
  | param :: params, .value v :: args, _, d, d', passed, hlen, h => by
    simp only [Arg.lowerAll,bind_eq_ok,single_eq_ok,passTo_eq_ok,pure_eq_ok] at h
    obtain ⟨r,_,hv,_,_,⟨hconv,rfl⟩,_,_,hrest,rfl,rfl⟩ := h
    exact .next (.pass (Expr.lowers v hv)) hconv rfl (Arg.lowers params args (by simpa using hlen) hrest)
end

theorem straight_load {callees : Callees} (hd : d.Valid) (hd' : d' = (d.reserve k).emit d.current op)
    (hk : k.ownsHeap = false) (hplain : op.Inline) (hfrees : op.frees = [])
    (hpasses : op.passes callees = op.reads.map fun r => (r, false)) (hreads : op.reads = [])
    (hprovides : op.provides = [d.size]) (handed : List String) :
    (∃ ops, Draft.Straight callees d d' [d.size] [] (fun _ => true = true) [] ops) ∧
      ∀ r, [d.size] = [r] → d.Handed d' r handed := by
  subst hd'
  refine ⟨⟨_, ((Draft.Straight.nil hd).produce hd k hplain hfrees hpasses (by simp [hreads])
    hprovides).weaken fun _ _ => trivial⟩, ?_⟩
  rintro _ ⟨⟩ hheap
  exact absurd hheap (d.not_heap_reserve hk)

/-- What is straight about the parts of an expression. -/
def Phrase.Straight (callees : Callees) (table : SignatureTable) (d d' : Draft)
    (rs : List Register) : Phrase → Prop
  | .value e =>
    (∃ ops, Draft.Straight callees d d' rs [] (fun xs => e.apart table xs = true) e.rebinds ops) ∧
      ∀ r, rs = [r] → d.Handed d' r e.handed
  | .items es => (∃ ops, Draft.Straight callees d d' rs [] (fun xs => apartExprs table xs es = true)
        (rebindsOfExprs es) ops) ∧ ∀ r, rs = [r] → d.Handed d' r (handedOfExprs es)
  | .arg a thread =>
    (∃ ops, Draft.Straight callees d d' rs [] (fun xs => a.apart table xs = true) a.rebinds ops) ∧
      (∀ r, rs = [r] → d.Handed d' r a.handed) ∧ a.Noted d thread
  | .args params as passed => Draft.Arguments callees table d d' params as passed

theorem Phrase.Lowers.straight {callees : Callees} {p : Phrase} (hcover : callees.Cover f.table)
    (h : Phrase.Lowers f p d rs d') (hd : d.Valid) : p.Straight callees f.table d d' rs := by
  induction h with
  | @name _ _ _ _ hx =>
    refine ⟨⟨[], (Draft.Straight.pick hd hx).weaken fun _ _ => trivial⟩, ?_⟩
    rintro _ ⟨⟩
    exact .of_scope hx
  | truth | integer | text => exact straight_load hd rfl rfl ⟨rfl, rfl⟩ rfl rfl rfl rfl []
  | tuple _ ih => exact ih hd
  | call hlookup _ hcall ih =>
    obtain ⟨⟨ops,hops⟩,hnew⟩ := Draft.Straight.call hd (hcover _ _ hlookup) (ih hd) hcall
    refine ⟨⟨ops, hops.weaken fun xs hxs => ?_⟩, ?_⟩
    · simpa [Expr.apart,hlookup] using hxs
    · rintro r rfl _
      exact .inl (hnew r (mem_singleton_self r))
  | @compare _ _ lhs _ _ e _ l _ _ _ hlk _ ihl ihr =>
    obtain ⟨⟨ops,hops⟩,-⟩ := ihl hd
    have he := hops.valid hd
    obtain ⟨⟨ops',hops'⟩,-⟩ := ihr he
    have hlheap : ¬e.registers.layout.heap l := by
      rw [Layout.heap,← hops'.extend.grows.kind_old l (hops.lt_size hd (mem_singleton_self l))]
      exact Bool.eq_false_iff.1 (Kind.not_ownsHeap_of_convert hlk (by decide) (by decide))
    have hboth := hops.seq hops' hd (fun xs => stillHeld xs lhs.rebinds) fun H xs hH hn =>
      Draft.not_heap_namedBy hlheap (hn.still hops.extend hops.quiet hd hH hops.rebinds)
    refine ⟨⟨_, (hboth.produce hd (.owned .boolean) ⟨rfl, rfl⟩ rfl rfl ?_ rfl).weaken ?_⟩, ?_⟩
    · simp [Op.reads,Op.needs]
    · intro xs hxs
      simpa [Expr.apart] using hxs
    · rintro _ ⟨⟩ hheap
      exact absurd hheap (Draft.not_heap_reserve _ rfl)
  | nil => exact ⟨⟨[], (Draft.Straight.nil hd).weaken fun _ _ => trivial⟩, by simp⟩
  | @cons e _ _ _ _ r _ _ hes ih ih' =>
    obtain ⟨⟨ops,hops⟩,hr⟩ := ih hd
    have hd₁ := hops.valid hd
    obtain ⟨⟨ops',hops'⟩,_⟩ := ih' hd₁
    refine ⟨⟨ops ++ ops',
      (hops.seq hops' hd (fun xs => e.handed ++ stillHeld xs e.rebinds) ?_).weaken ?_⟩, ?_⟩
    · intro H xs hH hn
      exact (hr r rfl).namedBy hd₁ (hn.still hops.extend hops.quiet hd hH hops.rebinds)
    · intro xs hxs
      simpa [apartExprs] using hxs
    · intro t ht
      obtain ⟨rfl,rfl⟩ := cons.inj ht
      cases hes
      exact hr r rfl
  | thread hx =>
    refine ⟨⟨[], (Draft.Straight.pick hd hx).weaken fun _ _ => trivial⟩, ?_, _, hx, rfl⟩
    rintro _ ⟨⟩
    exact .of_scope hx
  | pass _ ih =>
    obtain ⟨hops,hhanded⟩ := ih hd
    exact ⟨hops, hhanded, rfl⟩
  | done =>
    exact ⟨⟨rfl, by simp⟩, by simp, by simp, by simp [rebindsOfArgs], [],
      (Draft.Straight.nil hd).weaken fun _ _ => trivial⟩
  | next _ hconv hpass _ ih ih' =>
    obtain ⟨⟨_,hops⟩,hhanded,hnoted⟩ := ih hd
    have he := (hops.passTo hd (hhanded _ rfl) hconv hpass).1.valid hd
    exact .cons hd hops (hhanded _ rfl) hnoted hconv hpass (ih' he)

/-- How an argument was passed. -/
def Arg.PassedAs : Arg → Passed → Prop
  | .thread x, p => ∃ k, p.thread = some (x, k)
  | .value _, p => p.thread = none

section

variable {p : Phrase} {params : List (String × Kind)} {args : List Arg}

theorem Phrase.Lowers.passedAs (h : Lowers f (.args params args passed) d rs d') :
    Forall₂ Arg.PassedAs args passed ∧ rs = passed.map (·.register) := by
  generalize hp : Phrase.args params args passed = p at h
  induction h generalizing params args passed with
  | done =>
    cases hp
    exact ⟨.nil, rfl⟩
  | next harg _ _ _ _ ih =>
    cases hp
    obtain ⟨hpassed,rfl⟩ := ih rfl
    refine ⟨.cons ?_ hpassed, rfl⟩
    cases harg with
    | thread => exact ⟨_, rfl⟩
    | pass => rfl
  | _ => cases hp

theorem thread_mem_args (h : Forall₂ Arg.PassedAs args passed) {q : Passed} (hq : q ∈ passed)
    (hy : q.thread = some (y, k)) : .thread y ∈ args := by
  induction h with
  | nil => simp at hq
  | @cons arg _ _ _ hq' _ ih =>
    rcases mem_cons.1 hq with rfl | hq
    · cases arg with
      | thread x =>
        obtain ⟨_,hx⟩ := hq'
        cases hx.symm.trans hy
        exact mem_cons_self
      | value v => cases (show q.thread = none from hq').symm.trans hy
    · exact mem_cons_of_mem _ (ih hq)

theorem mem_rebindsOfArgs (h : .thread y ∈ args) : y.node ∈ rebindsOfArgs args := by
  induction args with
  | nil => cases h
  | cons arg args ih => cases arg <;> grind [rebindsOfArgs]

theorem Phrase.Lowers.spec (h : Lowers f p d rs d') (hd : d.Valid) :
    d'.Valid ∧ d.registers.layout.Grows d'.registers.layout ∧ ∀ r ∈ rs, r < d'.size := by
  have hstraight := h.straight f.table.callees_cover hd
  cases p with
  | value | items | arg =>
    obtain ⟨ops,hops⟩ := hstraight.1
    exact ⟨hops.valid hd, hops.extend.grows, fun r => hops.lt_size hd⟩
  | args =>
    obtain ⟨-,hlt,-,-,_,hops⟩ := hstraight
    exact ⟨hops.valid hd, hops.extend.grows, by simpa [h.passedAs.2] using hlt⟩

theorem Expr.straight {callees : Callees} (hcover : callees.Cover f.table) (e : Expr) (hd : d.Valid)
    (h : e.lower f d = .ok (rs, d')) :
    (∃ ops, Draft.Straight callees d d' rs [] (fun xs => e.apart f.table xs = true) e.rebinds ops) ∧
      ∀ r, rs = [r] → d.Handed d' r e.handed :=
  (e.lowers h).straight hcover hd

end

end Polled
