import Polled.Proofs.Keeping

/-!
Steps of lowering that keep a draft in order.

One lemma for each step says that it is `Safe`: the small steps on a draft, calls, expressions and
branches.
-/

namespace Polled

open Lower List

attribute [local simp] Op.mentions Op.reads Op.needs Op.provides Op.frees

variable {r : Register} {rs keep : List Register} {x function : String} {span : Span} {q : Owed}
  {c : Condition}
variable {op : Op} {flags : List Condition} {passed : List Passed} {before : Nat} {arms : Arm × Arm}
  {scope : Scope}

namespace Safe

variable {α : Type} {d : Draft} {o : Owed}

/-- A step that leaves the draft as it is, and what follows. -/
theorem still {β : Type} {w : Watch α} {l : Lower α} {P : α → Prop} {f : α → Watch β} {g : α → Lower β}
    {F : β → Draft → Prop} (h : Safe d o w l o fun a e => e = d ∧ P a)
    (h' : ∀ a, P a → Safe d o (f a) (g a) q F) :
    Safe d o (w >>= f) (l >>= g) q F :=
  h.bind fun a _ _ he => he.1 ▸ h' a he.2

section Primitive

theorem note (e : Event) : Safe d o (.plain (Lower.note e)) (Lower.note e) o fun _ _ => True :=
  plain fun hd _ _ h => by
    obtain rfl := (note_eq_ok _ _).1 h
    exact ⟨rfl, hd.relog _, List.Subset.refl _, trivial⟩

theorem ensure (outcome : Except Kind.Clash Unit) (fault : Kind.Clash → SourceFault) (span : Span) :
    Safe d o (.plain (Lower.ensure outcome fault span)) (Lower.ensure outcome fault span) o
      fun _ e => e = d ∧ outcome = .ok () :=
  plain fun hd _ _ h => by
    obtain ⟨hok,rfl⟩ := (ensure_eq_ok _ _ _ _).1 h
    exact ⟨rfl, hd, List.Subset.refl _, rfl, hok⟩

theorem alloc (k : Kind) :
    Safe d o (.alloc k) (Lower.alloc k) o fun r e => r < e.registers.size ∧ e.registers.kind r = k := by
  intro hd t ht
  refine ⟨⟨hd.reserve k, .reserve d k, ?_, ?_⟩, t.grow, rfl, ?_⟩
  · exact (Registers.size_alloc d.registers k).symm ▸ lt_add_one _
  · exact (d.registers.kind_alloc k _).trans (if_pos rfl)
  · exact (d.registers.layout_alloc k).symm ▸ ht.grow hd.wf k

theorem allocAll (ks : List Kind) :
    Safe d o (.allocAll ks) (Lower.allocAll ks) o fun rs e => ∀ r ∈ rs, r < e.size := by
  induction ks generalizing d with
  | nil => exact .pure [] (by simp)
  | cons k ks ih =>
    refine (alloc k).bind fun r e _ hr => ih.bind fun rs e' hp hrs => .pure _ ?_
    simpa using ⟨hp.lt hr.1, hrs⟩

theorem kindOf (hr : r < d.size) :
    Safe d o (.kindOf r) (Lower.kindOf r) o fun k e => e = d ∧ k = d.registers.kind r :=
  peek (fun _ => .look hr) <| plain fun hd _ _ h => by
    obtain ⟨rfl,rfl⟩ := (kindOf_eq_ok _ _).1 h
    exact ⟨rfl, hd, List.Subset.refl _, rfl, rfl⟩

theorem release (hr : r < d.size) : Safe d o (.release r) (Lower.release r) o fun _ _ => True :=
  peek (fun hd => .members hd.wf hr) <| plain fun hd _ _ h => by
    obtain rfl := (release_eq_ok _ _).1 h
    exact ⟨d.registers.layout_release r, hd.of_registers (d.registers.layout_release r),
      List.Subset.refl _, trivial⟩

theorem releaseAll (hrs : ∀ r ∈ rs, r < d.size) :
    Safe d o (.releaseAll rs) (Lower.releaseAll rs) o fun _ _ => True := by
  induction rs generalizing d with
  | nil => exact .pure () trivial
  | cons r rs ih =>
    exact (release (hrs r mem_cons_self)).bind fun _ e hp _ =>
      ih fun t ht => hp.lt (hrs t (mem_cons_of_mem _ ht))

theorem condition :
    Safe d o (.plain Lower.condition) Lower.condition (o.flag d.count) fun c _ => c = d.count :=
  plain fun hd _ _ h => by
    obtain ⟨rfl,rfl⟩ := (condition_eq_ok _).1 h
    exact ⟨rfl, hd.tick, List.Subset.refl _, rfl⟩

theorem read {fault : SourceFault} :
    Safe d o (.plain (Lower.read x fault span)) (Lower.read x fault span) o fun r e =>
      e = d ∧ r < d.size :=
  plain fun hd _ _ h => by
    obtain ⟨hx,rfl⟩ := (read_eq_ok _ _ _ _).1 h
    exact ⟨rfl, hd, List.Subset.refl _, rfl, hd.scope _ (Scope.mem_registers_of_get? hx)⟩

theorem pushUnder (hpays : o.Pays op q) (hc : Opened d.ops c) (hop : ∀ r ∈ op.mentions, r < d.size) :
    Safe d o (.plain (Lower.pushUnder c op)) (Lower.pushUnder c op) q fun _ e => e.ops =
      d.ops ++ [⟨c, op⟩] :=
  plain fun hd _ _ h => by
    obtain rfl := (pushUnder_eq_ok _ _ _).1 h
    exact ⟨rfl, hd.emit hpays hc hop, subset_append_left _ _, rfl⟩

theorem push (hpays : o.Pays op q) (hop : ∀ r ∈ op.mentions, r < d.size) :
    Safe d o (.plain (Lower.push op)) (Lower.push op) q
      fun _ e => e.ops = d.ops ++ [⟨d.current, op⟩] ∧ e.current = d.current :=
  plain fun hd _ _ h => by
    obtain rfl := (push_eq_ok _ _).1 h
    exact ⟨rfl, hd.emit hpays hd.current hop, subset_append_left _ _, rfl, rfl⟩

theorem scope_giveName (hd : d.Kept o) (hr : r < d.size) :
    ∀ t ∈ (d.giveName x r).scope.registers, t < d.size := by
  intro t ht
  obtain rfl | ht := Scope.mem_registers_bind ht
  · exact hr
  · split at ht
    · exact hd.scope t (Scope.registers_forget_subset _ _ _ ht)
    · exact hd.scope t ht

theorem bindName (hr : r < d.size) :
    Safe d o (.bindName x r) (Lower.bindName x r) o fun _ _ => True := by
  have hbind : Safe d o (.plain (Lower.bindName x r)) (Lower.bindName x r) o fun _ _ => True :=
    plain fun hd _ _ h => by
      obtain rfl := (bindName_eq_ok _ _ _).1 h
      exact ⟨rfl, hd.rescope (scope_giveName hd hr), List.Subset.refl _, trivial⟩
  refine peek (fun _ => .look hr) <| peek (fun _ => .get) ?_
  split
  · exact peek (fun hd => .aliases hd hr) hbind
  · exact hbind

theorem bindNames {xs : List String} (hrs : ∀ r ∈ rs, r < d.size) :
    Safe d o (.bindNames xs rs) (Lower.bindNames xs rs) o fun _ _ => True := by
  induction xs generalizing d rs with
  | nil => exact .pure () trivial
  | cons x xs ih =>
    cases rs with
    | nil => exact .pure () trivial
    | cons r rs =>
      exact (bindName (hrs r mem_cons_self)).bind fun _ e hp _ =>
        ih fun t ht => hp.lt (hrs t (mem_cons_of_mem _ ht))

theorem handOver (hr : r < d.registers.size) :
    Safe d o (.handOver r) (Lower.handOver r) o fun _ _ => True :=
  peek (fun hd => .members hd.wf hr) <| peek (fun hd => .aliases hd hr) <| plain fun hd _ _ h => by
    obtain rfl := (handOver_eq_ok _ _).1 h
    have hlayout := d.registers.layout_release r
    refine ⟨hlayout, (hd.of_registers hlayout).rescope fun t ht => ?_, List.Subset.refl _, trivial⟩
    exact (hd.scope t (Scope.registers_forget_subset _ _ _ ht)).trans_eq
      (Registers.size_release d.registers r).symm

theorem freeUnder (f : Frame) (hc : Opened d.ops c) (hr : r < d.size) :
    Safe d o (.freeUnder f c r) (Lower.freeUnder f c r) o fun _ _ => True :=
  peek (fun hd => .members hd.wf hr) <| plain fun hd _ _ h => by
    obtain rfl := (freeUnder_eq_ok _ _ _ _).1 h
    have hlayout := d.registers.layout_release r
    have hemit : ((d.tick.logged (.freed f.name r c)).emit c (.free r d.count)).Kept o :=
      (hd.tick.relog _).emit ⟨.refl _, rfl⟩ hc fun t ht => by
        obtain rfl : t = r := by simpa using ht
        exact hr
    exact ⟨hlayout, hemit.of_registers hlayout, subset_append_left _ _, trivial⟩

theorem freeAllUnder (f : Frame) {rs : List (Register × Condition)}
    (hrs : ∀ p ∈ rs, p.1 < d.size ∧ Opened d.ops p.2) :
    Safe d o (.freeAllUnder f rs) (Lower.freeAllUnder f rs) o fun _ _ => True := by
  induction rs generalizing d with
  | nil => exact .pure () trivial
  | cons p rs ih =>
    obtain ⟨hr,hc⟩ := hrs p mem_cons_self
    exact (freeUnder f hc hr).bind fun _ e hp _ => ih fun q hq =>
      (hrs q (mem_cons_of_mem _ hq)).imp hp.lt hp.opened

theorem unreachable_lt (hd : d.Kept o) (hr : r ∈ d.registers.unreachable keep) : r < d.size := by
  obtain ⟨⟨t,ht,-,rfl⟩,-⟩ := (d.registers.mem_unreachable keep r).1 hr
  exact hd.wf.root_lt (d.registers.lt_size_of_isLive ht)

theorem sweep (f : Frame) : Safe d o (.sweep f) (Lower.sweep f) o fun _ _ => True := by
  intro hd
  refine get (peek (fun hd => .resolveAll hd.wf hd.scope) <| peek (fun hd => .survey hd.wf) <|
    freeAllUnder f ?_) hd
  intro p hp
  obtain ⟨r,hr,rfl⟩ := mem_map.1 hp
  exact ⟨unreachable_lt hd hr, hd.current⟩

theorem collectAtExit (hkeep : ∀ r ∈ keep, r < d.size) :
    Safe d o (.collectAtExit keep) (Lower.collectAtExit keep) o fun rs e => ∀ r ∈ rs, r < e.size := by
  intro hd
  refine get (peek (fun hd => .resolveAll hd.wf hkeep) <| peek (fun hd => .survey hd.wf) <|
    (releaseAll ?_).bind fun _ e hp _ => .pure _ fun r hr => hp.lt (unreachable_lt hd hr)) hd
  intro r hr
  obtain hr | hr := mem_append.1 hr
  · exact unreachable_lt hd hr
  · obtain ⟨t,ht,rfl⟩ := mem_map.1 ((mem_orderedSet _ _).1 hr)
    exact hd.wf.root_lt (hkeep t ht)

theorem single {place : ValueUse} {w : Watch (List Register)} {l : Lower (List Register)}
    (h : Safe d o w l o fun rs e => ∀ r ∈ rs, r < e.size) :
    Safe d o (.single place span w) (Lower.single place span l) o fun r e => r < e.size := by
  refine h.bind fun rs e _ hrs => ?_
  match rs, hrs with
  | [r], hrs => exact .pure r (hrs r mem_cons_self)
  | [], _ => exact .refuse _ _
  | _ :: _ :: _, _ => exact .refuse _ _

theorem checkTruth {statement : Conditional} (hr : r < d.size) :
    Safe d o (.checkTruth r span statement) (Lower.checkTruth r span statement) o fun _ _ => True :=
  (kindOf hr).still fun _ _ => (ensure _ _ _).mono fun _ _ _ => trivial

end Primitive

section Calls

theorem doneFlag (results : List Register) {calls : List (String × ChildSlot)} :
    Safe d ⟨flags, calls⟩ (.plain (Lower.doneFlag results)) (Lower.doneFlag results)
      ⟨(if results.isEmpty then [d.count] else []) ++ flags, calls⟩ fun done e =>
        done.toList = (if results.isEmpty then [d.count] else []) ∧
          e.control.childCalls = d.control.childCalls := by
  refine plain fun hd _ _ h => ?_
  unfold Lower.doneFlag at h
  split at h
  · next hempty =>
    simp only [bind_eq_ok,condition_eq_ok,pure_eq_ok] at h
    obtain ⟨_,_,⟨rfl,rfl⟩,rfl,rfl⟩ := h
    rw [if_pos hempty]
    exact ⟨rfl, hd.tick, List.Subset.refl _, rfl, rfl⟩
  · next hempty =>
    obtain ⟨rfl,rfl⟩ := (pure_eq_ok _ _).1 h
    rw [if_neg hempty]
    exact ⟨rfl, hd, List.Subset.refl _, rfl, rfl⟩

theorem newChild (callee : String) :
    Safe d ⟨flags, []⟩ (.plain (Lower.newChild callee)) (Lower.newChild callee)
      ⟨flags, [(callee, d.control.childCalls.length)]⟩ fun k _ => k = d.control.childCalls.length :=
  plain fun hd _ _ h => by
    obtain ⟨rfl,rfl⟩ := (newChild_eq_ok _ _).1 h
    exact ⟨rfl, hd.withChild callee, List.Subset.refl _, rfl⟩

theorem passTo {param : String × Kind} (hr : r < d.size) :
    Safe d o (.passTo function param span r) (Lower.passTo function param span r) o fun _ _ => True := by
  refine (kindOf hr).still fun _ _ => (ensure _ _ _).still fun _ _ => ?_
  split
  · exact handOver hr
  · exact .pure () trivial

theorem rebindThreads {results : List Register} {position : Nat} (hresults : ∀ r ∈ results, r < d.size) :
    Safe d o (.rebindThreads function results position passed)
      (Lower.rebindThreads function results position passed) o fun _ _ => True := by
  induction passed generalizing d position with
  | nil => exact .pure () trivial
  | cons p ps ih =>
    rw [Watch.rebindThreads,Lower.rebindThreads]
    cases p.thread with
    | none => exact ih hresults
    | some thread =>
      obtain ⟨x,_⟩ := thread
      cases hr : results[position]? with
      | none => exact refuse_bind _ _ _ _
      | some r =>
        have hlt := hresults r (mem_of_getElem? hr)
        exact (kindOf hlt).still fun _ _ => (ensure _ _ _).still fun _ _ =>
          (bindName hlt).bind fun _ _ hp _ => ih fun r hr => hp.lt (hresults r hr)

theorem leftOver_subset (results : List Register) (passed : List Passed) :
    leftOver results passed ⊆ results := by
  fun_induction leftOver results passed with
  | case1 => exact List.Subset.refl _
  | case2 => exact List.Subset.refl _
  | case3 r rs p ps _ ih => exact subset_cons_of_subset _ ih
  | case4 r rs p ps _ ih => exact cons_subset_cons _ ih

theorem callWith (f : Frame) (sig : Signature) (hpassed : ∀ p ∈ passed, p.register < d.size) :
    Safe d ⟨flags, []⟩ (.callWith f sig passed) (Lower.callWith f sig passed) ⟨flags, []⟩
      fun rs e => ∀ r ∈ rs, r < e.size := by
  refine (allocAll sig.returns).bind fun results e hp hresults => ?_
  refine (doneFlag results).bind fun done e' hp' hdone => ?_
  obtain ⟨hdone,-⟩ := hdone
  rw [← hdone]
  refine (note _).bind fun _ e'' hp'' _ => ?_
  have hmentions : ∀ r ∈ passed.map (·.register) ++ results, r < e''.size := by
    intro r hr
    obtain hr | hr := mem_append.1 hr
    · obtain ⟨p,hp₀,rfl⟩ := mem_map.1 hr
      exact hp''.lt (hp'.lt (hp.lt (hpassed p hp₀)))
    · exact hp''.lt (hp'.lt (hresults r hr))
  have hrest : ∀ e₃ : Draft, e''.Precedes e₃ →
      Safe e₃ ⟨flags, []⟩ (do
        Watch.rebindThreads sig.name results 0 passed
        return leftOver results passed)
      (do
        Lower.rebindThreads sig.name results 0 passed
        return leftOver results passed) ⟨flags, []⟩ fun rs e => ∀ r ∈ rs, r < e.size := by
    intro e₃ hp₃
    have hlt : ∀ r ∈ results, r < e₃.size := fun r hr =>
      hp₃.lt (hmentions r (mem_append_right _ hr))
    exact (rebindThreads hlt).bind fun _ e₄ hp₄ _ => .pure _ fun r hr =>
      hp₄.lt (hlt r (leftOver_subset _ _ hr))
  cases sig.strategy with
  | inPlace =>
    refine (push ⟨.refl _, rfl⟩ ?_).bind fun _ e₃ hp₃ _ => hrest e₃ hp₃
    simpa using hmentions
  | scheduled =>
    refine (newChild sig.name).bind fun k e₃ hp₃ hk => ?_
    obtain rfl := hk
    refine (push ⟨.refl _, rfl⟩ fun r hr => hp₃.lt (hmentions r ?_)).bind fun _ e₄ hp₄ _ => hrest e₄
      (hp₃.trans hp₄)
    simpa using hr

end Calls

theorem calleeOf (f : Frame) (callee : Located String) (count : Nat) (span : Span) :
    Safe d o (.plain (Lower.calleeOf f callee count span))
      (Lower.calleeOf f callee count span) o fun _ e => e = d := by
  refine plain fun hd _ _ h => ?_
  obtain ⟨-,-,rfl⟩ := calleeOf_eq_ok h
  exact ⟨rfl, hd, List.Subset.refl _, rfl⟩

theorem load (k : Kind) {op : Register → Op} (hpays : ∀ r, o.Pays (op r) o)
    (hop : ∀ r, (op r).mentions = [r]) : Safe d o (do
        let target ← Watch.alloc k
        .plain (Lower.push (op target))
        return [target])
      (do
        let target ← Lower.alloc k
        Lower.push (op target)
        return [target]) o fun rs e => ∀ r ∈ rs, r < e.size := by
  refine (alloc k).bind fun r e _ hr => (push (hpays r) ?_).bind fun _ e' hp _ => .pure _ ?_
  · rw [hop]
    simpa using hr.1
  · simpa using hp.lt hr.1

end Safe

section Expressions

variable (f : Frame) {flags : List Condition}

mutual
theorem Expr.safe {d : Draft} : (e : Expr) →
    Safe d ⟨flags, []⟩ (e.watch f) (e.lower f) ⟨flags, []⟩ fun rs d' => ∀ r ∈ rs, r < d'.size
  | .name span x => by
    rw [Expr.watch,Expr.lower]
    exact Safe.read.still fun r hr => .pure _ (by simpa using hr)
  | .truth _ value | .integer _ value | .text _ value => by
    rw [Expr.watch,Expr.lower]
    exact Safe.load _ (fun _ => ⟨.refl _, rfl⟩) fun _ => rfl
  | .tuple _ items => by
    rw [Expr.watch,Expr.lower]
    exact Expr.safe_items items
  | .call span callee args => by
    rw [Expr.watch,Expr.lower]
    refine (Safe.calleeOf f callee args.length span).bind fun sig e _ he => ?_
    exact (Arg.safe_all sig.name sig.params args).bind fun passed e' _ hpassed =>
      Safe.callWith f sig hpassed
  | .compare _ op lhs rhs => by
    rw [Expr.watch,Expr.lower]
    refine (Safe.single (lhs.safe)).bind fun l e _ hl => (Safe.single (rhs.safe)).bind
      fun r e' hp hr => ?_
    have hl' := hp.lt hl
    refine (Safe.kindOf hl').still fun _ _ => (Safe.ensure _ _ _).still fun _ _ =>
      (Safe.kindOf hr).still fun _ _ =>
      (Safe.ensure _ _ _).still fun _ _ => ?_
    refine (Safe.alloc _).bind fun t e₂ hp₂ ht => (Safe.push ⟨.refl _, rfl⟩ ?_).bind
      fun _ e₃ hp₃ _ => .pure _ ?_
    · simpa using ⟨hp₂.lt hl', hp₂.lt hr, ht.1⟩
    · simpa using hp₃.lt ht.1

theorem Expr.safe_items {d : Draft} : (es : List Expr) →
    Safe d ⟨flags, []⟩ (Expr.watchItems f es) (Expr.lowerItems f es) ⟨flags, []⟩
      fun rs d' => ∀ r ∈ rs, r < d'.size
  | [] => by
    rw [Expr.watchItems,Expr.lowerItems]
    exact .pure _ (by simp)
  | e :: es => by
    rw [Expr.watchItems,Expr.lowerItems]
    refine (Safe.single e.safe).bind fun r e _ hr => (Expr.safe_items es).bind
      fun rs e' hp hrs => .pure _ ?_
    simpa using ⟨hp.lt hr, hrs⟩

theorem Arg.safe_all {d : Draft} (function : String) :
    (params : List (String × Kind)) → (args : List Arg) →
    Safe d ⟨flags, []⟩ (Arg.watchAll f function params args)
    (Arg.lowerAll f function params args) ⟨flags, []⟩ fun passed d' => ∀ p ∈ passed, p.register < d'.size
  | param :: params, .thread x :: args => by
    rw [Arg.watchAll,Arg.lowerAll]
    refine Safe.read.still fun r hr => (Safe.kindOf hr).still fun before _ => (Safe.passTo hr).bind
      fun _ e hp _ =>
      (Arg.safe_all function params args).bind fun passed e' hp' hpassed => .pure _ ?_
    simpa using ⟨hp'.lt (hp.lt hr), hpassed⟩
  | param :: params, .value e :: args => by
    rw [Arg.watchAll,Arg.lowerAll]
    refine (Safe.single e.safe).bind fun r e _ hr => (Safe.passTo hr).bind fun _ e' hp _ =>
      (Arg.safe_all function params args).bind fun passed e'' hp' hpassed => .pure _ ?_
    simpa using ⟨hp'.lt (hp.lt hr), hpassed⟩
  | [], args | _ :: _, [] => by
    rw [Arg.watchAll,Arg.lowerAll]
    · exact .pure _ (by simp)
    all_goals simp
end

end Expressions

/-- The arm of a branch belongs to the draft. -/
structure Arm.Fits (a : Arm) (d : Draft) : Prop where
  opened : Opened d.ops a.condition
  scope : ∀ r ∈ a.scope.registers, r < d.registers.size
  live : a.live.length ≤ d.registers.size

theorem Arm.Fits.mono {a : Arm} {d d' : Draft} (h : a.Fits d) (hp : d.Precedes d') : a.Fits d' :=
  ⟨hp.opened h.opened, fun r hr => hp.lt (h.scope r hr), h.live.trans hp.size_le⟩

def Lower.unite (a b : Register) : Lower Register := do
  let d ← get
  let (joined, registers) := d.registers.join a b
  set { d with registers }
  return joined

namespace Safe

variable {α : Type} {d : Draft} {o : Owed}

section Branches

theorem unite {a b : Register} (ha : a < d.size) (hb : b < d.size)
    (hkind : d.registers.kind a = d.registers.kind b) :
    Safe d o (.join a b) (Lower.unite a b) o fun r e => r < e.size := by
  intro hd t ht
  have hlayout := d.registers.layout_join ha hb hd.wf
  have hsize := Registers.size_join d.registers a b
  obtain ⟨t',hjoin,ht'⟩ := ht.join_eq hd.wf ha hb
  have hlow : min (d.registers.resolve a) (d.registers.resolve b) < d.size :=
    (Nat.min_le_left _ _).trans_lt (hd.wf.root_lt ha)
  refine ⟨⟨hd.unite ha hb hkind, ?_, hlow.trans_eq hsize.symm⟩, t', ?_, hlayout ▸ ht'⟩
  · exact ⟨hsize.symm.le, fun r _ => d.registers.kind_join a b r, List.Subset.refl _⟩
  · simp only [Watch.join,hjoin]
    exact if_pos rfl

theorem secure {arm : Arm} (hr : r < d.size) (harm : arm.Fits d) :
    Safe d o (.secure arm r before) (Lower.secure arm r before) o fun result e =>
      result.1 < e.size ∧ e.registers.kind result.1 = d.registers.kind r ∧ result.2.Fits e ∧
        result.2.scope = arm.scope := by
  rw [Watch.secure,Lower.secure]
  refine get <| peek (fun hd => .resolve hd.wf hr) <| ite (fun _ => ?_) fun _ => ?_
  · refine peek (fun _ => .look hr) <| (alloc _).bind fun dest e hp hdest => ?_
    refine (pushUnder (q := o) ⟨.refl _, rfl⟩ (hp.opened harm.opened) ?_).bind fun _ e' hp' _ => ?_
    · simpa using ⟨hp.lt hr, hdest.1⟩
    have hdest' := hp'.lt hdest.1
    have harm' := (harm.mono hp).mono hp'
    refine get <| peek (fun hd => .resolveAll hd.wf fun i hi => ?_) <|
      peek (fun hd => .resolve hd.wf hdest') <| .pure _ ?_
    · obtain rfl | hi := mem_cons.1 hi
      · exact hp'.lt (hp.lt hr)
      · exact (mem_range.1 (mem_filter.1 hi).1).trans_le harm'.live
    · refine ⟨hdest', ?_, ⟨harm'.opened, harm'.scope, ?_⟩, rfl⟩
      · rw [hp'.kind_eq _ hdest.1,hdest.2]
      · simpa using harm'.live
  · exact .pure _ ⟨hr, rfl, ⟨harm.opened, harm.scope, harm.live⟩, rfl⟩

theorem joinRegisters {t u : Register} (ht : t < d.size) (hu : u < d.size)
    (hkind : d.registers.kind t = d.registers.kind u) (hT : arms.1.Fits d) (hF : arms.2.Fits d) :
    Safe d o (.joinRegisters t u before arms) (Lower.joinRegisters t u before arms) o fun result e =>
      result.1 < e.size ∧ (result.2.1.Fits e ∧ result.2.1.scope = arms.1.scope) ∧
        result.2.2.Fits e ∧ result.2.2.scope = arms.2.scope := by
  intro hd
  rw [Watch.joinRegisters,Lower.joinRegisters]
  refine (get_right <| peek (fun hd => .resolve hd.wf ht) <| peek (fun hd => .resolve hd.wf hu) <|
    ite (fun _ => ?_) fun _ => ?_) hd
  · exact .pure _ ⟨hd.wf.root_lt ht, ⟨hT, rfl⟩, hF, rfl⟩
  · refine (secure ht hT).bind fun first e hp hfirst => ?_
    obtain ⟨ht',hkt,hT',hsT⟩ := hfirst
    refine (secure (hp.lt hu) (hF.mono hp)).bind fun second e' hp' hsecond => ?_
    obtain ⟨hu',hku,hF',hsF⟩ := hsecond
    have hkinds : e'.registers.kind first.1 = e'.registers.kind second.1 := by
      rw [hp'.kind_eq _ ht',hkt,hku,hp.kind_eq u hu,hkind]
    exact (unite (hp'.lt ht') hu' hkinds).bind fun joined e'' hp'' hj =>
      .pure _ ⟨hj, ⟨(hT'.mono hp').mono hp'', hsT⟩, hF'.mono hp'', hsF⟩

theorem joinNames (f : Frame) (span : Span) (before : Nat) {names : List String} {merged : Scope}
    (hT : arms.1.Fits d) (hF : arms.2.Fits d) (hmerged : ∀ r ∈ merged.registers, r < d.size) :
    Safe d o (.joinNames f span before names arms merged)
      (Lower.joinNames f span before names arms merged) o
      fun result e => (∀ r ∈ result.1.registers, r < e.size) ∧ result.2.1.Fits e ∧
        result.2.2.Fits e := by
  induction names generalizing d arms merged with
  | nil => exact .pure _ ⟨hmerged, hT, hF⟩
  | cons x xs ih =>
    rw [Watch.joinNames,Lower.joinNames]
    cases ht : arms.1.scope.get? x with
    | none => exact .refuse _ _
    | some t =>
      cases hu : arms.2.scope.get? x with
      | none => exact .refuse _ _
      | some u =>
        have ht' := hT.scope t (Scope.mem_registers_of_get? ht)
        have hu' := hF.scope u (Scope.mem_registers_of_get? hu)
        refine (kindOf hu').still fun ku hku => (kindOf ht').still fun kt hkt => (ensure _ _ _).still
          fun _ hagree => ?_
        subst hku hkt
        have hkind := (Kind.agree_eq_ok_iff _ _).1 hagree
        refine (joinRegisters ht' hu' hkind.symm hT hF).bind fun result e' hp hresult => ?_
        obtain ⟨hjoined,hT',hF'⟩ := hresult
        refine (note _).bind fun _ e'' hp' _ => ih (hT'.1.mono hp') (hF'.1.mono hp') fun r hr => ?_
        obtain rfl | hr := Scope.mem_registers_bind hr
        · exact hp'.lt hjoined
        · exact hp'.lt (hp.lt (hmerged r hr))

theorem setLive {flags : List Bool} (hflags : flags.length = d.size)
    (hscope : ∀ r ∈ scope.registers, r < d.size) :
    Safe d o (.setLive flags scope)
      (modify fun d => { d with registers := d.registers.withLive flags, scope }) o fun _ e =>
        e.registers.layout = d.registers.layout := by
  rw [Watch.setLive]
  refine peek (fun _ => .get) ?_
  rw [if_neg (not_not.2 hflags)]
  refine plain fun hd _ _ h => ?_
  obtain rfl := (modify_eq_ok _ _).1 h
  have hlayout := d.registers.layout_withLive flags
  refine ⟨hlayout, (hd.of_registers hlayout).rescope fun r hr => ?_, List.Subset.refl _, hlayout⟩
  exact (hscope r hr).trans_eq (Registers.size_withLive d.registers flags).symm

theorem orphans_spec (hd : d.Kept o) {reachable : List Register} (hbefore : before ≤ d.size)
    (hT : arms.1.Fits d) (hF : arms.2.Fits d) :
    ∀ p ∈ orphans d.registers reachable before arms, p.1 < d.size ∧ Opened d.ops p.2 := by
  intro p hp
  obtain ⟨_,hroot,hp⟩ := mem_filterMap.1 hp
  obtain ⟨r,-,rfl⟩ := Option.map_eq_some_iff.1 hp
  obtain ⟨t,ht,rfl⟩ := mem_map.1 ((mem_orderedSet _ _).1 hroot)
  have ht : t < d.size := (mem_range.1 (mem_filter.1 ht).1).trans_le hbefore
  refine ⟨hd.wf.root_lt ht, ?_⟩
  dsimp only
  split
  · exact hT.opened
  · exact hF.opened

theorem mergeArms (f : Frame) (span : Span) {start : Scope} {onTrue onFalse : Arm}
    (hbefore : before ≤ d.size) (hT : onTrue.Fits d) (hF : onFalse.Fits d) :
    Safe d o (.mergeArms f span start before onTrue onFalse)
      (Lower.mergeArms f span start before onTrue onFalse) o fun _ _ => True := by
  rw [Watch.mergeArms,Lower.mergeArms]
  refine (joinNames f span before hT hF (by simp [Scope.empty,Scope.registers])).bind
    fun result e hp hresult => ?_
  obtain ⟨hmerged,hT',hF'⟩ := hresult
  intro he
  refine (get <| peek (fun hd => .resolveAll hd.wf hmerged) <| peek
    (fun hd => .resolveAll hd.wf fun i hi => ?_) <|
    (setLive (by simp) hmerged).bind fun _ e' hp' hlayout => freeAllUnder f fun p hp₀ => ?_) he
  · exact (mem_range.1 hi).trans_le (hbefore.trans hp.size_le)
  · exact (orphans_spec he (hbefore.trans hp.size_le) hT' hF' p hp₀).imp hp'.lt hp'.opened

theorem arm {w : Watch Flow} {l : Lower Flow} (hc : Opened d.ops c)
    (h : ∀ d : Draft, Safe d ⟨flags, []⟩ w l ⟨flags, []⟩ fun _ _ => True) :
    Safe d ⟨flags, []⟩ (.arm c w) (Lower.arm c l) ⟨flags, []⟩ fun result e => result.2.Fits e := by
  have hunder : Safe d ⟨flags, []⟩ (.plain (modify fun d => { d with current := c }))
      (modify fun d => { d with current := c }) ⟨flags, []⟩ fun _ e => e.ops = d.ops :=
    plain fun hd _ _ h => by
      obtain rfl := (modify_eq_ok _ _).1 h
      exact ⟨rfl, hd.under hc, List.Subset.refl _, rfl⟩
  refine hunder.bind fun _ e hp _ => (h e).bind fun flow e' hp' _ => get fun he => ?_
  exact pure _ ⟨hp'.opened (hp.opened hc), he.scope, (Registers.length_liveness _).le⟩ he

theorem resumeFrom {live : List Bool} (hscope : ∀ r ∈ scope.registers, r < d.size) :
    Safe d o (.plain (Lower.resumeFrom scope live)) (Lower.resumeFrom scope live) o fun _ _ => True :=
  plain fun hd _ _ h => by
    obtain rfl := (modify_eq_ok _ _).1 h
    have hlayout := d.registers.layout_withLive live
    refine ⟨hlayout, (hd.of_registers hlayout).rescope fun r hr => ?_, List.Subset.refl _, trivial⟩
    exact (hscope r hr).trans_eq (Registers.size_withLive d.registers live).symm

theorem branchOn (f : Frame) (span : Span) {test : Register} {wT wF : Watch Flow} {lT lF : Lower Flow}
    (htest : test < d.size) (hT : ∀ d : Draft, Safe d ⟨flags, []⟩ wT lT ⟨flags, []⟩ fun _ _ => True)
    (hF : ∀ d : Draft, Safe d ⟨flags, []⟩ wF lF ⟨flags, []⟩ fun _ _ => True) :
    Safe d ⟨flags, []⟩ (.branchOn f span test wT wF) (Lower.branchOn f span test lT lF) ⟨flags, []⟩
      fun _ _ => True := by
  rw [Watch.branchOn,Lower.branchOn]
  refine condition.bind fun ifTrue e₁ hp₁ hc₁ => condition.bind fun ifFalse e₂ hp₂ hc₂ => ?_
  obtain rfl := hc₁
  obtain rfl := hc₂
  refine (push (q := ⟨flags, []⟩) ⟨.swap _ _ _, rfl⟩ ?_).bind fun _ start hp₃ hpush => ?_
  · simpa using hp₂.lt (hp₁.lt htest)
  have hopened : ∀ c, c = d.count ∨ c = e₁.count → Opened start.ops c :=
    fun c hc => .inr ⟨_, hpush.1 ▸ mem_append_right _ mem_cons_self, _, _, _, rfl, hc⟩
  refine get fun hstart => ?_
  refine ((arm (hopened _ (.inl rfl)) hT).bind fun onTrue e₄ hp₄ harmT => ?_) hstart
  refine (resumeFrom fun r hr => hp₄.lt (hstart.scope r hr)).bind fun _ e₅ hp₅ _ => ?_
  refine (arm (hp₅.opened (hp₄.opened (hopened _ (.inr rfl)))) hF).bind fun onFalse e₆ hp₆ harmF => ?_
  have hback : Safe e₆ ⟨flags, []⟩ (.plain (modify fun d => { d with current := start.current }))
      (modify fun d => { d with current := start.current }) ⟨flags, []⟩ fun _ _ => True :=
    plain fun hd _ _ h => by
      obtain rfl := (modify_eq_ok _ _).1 h
      exact ⟨rfl, hd.under (hp₆.opened (hp₅.opened (hp₄.opened hstart.current))),
        List.Subset.refl _, trivial⟩
  refine hback.bind fun _ e₇ hp₇ _ => ?_
  have hTrue := ((harmT.mono hp₅).mono hp₆).mono hp₇
  obtain ⟨trueFlow,_⟩ := onTrue
  obtain ⟨falseFlow,_⟩ := onFalse
  cases trueFlow with
  | returns => cases falseFlow <;> exact .pure _ trivial
  | continues =>
    cases falseFlow with
    | returns => exact (resumeFrom hTrue.scope).bind fun _ _ _ _ => .pure _ trivial
    | continues =>
      have hsize := (((hp₄.trans hp₅).trans hp₆).trans hp₇).size_le
      exact (mergeArms f span hsize hTrue (harmF.mono hp₇)).bind fun _ _ _ _ => .pure _ trivial

end Branches

end Safe

end Polled
