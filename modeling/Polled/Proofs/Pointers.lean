import Polled.Proofs.Keeping
import Polled.Proofs.Records

/-!
Where the pointers of activation records lead.

`Held` ties records together at every moment: pointers lead to records of the right routine, and a call
that is not done is under way in the record that was made for it, or in that of a later round. Blocks
keep it (`settles_block`).
-/

namespace Polled

open CSource Relation List

variable {p : Program} {k : ChildSlot} {callee : String} {f : Ties → Ties} {t' : Ties} {b a : Address}
variable {target : Option Address} {s s' : Scene} {actions : List Action} {c : Condition}
variable {args results garbage : List Register} {done : Option Condition}

/-- The child slot is for calls of the routine `callee`. -/
def Program.ChildOf (p : Program) (name : String) (k : ChildSlot) (callee : String) : Prop :=
  ∃ r, p.routine? name = some r ∧ (callee, k) ∈ childrenIn r.ops

/-- The routine is one round of a loop and can start over. -/
def Program.Restarts (p : Program) (name : String) : Prop :=
  ∃ r, p.routine? name = some r ∧ ∃ g ∈ r.ops, ∃ args garbage, g.op = .restartLoop args garbage

/-- Every child slot of a routine is for one callee. -/
def Program.Assigned (p : Program) : Prop :=
  ∀ name r, p.routine? name = some r → childrenIn r.ops = r.childCalls.zipIdx

theorem Program.Assigned.sole (h : p.Assigned) {name : String} {callee' : String}
    (hc : p.ChildOf name k callee) (hc' : p.ChildOf name k callee') : callee' = callee := by
  obtain ⟨r,hr,hmem⟩ := hc
  obtain ⟨_,hr',hmem'⟩ := hc'
  obtain rfl := Option.some.inj (hr.symm.trans hr')
  rw [h name r hr,mem_zipIdx_iff_getElem?] at hmem hmem'
  exact Option.some.inj (hmem'.symm.trans hmem)

namespace CSource

/-- The poll function fits the record, as long as that stands. -/
def Named (T : List (Cell Ties)) (w : Wake) : Prop :=
  w.record < T.length ∧ ∀ t, T[w.record]? = some (.standing t) → t.routine = w.routine

/-- The next round of a loop has taken the place of the record. -/
def Replaced (T : List (Cell Ties)) (a b : Address) : Prop := T[a]? = some (.replaced b)

/-- The call in a slot of the record at `a`, for which the record at `c` was made, is under way. -/
def Reports (p : Program) (T : List (Cell Ties)) (a : Address) (k : ChildSlot) (c : Address)
    (callee : String) : Prop :=
  ∃ d u, ReflTransGen (Replaced T) c d ∧ T[d]? = some (.standing u) ∧ u.finished = some (a, k) ∧
    u.routine = callee ∧
    (c = d ∨ p.Restarts callee)

/-- All pointers lead to records of the right routine, and a call that is not done is under way. -/
structure Held (p : Program) (T : List (Cell Ties)) (queue : List Wake) : Prop where
  calls : ∀ (a : Address) (t : Ties), T[a]? = some (.standing t) → ∀ k c, t.call k = some c →
    ∃ callee, p.ChildOf t.routine k callee ∧ Named T ⟨callee, c⟩ ∧
    (t.done k = false → Reports p T a k c callee)
  callers : ∀ (a : Address) (t : Ties), T[a]? = some (.standing t) → ∀ w ∈ t.caller, Named T w
  queue : ∀ w ∈ queue, Named T w

section

variable {p : Program} {T T' : List (Cell Ties)} {queue : List Wake} {a c sp : Address} {k : ChildSlot}
  {callee : String}
variable {t u : Ties} {w : Wake} {next : Option Address}

def Outlives (T T' : List (Cell Ties)) : Prop :=
  T.length ≤ T'.length ∧
    ∀ a < T.length, ∀ t', T'[a]? = some (.standing t') → ∃ t, T[a]? = some (.standing t) ∧
    t.routine = t'.routine

theorem Outlives.refl (T : List (Cell Ties)) : Outlives T T := ⟨le_rfl, fun _ _ t ht => ⟨t, ht, rfl⟩⟩

theorem Outlives.trans {T'' : List (Cell Ties)} (h : Outlives T T') (h' : Outlives T' T'') :
    Outlives T T'' := by
  refine ⟨h.1.trans h'.1, fun a ha t'' ht'' => ?_⟩
  obtain ⟨t',ht',hname'⟩ := h'.2 a (ha.trans_le h.1) t'' ht''
  obtain ⟨t,ht,hname⟩ := h.2 a ha t' ht'
  exact ⟨t, ht, hname.trans hname'⟩

theorem Named.outlive (h : Named T w) (hT : Outlives T T') : Named T' w := by
  refine ⟨h.1.trans_le hT.1, fun t' ht' => ?_⟩
  obtain ⟨t,ht,hname⟩ := hT.2 w.record h.1 t' ht'
  exact hname.symm.trans (h.2 t ht)

theorem outlives_append (u : Ties) : Outlives T (T ++ [.standing u]) :=
  ⟨by simp, fun a ha t ht => ⟨t, by rwa [getElem?_append_left ha] at ht, rfl⟩⟩

theorem standing_append : (T ++ [.standing u])[a]? = some (.standing t) ↔ T[a]? = some (.standing t) ∨
      a = T.length ∧ t = u := by
  rw [getElem?_append]
  split
  · next ha => simp [ha.ne]
  · next ha =>
    rw [getElem?_eq_none (not_lt.1 ha)]
    obtain rfl | ha := Nat.eq_or_lt_of_not_lt ha
    · simp [eq_comm]
    · simp [ha.ne',Nat.sub_ne_zero_of_lt ha]

theorem standing_modify_map : (T.modify sp (Cell.map f))[a]? = some (.standing t') ↔
      ∃ t, T[a]? = some (.standing t) ∧ t' = if sp = a then f t else t := by
  rw [getElem?_modify]
  cases T[a]? with
  | none => simp
  | some cell => cases cell <;> by_cases h : sp = a <;> simp [h,Cell.map,eq_comm]

theorem replaced_modify_map : Replaced (T.modify sp (Cell.map f)) = Replaced T := by
  funext a b
  rw [Replaced,Replaced,getElem?_modify]
  cases T[a]? with
  | none => simp
  | some cell => cases cell <;> by_cases h : sp = a <;> simp [h,Cell.map]

theorem outlives_modify_map (hf : ∀ t, (f t).routine = t.routine) :
    Outlives T (T.modify sp (Cell.map f)) := by
  refine ⟨by simp, fun a _ t' ht' => ?_⟩
  obtain ⟨t,ht,rfl⟩ := standing_modify_map.1 ht'
  exact ⟨t, ht, by split <;> simp [hf]⟩

theorem standing_remove : (T.modify sp (Cell.remove next))[a]? = some (.standing t') ↔
      T[a]? = some (.standing t') ∧ sp ≠ a := by
  rw [getElem?_modify]
  cases T[a]? with
  | none => simp
  | some cell => cases cell <;> by_cases h : sp = a <;> cases next <;> simp [h,Cell.remove]

theorem outlives_remove : Outlives T (T.modify sp (Cell.remove next)) :=
  ⟨by simp, fun _ _ t' ht' => ⟨t', (standing_remove.1 ht').1, rfl⟩⟩

theorem replaced_remove (h : Replaced T a b) : Replaced (T.modify sp (Cell.remove next)) a b := by
  rw [Replaced,getElem?_modify,h]
  by_cases hsp : sp = a <;> simp [hsp,Cell.remove]

theorem replaced_append (h : Replaced T a b) : Replaced (T ++ [.standing u]) a b := by
  rw [Replaced,List.getElem?_append_left (List.getElem?_eq_some_iff.1 h).1]
  exact h

theorem Reports.append (h : Reports p T a k c callee) : Reports p (T ++ [.standing u]) a k c callee := by
  obtain ⟨d,v,hchain,hd,hv⟩ := h
  refine ⟨d, v, hchain.lift id fun _ _ => replaced_append, ?_, hv⟩
  rwa [List.getElem?_append_left (List.getElem?_eq_some_iff.1 hd).1]

namespace Held

section

variable (h : Held p T queue)

include h

theorem add (hcall : ∀ k, u.call k = none) (hcaller : ∀ w ∈ u.caller, Named T w) :
    Held p (T ++ [.standing u]) queue where
  calls a t ht k c hc := by
    rcases standing_append.1 ht with ht | ⟨-,rfl⟩
    · obtain ⟨callee,hchild,hnamed,hreports⟩ := h.calls a t ht k c hc
      exact ⟨callee, hchild, hnamed.outlive (outlives_append u), fun hd => (hreports hd).append⟩
    · rw [hcall] at hc
      cases hc
  callers a t ht w hw := by
    rcases standing_append.1 ht with ht | ⟨-,rfl⟩
    · exact (h.callers a t ht w hw).outlive (outlives_append u)
    · exact (hcaller w hw).outlive (outlives_append t)
  queue w hw := (h.queue w hw).outlive (outlives_append u)

/-- Changes of one record that no pointer into other records and no call under way depends on. -/
theorem change (hroutine : ∀ t, (f t).routine = t.routine) (hcaller : ∀ t, (f t).caller = t.caller)
    (hfinished : ∀ t, (f t).finished = t.finished)
    (hcall : ∀ t, T[sp]? = some (.standing t) → ∀ k c, (f t).call k = some c →
      ∃ callee, p.ChildOf t.routine k callee ∧ Named T ⟨callee, c⟩ ∧
        ((f t).done k = false → Reports p T sp k c callee)) :
    Held p (T.modify sp (Cell.map f)) queue where
  calls a t' ht' k c hc := by
    obtain ⟨t,ht,rfl⟩ := standing_modify_map.1 ht'
    have hold : ∃ callee, p.ChildOf t.routine k callee ∧ Named T ⟨callee, c⟩ ∧
        ((if sp = a then f t else t).done k = false → Reports p T a k c callee) := by
      split at hc
      · rename_i hsp
        subst hsp
        simpa using hcall t ht k c hc
      · rename_i hsp
        simpa [hsp] using h.calls a t ht k c hc
    obtain ⟨callee,hchild,hnamed,hreports⟩ := hold
    refine ⟨callee, ?_, hnamed.outlive (outlives_modify_map hroutine), fun hd => ?_⟩
    · split <;> simpa [hroutine] using hchild
    · obtain ⟨d,v,_,hv,hfin,hname,hend⟩ := hreports hd
      refine ⟨d, _, by rwa [replaced_modify_map], standing_modify_map.2 ⟨v, hv, rfl⟩, ?_, ?_, hend⟩
      · split <;> simpa [hfinished] using hfin
      · split <;> simpa [hroutine] using hname
  callers a t' ht' w hw := by
    obtain ⟨t,ht,rfl⟩ := standing_modify_map.1 ht'
    refine (h.callers a t ht w ?_).outlive (outlives_modify_map hroutine)
    split at hw
    · rwa [hcaller] at hw
    · exact hw
  queue w hw := (h.queue w hw).outlive (outlives_modify_map hroutine)

theorem forget (sp : Address) (k : ChildSlot) :
    Held p (T.modify sp (Cell.map (Ties.setCall · k none))) queue := by
  refine h.change (fun _ => rfl) (fun _ => rfl) (fun _ => rfl) fun t ht j c hc => ?_
  rw [Ties.call_setCall] at hc
  split at hc
  · cases hc
  · exact h.calls sp t ht j c hc

theorem finish (a : Address) (k : ChildSlot) :
    Held p (T.modify a (Cell.map (Ties.setDone · k true))) queue := by
  refine h.change (fun _ => rfl) (fun _ => rfl) (fun _ => rfl) fun t ht j c hc => ?_
  obtain ⟨callee,hchild,hnamed,hreports⟩ := h.calls a t ht j c hc
  refine ⟨callee, hchild, hnamed, fun hd => hreports ?_⟩
  rw [Ties.done_setDone] at hd
  split at hd
  · cases hd
  · exact hd

/-- A done flag is taken back only where no child is left. -/
theorem clear (hnone : ∀ t, T[sp]? = some (.standing t) → t.call k = none) :
    Held p (T.modify sp (Cell.map (Ties.setDone · k false))) queue := by
  refine h.change (fun _ => rfl) (fun _ => rfl) (fun _ => rfl) fun t ht j c hc => ?_
  have hj : j ≠ k := by
    rintro rfl
    rw [Ties.call_setDone,hnone t ht] at hc
    cases hc
  simpa [hj] using h.calls sp t ht j c hc

/-- A child is made for a slot and set to report to it. -/
theorem begin (hsp : sp < T.length) (hcall : ∀ k, u.call k = none)
    (hcaller : ∀ w ∈ u.caller, Named T w) (hfinished : u.finished = some (sp, k))
    (hchild : ∀ t, T[sp]? = some (.standing t) → p.ChildOf t.routine k u.routine) :
    Held p ((T ++ [Cell.standing u]).modify sp (Cell.map (Ties.setCall · k (some T.length)))) queue := by
  have hadd := h.add hcall hcaller
  refine hadd.change (fun _ => rfl) (fun _ => rfl) (fun _ => rfl) fun t ht j c hc => ?_
  rw [Ties.call_setCall] at hc
  split at hc
  · next hj =>
    subst hj
    obtain rfl := Option.some.inj hc
    have hu : (T ++ [Cell.standing u])[T.length]? = some (Cell.standing u) :=
      standing_append.2 (.inr ⟨rfl, rfl⟩)
    have hold : T[sp]? = some (.standing t) := (standing_append.1 ht).resolve_right fun h =>
      absurd h.1 hsp.ne
    refine ⟨u.routine, hchild t hold, ⟨by simp, fun v hv => ?_⟩,
      fun _ => ⟨_, u, .refl, hu, hfinished, rfl, .inl rfl⟩⟩
    rw [hu] at hv
    cases hv
    rfl
  · exact hadd.calls sp t ht j c hc

/-- A record goes when its call is done, or when the next round of its loop reports in its place. -/
theorem remove (hfinished : ∀ (t : Ties) (a : Address) (k : ChildSlot), T[sp]? = some (.standing t) →
      t.finished = some (a, k) → (∀ t', T[a]? = some (.standing t') → t'.done k = true) ∨
        ∃ n v, next = some n ∧ n ≠ sp ∧ T[n]? = some (.standing v) ∧ v.finished = t.finished ∧
          v.routine = t.routine ∧ p.Restarts t.routine) :
    Held p (T.modify sp (Cell.remove next)) queue where
  calls a t ht k c hc := by
    obtain ⟨ht,_⟩ := standing_remove.1 ht
    obtain ⟨callee,hchild,hnamed,hreports⟩ := h.calls a t ht k c hc
    refine ⟨callee, hchild, hnamed.outlive outlives_remove, fun hd => ?_⟩
    obtain ⟨d,v,hchain,hv,hfin,hname,hend⟩ := hreports hd
    have hchain' : ReflTransGen (Replaced (T.modify sp (Cell.remove next))) c d :=
      hchain.lift id fun _ _ => replaced_remove
    by_cases hsd : sp = d
    · subst hsd
      rcases hfinished v a k hv hfin with hdone | ⟨n,v',rfl,hn,hv',hfin',hname',_⟩
      · rw [hdone t ht] at hd
        cases hd
      · refine ⟨n, v', hchain'.tail ?_, standing_remove.2 ⟨hv', hn.symm⟩, hfin'.trans hfin,
          hname'.trans hname, .inr ?_⟩
        · simp [Replaced,hv,Cell.remove]
        · rwa [← hname]
    · exact ⟨d, v, hchain', standing_remove.2 ⟨hv, hsd⟩, hfin, hname, hend⟩
  callers a t ht w hw := (h.callers a t (standing_remove.1 ht).1 w hw).outlive outlives_remove
  queue w hw := (h.queue w hw).outlive outlives_remove

end

end Held

end

namespace Memory

variable {m : Memory} {a : Address} {t : Ties} {r : Activation}

def ties (m : Memory) : List (Cell Ties) := m.cells.map (Cell.map Activation.ties)

theorem standing_ties : m.ties[a]? = some (.standing t) ↔ ∃ r, m.record? a = some r ∧ r.ties = t := by
  rw [ties,getElem?_map,record?]
  cases m.cells[a]? with
  | none => simp
  | some cell => cases cell <;> simp [Cell.map,Cell.record?]

theorem ties_write {f : Activation → Activation} {g : Ties → Ties} (hf : ∀ r, (f r).ties = g r.ties) :
    (m.write (some a) f).ties = m.ties.modify a (Cell.map g) := by
  refine ext_getElem? fun b => ?_
  simp only [write,ties,getElem?_map,getElem?_modify]
  cases m.cells[b]? with
  | none => rfl
  | some cell => cases cell <;> by_cases h : a = b <;> simp [h,Cell.map,hf]

theorem ties_retie : (m.write (some a) (.retie f)).ties = m.ties.modify a (Cell.map f) :=
  ties_write fun _ => rfl

theorem ties_write_of_eq {f : Activation → Activation} (hf : ∀ r, (f r).ties = r.ties) :
    (m.write target f).ties = m.ties := by
  cases target with
  | none => rfl
  | some a =>
    rw [ties_write (g := id) hf]
    refine ext_getElem? fun b => ?_
    rw [getElem?_modify]
    cases m.ties[b]? with
    | none => rfl
    | some cell => cases cell <;> by_cases h : a = b <;> simp [h,Cell.map]

theorem ties_add : (m.add r).ties = m.ties ++ [.standing r.ties] := by simp [add,ties,Cell.map]

theorem ties_remove {next : Option Address} :
    (m.remove a next).ties = m.ties.modify a (Cell.remove next) := by
  refine ext_getElem? fun b => ?_
  simp only [remove,ties,getElem?_map,getElem?_modify]
  cases m.cells[b]? with
  | none => rfl
  | some cell => cases cell <;> by_cases h : a = b <;> cases next <;> simp [h,Cell.map,Cell.remove]

@[simp] theorem queue_write {f : Activation → Activation} : (m.write target f).queue = m.queue := by
  cases target <;> rfl

theorem exists_standing (h : m.record? a = some r) : m.ties[a]? = some (.standing r.ties) :=
  standing_ties.2 ⟨r, h, rfl⟩

theorem length_ties : m.ties.length = m.cells.length := length_map _

theorem finished_eq (h : m.ties[a]? = some (.standing t)) :
    (m.record? a).bind (·.ties.finished) = t.finished := by
  obtain ⟨r,hr,rfl⟩ := standing_ties.1 h
  simp [hr]

/-- All that ties records together is in order. -/
def Held (p : Program) (m : Memory) : Prop := CSource.Held p m.ties m.queue

theorem Held.schedule {w : Option Wake} (h : m.Held p) (hw : ∀ w' ∈ w, Named m.ties w') :
    (m.schedule w).Held p where
  calls := h.calls
  callers := h.callers
  queue w' hw' := (mem_append.1 hw').elim (h.queue w') fun hmem => hw w' (by simpa using hmem)

theorem Held.caller (h : m.Held p) : ∀ w ∈ m.caller a, Named m.ties w := by
  intro w hw
  cases hr : m.record? a with
  | none => simp [Memory.caller,hr] at hw
  | some r => exact h.callers a r.ties (exists_standing hr) w (by simpa [Memory.caller,hr] using hw)

theorem outlives_report : Outlives m.ties (m.report a).ties := by
  unfold report
  split
  · rw [ties_retie]
    exact outlives_modify_map fun _ => rfl
  · exact .refl _

theorem Held.report (h : m.Held p) : (m.report a).Held p := by
  unfold Memory.report
  split
  · rename_i parent k _
    rw [Held,queue_write,ties_retie]
    exact h.finish parent k
  · exact h

theorem done_report {parent : Address} (ht : (m.report a).ties[a]? = some (.standing t))
    (hk : t.finished = some (parent, k)) (ht' : (m.report a).ties[parent]? = some (.standing t')) :
    t'.done k = true := by
  unfold report at ht ht'
  split at ht
  · rename_i parent' k' hfinished
    simp only [hfinished] at ht'
    rw [ties_retie] at ht ht'
    obtain ⟨v,hv,rfl⟩ := standing_modify_map.1 ht
    obtain ⟨_,_,rfl⟩ := standing_modify_map.1 ht'
    have hkept : v.finished = some (parent, k) := by split at hk <;> exact hk
    rw [finished_eq hv,hkept] at hfinished
    cases hfinished
    simp
  · rename_i hnone
    rw [finished_eq ht,hk] at hnone
    cases hnone

theorem Held.depart (h : m.Held p) : (m.depart a).Held p := by
  have hreport := h.report (a := a)
  have hscheduled := hreport.schedule (hreport.caller (a := a))
  rw [Memory.depart,Held,ties_remove]
  exact hscheduled.remove fun t parent k ht hk => .inl fun t' ht' => done_report ht hk ht'

theorem outlives_depart : Outlives m.ties (m.depart a).ties := by
  rw [depart,ties_remove]
  exact (outlives_report (m := m) (a := a)).trans outlives_remove

end Memory

namespace Scene

/-- Pointers, done flags and the queue are the same. -/
structure Alike (s s' : Scene) : Prop where
  ties : s'.memory.ties = s.memory.ties
  queue : s'.memory.queue = s.memory.queue
  child : s'.child = s.child
  next : s'.next = s.next

theorem Alike.refl (s : Scene) : s.Alike s := ⟨rfl, rfl, rfl, rfl⟩

theorem Alike.trans {s'' : Scene} (h : s.Alike s') (h' : s'.Alike s'') : s.Alike s'' :=
  ⟨h'.ties.trans h.ties, h'.queue.trans h.queue, h'.child.trans h.child, h'.next.trans h.next⟩

theorem ties_retie (s : Scene) :
    (s.write (some a) (.retie f)).memory.ties = s.memory.ties.modify a (Cell.map f) := Memory.ties_retie

theorem queue_write (s : Scene) {f : Activation → Activation} :
    (s.write target f).memory.queue = s.memory.queue := Memory.queue_write

theorem Alike.held (h : s.Alike s') (hs : s.memory.Held p) : s'.memory.Held p := by
  rw [Memory.Held,h.ties,h.queue]
  exact hs

end Scene

/-- Actions on flags and slots only. -/
def Action.quiet : Action → Bool
  | .create _ _ _ | .linkDone _ | .schedule _ _ | .forget _ | .clearDone _ | .inheritDone
      | .reportDone | .wakeCaller
  | .dispose | .poll _ _ | .leave => false
  | _ => true

section

variable {truth : Register → Bool} {sp : Address} {s : Scene}

theorem alike_perform {a : Action} (h : a.quiet = true) : s.Alike (a.perform truth sp s) := by
  fun_cases Action.perform <;>
    first
    | exact ⟨Memory.ties_write_of_eq fun _ => rfl, Memory.queue_write, rfl, rfl⟩
    | exact .refl s
    | exact ⟨rfl, rfl, rfl, rfl⟩
    | cases h

variable (truth sp s) in
theorem alike_foldl (h : ∀ a ∈ actions, a.quiet = true) :
    s.Alike (actions.foldl (Action.perform truth sp) s) :=
  foldlRecOn (motive := s.Alike) _ _ (.refl s) fun _ hs a ha => hs.trans (alike_perform (h a ha))

theorem yields_of_quiet {a : Action} (h : a.quiet = true) : (Step.act a).yields = false := by
  cases a <;> first | rfl | cases h

end

/-- The memory is in order, and the records of before have kept their routines. -/
structure Scene.Fine (p : Program) (T : List (Cell Ties)) (s : Scene) : Prop where
  held : s.memory.Held p
  outlives : Outlives T s.memory.ties

namespace Scene.Fine

variable {p : Program} {T : List (Cell Ties)} {truth : Register → Bool} {sp : Address} {s s' : Scene}
  {name callee : String}
variable {k : ChildSlot}

theorem alike (h : s.Fine p T) (hs : s.Alike s') : s'.Fine p T :=
  ⟨hs.held h.held, by rw [hs.ties]; exact h.outlives⟩

theorem quiet (h : s.Fine p T) {actions : List Action} (ha : ∀ a ∈ actions, a.quiet = true) :
    (actions.foldl (Action.perform truth sp) s).Fine p T :=
  h.alike (alike_foldl truth sp s ha)

theorem retie (h : s.Fine p T) (hroutine : ∀ t, (f t).routine = t.routine)
    (hheld : Held p (s.memory.ties.modify a (Cell.map f)) s.memory.queue) :
    (s.write (some a) (.retie f)).Fine p T := by
  have hties : (s.write (some a) (.retie f)).memory.ties = s.memory.ties.modify a (Cell.map f) :=
    Memory.ties_write fun _ => rfl
  refine ⟨?_, ?_⟩
  · rw [Memory.Held,hties,write,Memory.queue_write]
    exact hheld
  · rw [hties]
    exact h.outlives.trans (outlives_modify_map hroutine)

theorem settle (h : s.Fine p T) :
    ([.raise c, .forget k, .clearDone k, .progress].foldl (Action.perform truth sp) s).Fine p T := by
  have hraised : ((Action.raise c).perform truth sp s).Fine p T := h.alike (alike_perform rfl)
  generalize hs : (Action.raise c).perform truth sp s = s₁ at hraised
  have hforgot : ((Action.forget k).perform truth sp s₁).Fine p T :=
    hraised.retie (fun _ => rfl) (hraised.held.forget sp k)
  have hnone : ∀ t, ((Action.forget k).perform truth sp s₁).memory.ties[sp]? = some (.standing t) →
      t.call k = none := by
    intro t ht
    rw [Action.perform,write,Memory.ties_write (g := (Ties.setCall · k none)) fun _ => rfl] at ht
    obtain ⟨t,-,rfl⟩ := standing_modify_map.1 ht
    simp
  generalize hs₂ : (Action.forget k).perform truth sp s₁ = s₂ at hforgot hnone
  have hcleared : ((Action.clearDone k).perform truth sp s₂).Fine p T :=
    hforgot.retie (fun _ => rfl) (hforgot.held.clear hnone)
  simp only [foldl_cons,foldl_nil,hs,hs₂]
  exact hcleared.alike (alike_perform rfl)

theorem modify_append {u : Ties} :
    (T ++ [Cell.standing u]).modify T.length (Cell.map f) = T ++ [.standing (f u)] := by
  induction T with
  | nil => rfl
  | cons cell T ih => simp [ih]

section

variable {waker : Waker}

theorem ties_create_call : ((Action.create (.call k) callee waker).perform truth sp s).memory.ties =
    (s.memory.ties ++ [Cell.standing (Activation.fresh callee (s.wakes sp waker)).ties]).modify sp
      (Cell.map (Ties.setCall · k (some s.memory.ties.length))) := by
  rw [← Memory.ties_add,Memory.length_ties]
  exact Memory.ties_write fun _ => rfl

theorem locate_create_call (hstands : (s.memory.record? sp).isSome = true) :
    ((Action.create (.call k) callee waker).perform truth sp s).locate sp (.call k) =
      some s.memory.ties.length := by
  obtain ⟨r,hr⟩ := Option.isSome_iff_exists.1 hstands
  have hsp : ((Action.create (.call k) callee waker).perform truth sp s).memory.ties[sp]? =
      some (.standing (r.ties.setCall k (some s.memory.ties.length))) := by
    rw [ties_create_call,standing_modify_map]
    exact ⟨r.ties, standing_append.2 (.inl (Memory.exists_standing hr)), by simp⟩
  obtain ⟨_,hr',hties⟩ := Memory.standing_ties.1 hsp
  simp [locate,hr',hties]

end

theorem begin (h : s.Fine p T) (hstands : (s.memory.record? sp).isSome = true)
    (hname : Named s.memory.ties ⟨name, sp⟩) (hchild : p.ChildOf name k callee) {links : List Action}
    (hlinks : ∀ a ∈ links, a.quiet = true) :
    ((.create (.call k) callee (.self name) :: .linkDone k :: links).foldl (Action.perform truth sp)
      s).Fine p T := by
  have hties : ((Action.linkDone k).perform truth sp
      ((Action.create (.call k) callee (.self name)).perform truth sp s)).memory.ties =
      (s.memory.ties ++ [Cell.standing
        ((Activation.fresh callee (some ⟨name, sp⟩)).ties.reportTo (some (sp, k)))]).modify sp
        (Cell.map (Ties.setCall · k (some s.memory.ties.length))) := by
    rw [Action.perform.eq_def _ _ _ (.linkDone k)]
    simp only
    rw [locate_create_call hstands,write,Memory.ties_retie,
      ties_create_call,modify_modify_ne _ _ _ hname.1.ne,modify_append]
    rfl
  have hheld := h.held.begin
    (u := (Activation.fresh callee (some ⟨name, sp⟩)).ties.reportTo (some (sp, k))) hname.1
    (fun _ => rfl) (fun w hw => by cases hw; exact hname) rfl fun t ht => by
      rw [hname.2 t ht]; exact hchild
  refine @quiet p T truth sp _ ⟨?_, ?_⟩ links hlinks
  · have hqueue : ((Action.linkDone k).perform truth sp
        ((Action.create (.call k) callee (.self name)).perform truth sp s)).memory.queue =
          s.memory.queue := by
      simp [Action.perform,write,create,Memory.add]
    rw [Memory.Held,hties,hqueue]
    exact hheld
  · rw [hties]
    exact (h.outlives.trans (outlives_append _)).trans (outlives_modify_map fun _ => rfl)

theorem hand (h : s.Fine p T) (hname : Named s.memory.ties ⟨name, sp⟩)
    (hsole : ∀ callee', p.ChildOf name k callee' → callee' = callee) {passes : List Action}
    (hpasses : ∀ a ∈ passes, a.quiet = true) :
    ((passes ++ [Action.schedule (.call k) callee]).foldl (Action.perform truth sp) s).Fine p T := by
  rw [foldl_append,foldl_cons,foldl_nil]
  have hs := alike_foldl truth sp s hpasses
  generalize passes.foldl (Action.perform truth sp) s = s' at hs
  have h' := h.alike hs
  refine ⟨h'.held.schedule fun w hw => ?_, h'.outlives⟩
  obtain ⟨c,hc,rfl⟩ := Option.map_eq_some_iff.1 hw
  obtain ⟨r,hr,hcall⟩ := Option.bind_eq_some_iff.1 hc
  have hstands := Memory.exists_standing hr
  obtain ⟨callee',hchild,hnamed,-⟩ := h'.held.calls sp r.ties hstands k c hcall
  rw [hname.2 r.ties (hs.ties ▸ hstands)] at hchild
  rwa [hsole callee' hchild] at hnamed

variable (truth) in
theorem make (h : s.Fine p T) : ((Action.create .child callee .none).perform truth sp s).Fine p T ∧
    ∃ a, ((Action.create .child callee .none).perform truth sp s).child = some a ∧
      Named ((Action.create .child callee .none).perform truth sp s).memory.ties ⟨callee, a⟩ := by
  have hties : ((Action.create .child callee .none).perform truth sp s).memory.ties =
      s.memory.ties ++ [.standing (Activation.fresh callee none).ties] := Memory.ties_add
  refine ⟨⟨?_, ?_⟩, _, rfl, ?_⟩
  · rw [Memory.Held,hties]
    exact h.held.add (fun _ => rfl) (fun _ hw => by cases hw)
  · rw [hties]
    exact h.outlives.trans (outlives_append _)
  · rw [hties,← Memory.length_ties]
    refine ⟨by simp, fun t ht => ?_⟩
    obtain ht | ⟨-,rfl⟩ := standing_append.1 ht
    · exact absurd (List.getElem?_eq_some_iff.1 ht).1 (lt_irrefl _)
    · rfl

variable (truth) in
/-- The next round of a loop takes over what the round reports to, and the round goes. -/
theorem restart (h : s.Fine p T) (hname : Named s.memory.ties ⟨name, sp⟩) (hrestarts : p.Restarts name)
    {copies : List Action} (hcopies : ∀ a ∈ copies, a.quiet = true) :
    let s' := (.create .next name .caller :: .inheritDone :: (copies ++ [.dispose])).foldl
      (Action.perform truth sp) s
    s'.Fine p T ∧ ∃ a, s'.next = some a ∧ Named s'.memory.ties ⟨name, a⟩ := by
  simp only [foldl_cons,foldl_append,foldl_nil]
  have hmade : ((Action.create .next name .caller).perform truth sp s).memory.ties =
      s.memory.ties ++ [.standing (Activation.fresh name (s.memory.caller sp)).ties] := Memory.ties_add
  have hnext : ((Action.create .next name .caller).perform truth sp s).next =
      some s.memory.ties.length := by
    rw [Memory.length_ties]
    rfl
  have hqueue : ((Action.create .next name .caller).perform truth sp s).memory.queue = s.memory.queue :=
    rfl
  generalize (Action.create .next name .caller).perform truth sp s = s₁ at hmade hnext hqueue
  have hties : (Action.inheritDone.perform truth sp s₁).memory.ties = s.memory.ties ++
      [.standing ((Activation.fresh name (s.memory.caller sp)).ties.reportTo
        ((s₁.memory.record? sp).bind (·.ties.finished)))] := by
    rw [Action.perform,hnext,ties_retie,hmade,modify_append]
  have hqueue₂ : (Action.inheritDone.perform truth sp s₁).memory.queue = s.memory.queue := by
    rw [Action.perform,queue_write,hqueue]
  have hnext₂ : (Action.inheritDone.perform truth sp s₁).next = some s.memory.ties.length := hnext
  have hfinished : ∀ t, s.memory.ties[sp]? = some (.standing t) →
      (s₁.memory.record? sp).bind (·.ties.finished) = t.finished := fun t ht =>
    Memory.finished_eq (hmade ▸ standing_append.2 (.inl ht))
  generalize (s₁.memory.record? sp).bind (·.ties.finished) = target at hties hfinished
  have hinherited : (Action.inheritDone.perform truth sp s₁).Fine p T := by
    refine ⟨?_, by rw [hties]; exact h.outlives.trans (outlives_append _)⟩
    rw [Memory.Held,hties,hqueue₂]
    exact h.held.add (fun _ => rfl) h.held.caller
  generalize Action.inheritDone.perform truth sp s₁ = s₂ at hties hqueue₂ hnext₂ hinherited
  have hs := alike_foldl truth sp s₂ hcopies
  have hcopied := hinherited.alike hs
  generalize copies.foldl (Action.perform truth sp) s₂ = s₃ at hs hcopied
  have hlast : s₃.memory.ties[s.memory.ties.length]? =
      some (.standing ((Activation.fresh name (s.memory.caller sp)).ties.reportTo target)) := by
    rw [hs.ties,hties]
    exact standing_append.2 (.inr ⟨rfl, rfl⟩)
  have hne : s.memory.ties.length ≠ sp := hname.1.ne'
  have hnext₃ : s₃.next = some s.memory.ties.length := hs.next.trans hnext₂
  have hremoved : (Action.dispose.perform truth sp s₃).memory.ties =
      s₃.memory.ties.modify sp (Cell.remove (some s.memory.ties.length)) := by
    rw [← hnext₃]
    exact Memory.ties_remove
  have hnamed : Named s₃.memory.ties ⟨name, s.memory.ties.length⟩ :=
    ⟨(List.getElem?_eq_some_iff.1 hlast).1, fun t ht => by cases hlast.symm.trans ht; rfl⟩
  refine ⟨⟨?_, ?_⟩, s.memory.ties.length, hnext₃, ?_⟩
  · rw [Memory.Held,hremoved]
    refine hcopied.held.remove fun t a k ht hk => .inr ⟨_, _, rfl, hne, hlast, ?_, ?_, ?_⟩
    all_goals
      rw [hs.ties,hties] at ht
      have hold := (standing_append.1 ht).resolve_right fun h => hne h.1.symm
    · exact hfinished t hold
    · exact (hname.2 t hold).symm
    · rwa [hname.2 t hold]
  · rw [hremoved]
    exact hcopied.outlives.trans outlives_remove
  · rw [hremoved]
    exact hnamed.outlive outlives_remove

theorem depart (h : s.Fine p T) (hnext : s.next = none) {gifts : List Action}
    (hgifts : ∀ a ∈ gifts, a.quiet = true) :
    ((gifts ++ [Action.reportDone, .wakeCaller, .dispose]).foldl (Action.perform truth sp)
      s).Fine p T := by
  rw [foldl_append]
  have hs := alike_foldl truth sp s hgifts
  generalize gifts.foldl (Action.perform truth sp) s = s' at hs
  have h' := h.alike hs
  have hdepart : ([Action.reportDone, .wakeCaller, .dispose].foldl (Action.perform truth sp) s').memory =
      s'.memory.depart sp := by
    simp [Action.perform,Memory.depart,hs.next,hnext]
  refine ⟨?_, ?_⟩
  · rw [hdepart]
    exact h'.held.depart
  · rw [hdepart]
    exact h'.outlives.trans Memory.outlives_depart

theorem steps (h : s.Fine p T) {steps : List Step}
    (hsteps : ∀ step ∈ steps, ∃ a : Action, step = .act a ∧ a.quiet = true) :
    (steps.foldl (Step.perform truth sp) s).Fine p T :=
  foldlRecOn (motive := fun s : Scene => s.Fine p T) _ _ h fun s hs step hstep => by
    obtain ⟨a,rfl,ha⟩ := hsteps step hstep
    exact hs.alike (alike_perform ha)

end Scene.Fine

/-- What may be left of a block when another poll, or the one that called, goes on. -/
def Scene.Closes (s : Scene) (sp : Address) (step : Step) : Prop :=
  (∃ c, step = .act (.raise c)) ∨ step = .act .progress ∨ step = .act .leave ∨
    ∃ record name a, step = .act (.poll record name) ∧ (record = .child ∨ record = .next) ∧
      s.locate sp record = some a ∧ Named s.memory.ties ⟨name, a⟩

section

variable {p : Program} {T : List (Cell Ties)} {truth : Register → Bool} {sp : Address}
  {s : Scene} {r : Routine}
variable {g : GuardedOp}

theorem quiet_block (hchild : g.op.childSlot? = none) (hgoes : g.op.endsActivation = false)
    (hcall : ∀ callee args results done, g.op = .callSync callee args results done →
      p.generates callee = false) :
    ∀ step ∈ (r.block p g).steps, ∃ a : Action, step = .act a ∧ a.quiet = true := by
  obtain ⟨c,op⟩ := g
  intro step hstep
  rw [Routine.block,mem_append] at hstep
  cases op with
  | callAsync | restartLoop | ret => simp_all [Op.childSlot?,Op.endsActivation]
  | callSync callee args results done =>
    simp only [opSteps,callInPlace,hcall callee args results done rfl,progressSteps,act,
      Bool.false_eq_true, if_false,mem_map,mem_append,mem_cons,not_mem_nil,or_false] at hstep
    rcases hstep with ⟨a,((rfl | rfl | rfl) | ⟨x,-,rfl⟩) | ⟨x,-,rfl⟩,rfl⟩ | rfl <;> exact ⟨_, rfl, rfl⟩
  | makeTuple items result =>
    simp only [opSteps,progressSteps,act,mem_map,mem_append,mem_cons,mem_mapIdx,not_mem_nil,
      or_false] at hstep
    rcases hstep with ⟨a,(rfl | ⟨i,_,rfl⟩) | rfl,rfl⟩ | rfl <;> exact ⟨_, rfl, rfl⟩
  | unpackTuple tuple items =>
    simp only [opSteps,progressSteps,act,mem_map,mem_flatten,mem_cons,mem_mapIdx,not_mem_nil,
      or_false] at hstep
    rcases hstep with ⟨a,⟨_,⟨i,_,rfl⟩,ha⟩,rfl⟩ | rfl
    · simp only [mem_cons,not_mem_nil,or_false] at ha
      rcases ha with rfl | rfl <;> exact ⟨_, rfl, rfl⟩
    · exact ⟨_, rfl, rfl⟩
  | _ =>
    simp only [opSteps,progressSteps,act] at hstep
    grind [Action.quiet]

theorem Scene.Fine.when (h : s.Fine p T) {tests : List Test}
    (hactions : (s.memory.record? sp).isSome = true →
      (actions.foldl (Action.perform truth sp) s).Fine p T) :
    ((Step.when tests actions).perform truth sp s).Fine p T := by
  rw [Step.perform]
  split
  · next hpasses =>
    refine hactions ?_
    rw [Memory.passes] at hpasses
    cases hr : s.memory.record? sp with
    | none => simp [hr] at hpasses
    | some _ => rfl
  · exact h

theorem fine_callInChild (hp : p.Assigned) (hr : p.routine? r.name = some r)
    (hname : Named T ⟨r.name, sp⟩) (hchild : (callee, k) ∈ childrenIn r.ops) (h : s.Fine p T) :
    ((callInChild r callee args results k done).foldl (Step.perform truth sp) s).Fine p T := by
  rw [callInChild,foldl_append]
  have hfinish : ((done.toList.map fun c =>
      Step.when [.childDone k] [.raise c, .forget k, .clearDone k, .progress]).foldl
        (Step.perform truth sp) s).Fine p T := by
    cases done with
    | none => exact h
    | some c => exact h.when fun _ => h.settle
  generalize List.foldl _ s _ = s₁ at hfinish
  simp only [foldl_cons,foldl_nil]
  have hstart :
    ((Step.when [.childAbsent k, .not (.childDone k)] (.create (.call k) callee (.self r.name) ::
      .linkDone k :: results.mapIdx fun j x => .link (.call k) j (r.slot x))).perform truth sp
        s₁).Fine p T := by
    refine hfinish.when fun hstands => hfinish.begin hstands (hname.outlive hfinish.outlives)
      ⟨r, hr, hchild⟩ ?_
    intro a ha
    obtain ⟨j,_,rfl⟩ := mem_mapIdx.1 ha
    rfl
  generalize Step.perform truth sp s₁ _ = s₂ at hstart
  refine hstart.when fun _ => hstart.hand (hname.outlive hstart.outlives)
    (fun _ => hp.sole ⟨r, hr, hchild⟩) ?_
  · intro a ha
    obtain ⟨l,hl,ha⟩ := mem_flatten.1 ha
    obtain ⟨i,_,rfl⟩ := mem_mapIdx.1 hl
    simp only [mem_cons,not_mem_nil,or_false] at ha
    rcases ha with rfl | rfl | rfl <;> rfl

theorem quiet_garbage (garbage : List Register) : ∀ a ∈ garbageActions r garbage, a.quiet = true := by
  intro a ha
  obtain ⟨x,-,rfl⟩ := mem_map.1 ha
  rfl

/-- The steps up to one that yields leave the memory in order, and what is left of them closes a
block. -/
def Scene.Settles (p : Program) (truth : Register → Bool) (sp : Address) (s : Scene)
    (steps : List Step) : Prop :=
  ((steps.takeWhile (!·.yields)).foldl (Step.perform truth sp) s).Fine p s.memory.ties ∧
    ∀ step ∈ steps.dropWhile (!·.yields),
    ((steps.takeWhile (!·.yields)).foldl (Step.perform truth sp) s).Closes sp step

section

variable (h : s.memory.Held p)

include h

theorem settles_quiet {steps : List Step} (hsteps : ∀ step ∈ steps, ∃ a : Action, step = .act a ∧
    a.quiet = true) :
    s.Settles p truth sp steps := by
  have hgoes : ∀ step ∈ steps, (!step.yields) = true := by
    intro step hstep
    obtain ⟨a,rfl,ha⟩ := hsteps step hstep
    rw [yields_of_quiet ha]
    rfl
  rw [Scene.Settles,takeWhile_eq_self_iff.2 hgoes,dropWhile_eq_nil_iff.2 hgoes]
  exact ⟨Scene.Fine.steps ⟨h, .refl _⟩ hsteps, by simp⟩

omit h in
theorem settles_act {steps after : List Step} {step : Step}
    (hsteps : steps = act actions ++ step :: after) (hactions : ∀ a ∈ actions, (Step.act a).yields =
      false) (hstep : step.yields = true)
    (hfine : (actions.foldl (Action.perform truth sp) s).Fine p s.memory.ties)
    (hafter : ∀ x ∈ step :: after, (actions.foldl (Action.perform truth sp) s).Closes sp x) :
    s.Settles p truth sp steps := by
  have hall : ∀ x ∈ act actions, (!x.yields) = true := by simpa [act] using hactions
  rw [Scene.Settles,hsteps,takeWhile_append_of_pos hall,dropWhile_append_of_pos hall]
  simpa [hstep,act,foldl_map,Step.perform] using And.intro hfine hafter

theorem settles_restart (hr : p.routine? r.name = some r) (hname : Named s.memory.ties ⟨r.name, sp⟩)
    (hg : ⟨c, .restartLoop args garbage⟩ ∈ r.ops) :
    s.Settles p truth sp (r.block p ⟨c, .restartLoop args garbage⟩).steps := by
  have hcopies : ∀ a ∈ (List.range r.returnKinds.length).map Action.inheritResult ++
      args.mapIdx (fun i x => Action.copy .next i (r.slot x)) ++ garbageActions r garbage,
      a.quiet = true := by
    simp only [mem_append,mem_map,mem_mapIdx]
    rintro a ((⟨j,-,rfl⟩ | ⟨i,_,rfl⟩) | ha)
    · rfl
    · rfl
    · exact quiet_garbage garbage a ha
  have hsteps : (r.block p ⟨c, .restartLoop args garbage⟩).steps =
      act (Action.create .next r.name .caller :: Action.inheritDone ::
        ((List.range r.returnKinds.length).map Action.inheritResult ++
          args.mapIdx (fun i x => Action.copy .next i (r.slot x)) ++ garbageActions r
          garbage ++ [Action.dispose])) ++
        Step.act (.poll .next r.name) :: [Step.act .leave] := by
    simp [Routine.block,opSteps,progressSteps,act]
  obtain ⟨hfine,a,hnext,hnamed⟩ :=
    Scene.Fine.restart truth ⟨h, .refl _⟩ hname ⟨r, hr, _, hg, _, _, rfl⟩ hcopies
  refine settles_act hsteps ?_ rfl hfine ?_
  · refine forall_mem_cons.2 ⟨rfl, forall_mem_cons.2 ⟨rfl, forall_mem_append.2 ⟨?_, ?_⟩⟩⟩
    · exact fun a ha => yields_of_quiet (hcopies a ha)
    · simp [Step.yields]
  · rintro _ (_ | ⟨_,_ | ⟨_,⟨⟩⟩⟩)
    · exact .inr (.inr (.inr ⟨_, _, a, rfl, .inr rfl, hnext, hnamed⟩))
    · exact .inr (.inr (.inl rfl))

theorem settles_ret (hnext : s.next = none) {values : List Register} :
    s.Settles p truth sp (r.block p ⟨c, .ret values garbage⟩).steps := by
  have hgifts : ∀ a ∈ values.mapIdx (fun j x => Action.giveResult j (r.slot x)) ++
    garbageActions r garbage,
      a.quiet = true := by
    simp only [mem_append,mem_mapIdx]
    rintro a (⟨j,_,rfl⟩ | ha)
    · rfl
    · exact quiet_garbage garbage a ha
  have hsteps : (r.block p ⟨c, .ret values garbage⟩).steps =
      act (values.mapIdx (fun j x => Action.giveResult j (r.slot x)) ++ garbageActions r garbage ++
        [Action.reportDone, .wakeCaller, .dispose]) ++ Step.act .leave :: [] := by
    simp [Routine.block,opSteps,progressSteps,act]
  refine settles_act hsteps ?_ rfl (Scene.Fine.depart ⟨h, .refl _⟩ hnext hgifts) ?_
  · refine forall_mem_append.2 ⟨fun a ha => yields_of_quiet (hgifts a ha), ?_⟩
    simp [Step.yields]
  · rintro _ (_ | ⟨_,⟨⟩⟩)
    exact .inr (.inr (.inl rfl))

theorem settles_callInPlace (hcallee : p.generates callee = true) :
    s.Settles p truth sp (r.block p ⟨c, .callSync callee args results done⟩).steps := by
  have hlinks : ∀ a ∈ (args.map r.slot).mapIdx (fun i x => Action.copy .child i x) ++
      (results.map r.slot).mapIdx (fun j x => Action.link .child j x), a.quiet = true := by
    simp only [mem_append,mem_mapIdx]
    rintro a (⟨i,_,rfl⟩ | ⟨j,_,rfl⟩) <;> rfl
  have hsteps : (r.block p ⟨c, .callSync callee args results done⟩).steps =
      act (Action.create .child callee
        .none :: ((args.map r.slot).mapIdx (fun i x => Action.copy .child i x) ++
        (results.map r.slot).mapIdx fun j x => Action.link .child j x)) ++
      Step.act (.poll .child callee) ::
        (act (done.toList.map Action.raise) ++ [Step.act .progress]) := by
    simp [Routine.block,opSteps,progressSteps,callInPlace,hcallee,act]
  obtain ⟨hmade,a,hchild,hnamed⟩ := Scene.Fine.make (p := p) truth ⟨h, .refl s.memory.ties⟩
  have hs := alike_foldl truth sp ((Action.create .child callee .none).perform truth sp s) hlinks
  refine settles_act hsteps ?_ rfl (hmade.alike hs) ?_
  · exact forall_mem_cons.2 ⟨rfl, fun a ha => yields_of_quiet (hlinks a ha)⟩
  · intro step hstep
    simp only [act,mem_cons,mem_append,mem_map,not_mem_nil,or_false] at hstep
    rcases hstep with rfl | ⟨_,⟨d,-,rfl⟩,rfl⟩ | rfl
    · refine .inr (.inr (.inr ⟨_, _, a, rfl, .inl rfl, hs.child.trans hchild, ?_⟩))
      rw [foldl_cons,hs.ties]
      exact hnamed
    · exact .inl ⟨d, rfl⟩
    · exact .inr (.inl rfl)

theorem settles_callInChild (hp : p.Assigned) (hr : p.routine? r.name = some r)
    (hname : Named s.memory.ties ⟨r.name, sp⟩)
    (hg : ⟨c, .callAsync callee args results k done⟩ ∈ r.ops) :
    s.Settles p truth sp (r.block p ⟨c, .callAsync callee args results k done⟩).steps := by
  have hsteps : (r.block p ⟨c, .callAsync callee args results k done⟩).steps =
      callInChild r callee args results k done := by
    simp [Routine.block,opSteps,progressSteps]
  have hwhen : ∀ step ∈ callInChild r callee args results k done, (!step.yields) = true := by
    intro step hstep
    simp only [callInChild,mem_append,mem_map,mem_cons,not_mem_nil,or_false] at hstep
    rcases hstep with ⟨c,-,rfl⟩ | rfl | rfl <;> rfl
  rw [Scene.Settles,hsteps,takeWhile_eq_self_iff.2 hwhen,dropWhile_eq_nil_iff.2 hwhen]
  refine ⟨fine_callInChild hp hr hname ?_ ⟨h, .refl _⟩, by simp⟩
  exact mem_flatMap.2 ⟨_, hg, by simp [Op.child]⟩

theorem settles_block (hp : p.Assigned) (hr : p.routine? r.name = some r) (hg : g ∈ r.ops)
    (hname : Named s.memory.ties ⟨r.name, sp⟩) (hnext : s.next = none) :
    s.Settles p truth sp (r.block p g).steps := by
  obtain ⟨c,op⟩ := g
  cases op with
  | callAsync => exact settles_callInChild h hp hr hname hg
  | restartLoop => exact settles_restart h hr hname hg
  | ret => exact settles_ret h hnext
  | callSync callee args results done =>
    cases hcallee : p.generates callee with
    | false => exact settles_quiet h (quiet_block rfl rfl fun _ _ _ _ heq => by cases heq; exact hcallee)
    | true => exact settles_callInPlace h hcallee
  | _ => exact settles_quiet h (quiet_block rfl rfl (by simp))

end

end

namespace Scene

variable {s s' : Scene} {sp : Address} {step : Step}

theorem Closes.outlive (h : s.Closes sp step) (hchild : s'.child = s.child) (hnext : s'.next = s.next)
    (hT : Outlives s.memory.ties s'.memory.ties) : s'.Closes sp step := by
  rcases h with h | h | h | ⟨record,name,a,rfl,hrecord,ha,hnamed⟩
  · exact .inl h
  · exact .inr (.inl h)
  · exact .inr (.inr (.inl h))
  · refine .inr (.inr (.inr ⟨record, name, a, rfl, hrecord, ?_, hnamed.outlive hT⟩))
    rcases hrecord with rfl | rfl
    · exact hchild.trans ha
    · exact hnext.trans ha

theorem settles_closes {truth : Register → Bool} {steps : List Step} (h : s.memory.Held p)
    (hsteps : ∀ step ∈ steps, s.Closes sp step) : s.Settles p truth sp steps := by
  have hquiet : ∀ step ∈ steps.takeWhile (!·.yields), ∃ a : Action, step = .act a ∧ a.quiet = true := by
    intro step hstep
    have hgoes := mem_takeWhile_imp hstep
    rcases hsteps step ((takeWhile_sublist _).subset hstep) with ⟨c,rfl⟩ | rfl | rfl | ⟨_,_,_,rfl,-⟩
    · exact ⟨_, rfl, rfl⟩
    · exact ⟨_, rfl, rfl⟩
    · cases hgoes
    · cases hgoes
  have hs : s.Alike ((steps.takeWhile (!·.yields)).foldl (Step.perform truth sp) s) :=
    foldlRecOn (motive := s.Alike) _ _ (.refl s) fun s' hs' step hstep => by
      obtain ⟨a,rfl,ha⟩ := hquiet step hstep
      exact hs'.trans (alike_perform ha)
  refine ⟨Fine.alike ⟨h, .refl _⟩ hs, fun step hstep => ?_⟩
  refine (hsteps step ((dropWhile_sublist _).subset hstep)).outlive hs.child hs.next ?_
  rw [hs.ties]
  exact .refl _

end Scene

end CSource

end Polled
