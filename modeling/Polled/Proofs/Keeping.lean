import Polled.Proofs.Shapes
import Polled.Proofs.Starting
import Polled.Proofs.Watching

/-!
What a draft keeps in order while it grows.

`Draft.Kept` is one invariant over all of a draft. `Safe` says of a step that it keeps the invariant and
that its watched twin does the same, without a crash. A routine whose draft owes nothing is `WellFormed`.
-/

namespace Polled

open Lower List

variable {c : Condition} {d d' : Draft} {r : Register} {s : Scope} {x : String} {rs : List Register}

/-- The condition holds from the start, or a branch among the operations can set it. -/
def Opened (gs : List GuardedOp) (c : Condition) : Prop :=
  c = .entry ∨ ∃ g ∈ gs, ∃ t a b, g.op = .branch t a b ∧ (c = a ∨ c = b)

theorem Opened.mono {gs hs : List GuardedOp} (h : Opened gs c) (hsub : gs ⊆ hs) : Opened hs c :=
  h.imp_right fun ⟨g, hg, hop⟩ => ⟨g, hsub hg, hop⟩

def Op.child : Op → List (String × ChildSlot)
  | .callAsync callee _ _ k _ => [(callee, k)]
  | _ => []

def childrenIn (gs : List GuardedOp) : List (String × ChildSlot) := gs.flatMap (·.op.child)

/-- The layout of a routine and its operations fit together. -/
structure Routine.WellFormed (r : Routine) : Prop where
  slots_length : r.slots.length = r.registerKinds.length
  slot_root : ∀ i s : Register, r.slots[i]? = some s →
    s ≤ i ∧ r.slots[s]? = some s ∧ r.registerKinds[s]? = r.registerKinds[i]?
  registers_lt : ∀ g ∈ r.ops, ∀ x ∈ g.op.mentions, x < r.slots.length
  conditions_lt : ∀ g ∈ r.ops, ∀ c ∈ g.condition :: g.op.completionFlags, c < r.conditionCount
  /-- Every condition but the first is a target of one branch or the flag of one other operation. -/
  set_once : ∀ c : Condition, 1 ≤ c → c < r.conditionCount → (flagsIn r.ops).count c = 1
  /-- The branch that opens an operation comes before it. -/
  governed : ∀ before g after, r.ops = before ++ g :: after → Opened before g.condition
  /-- The child slots in the order of the operations, with their callees. -/
  children : childrenIn r.ops = r.childCalls.zipIdx

/-- What has been handed out and is not yet in an operation. -/
structure Owed where
  flags : List Condition
  calls : List (String × ChildSlot)

namespace Owed

def nothing : Owed := ⟨[], []⟩

def flag (o : Owed) (c : Condition) : Owed := { o with flags := c :: o.flags }

/-- The operation settles what is owed down to `o'`. -/
def Pays (o : Owed) (op : Op) (o' : Owed) : Prop :=
  o.flags.Perm (op.completionFlags ++ o'.flags) ∧ o.calls = op.child ++ o'.calls

end Owed

variable {o : Owed}

namespace Draft

structure Kept (d : Draft) (o : Owed) : Prop where
  wf : d.registers.layout.WellFormed
  scope : ∀ r ∈ d.scope.registers, r < d.registers.size
  ops : ∀ g ∈ d.ops, ∀ r ∈ g.op.mentions, r < d.registers.size
  current : Opened d.ops d.current
  governed : ∀ before g after, d.ops = before ++ g :: after → Opened before g.condition
  count : 0 < d.control.conditionCount
  flags : (flagsIn d.ops ++ o.flags).Perm (List.range' 1 (d.control.conditionCount - 1))
  calls : childrenIn d.ops ++ o.calls = d.control.childCalls.zipIdx
  closures : ∀ r ∈ d.closures, r.WellFormed

/-- Registers, their kinds and operations stay, and more may come. -/
structure Precedes (d d' : Draft) : Prop where
  size_le : d.registers.size ≤ d'.registers.size
  kind_eq : ∀ r, r < d.registers.size → d'.registers.kind r = d.registers.kind r
  ops_subset : d.ops ⊆ d'.ops

theorem Precedes.refl (d : Draft) : d.Precedes d := ⟨le_rfl, fun _ _ => rfl, List.Subset.refl _⟩

theorem Precedes.trans {e : Draft} (h : d.Precedes e) (h' : e.Precedes d') : d.Precedes d' where
  size_le := h.size_le.trans h'.size_le
  kind_eq r hr := (h'.kind_eq r (hr.trans_le h.size_le)).trans (h.kind_eq r hr)
  ops_subset := List.Subset.trans h.ops_subset h'.ops_subset

theorem Precedes.lt (h : d.Precedes d') (hr : r < d.size) : r < d'.size := hr.trans_le h.size_le

theorem Precedes.opened (h : d.Precedes d') (hc : Opened d.ops c) : Opened d'.ops c :=
  hc.mono h.ops_subset

theorem Kept.flags_lt (h : d.Kept o) (hc : c ∈ flagsIn d.ops ++ o.flags) :
    c < d.control.conditionCount := by
  have hlt := (mem_range'_1.1 (h.flags.mem_iff.1 hc)).2
  have hcount := h.count
  exact hlt.trans_eq (by omega)

theorem Kept.opened_lt (h : d.Kept o) (hc : Opened d.ops c) : c < d.count := by
  obtain rfl | ⟨g,hg,t,a,b,hop,hcab⟩ := hc
  · exact h.count
  · refine h.flags_lt (mem_append_left _ (mem_flatMap.2 ⟨g, hg, ?_⟩))
    rw [hop]
    simpa [Op.completionFlags] using hcab

theorem Kept.wellFormed (h : d.Kept .nothing) (f : Frame) : (d.routine f).WellFormed where
  slots_length := by simp [routine,Registers.slots,Registers.kinds]
  slot_root i s hs := by
    have hi : i < d.size := by
      simpa [routine,Registers.slots,Registers.size] using (List.getElem?_eq_some_iff.1 hs).1
    have hslot : ∀ r, r < d.size → (d.routine f).slots[r]? = some (d.registers.resolve r) := by
      intro r hr
      obtain ⟨c,hc⟩ := d.registers.exists_cell hr
      simp [routine,Registers.slots,Registers.resolve,hc]
    have hkind : ∀ r, r < d.size → (d.routine f).registerKinds[r]? = some (d.registers.kind r) := by
      intro r hr
      obtain ⟨c,hc⟩ := d.registers.exists_cell hr
      simp [routine,Registers.kinds,Registers.kind,hc]
    obtain rfl : d.registers.resolve i = s := Option.some.inj ((hslot i hi).symm.trans hs)
    have hroot : d.registers.resolve i < d.size := h.wf.root_lt hi
    refine ⟨h.wf.root_le i, (hslot _ hroot).trans (congrArg some (h.wf.root_root i)), ?_⟩
    rw [hkind _ hroot,hkind i hi]
    exact congrArg some (h.wf.kind_root i)
  registers_lt g hg x hx := by
    simpa [routine,Registers.slots,Registers.size] using h.ops g hg x hx
  conditions_lt g hg c hc := by
    obtain rfl | hc := mem_cons.1 hc
    · obtain ⟨before,after,hops⟩ := append_of_mem hg
      exact h.opened_lt ((h.governed before g after hops).mono (by
        have : d.ops = before ++ g :: after := hops
        simp [this]))
    · exact h.flags_lt (mem_append_left _ (mem_flatMap.2 ⟨g, hg, hc⟩))
  set_once c hc hlt := by
    have hperm : (flagsIn d.ops).Perm (List.range' 1 (d.control.conditionCount - 1)) := by
      simpa [Owed.nothing] using h.flags
    have hcount := h.count
    refine (hperm.count_eq c).trans (count_eq_one_of_mem nodup_range' (mem_range'_1.2 ⟨hc, ?_⟩))
    exact hlt.trans_eq (show d.control.conditionCount = 1 + (d.control.conditionCount - 1) by omega)
  governed := h.governed
  children := by simpa [Owed.nothing,routine] using h.calls

section Changes

variable {d : Draft} {o : Owed}

section

variable (h : d.Kept o)

include h

theorem Kept.of_registers {registers : Registers} (heq : registers.layout = d.registers.layout) :
    ({ d with registers } : Draft).Kept o := by
  have hsize : registers.size = d.size := congrArg Layout.size heq
  exact { h with
    wf := heq ▸ h.wf
    scope := fun r hr => hsize ▸ h.scope r hr
    ops := fun g hg r hr => hsize ▸ h.ops g hg r hr }

theorem Kept.rescope {scope : Scope} (hs : ∀ r ∈ scope.registers, r < d.size) :
    ({ d with scope } : Draft).Kept o :=
  { h with scope := hs }

theorem Kept.under (hc : Opened d.ops c) : ({ d with current := c } : Draft).Kept o :=
  { h with current := hc }

theorem Kept.relog (log : List Event) : ({ d with log } : Draft).Kept o := { h with }

theorem Kept.reserve (k : Kind) : (d.reserve k).Kept o := by
  have hsize : (d.reserve k).registers.size = d.registers.size + 1 := Registers.size_alloc _ k
  exact { h with
    wf := (d.registers.layout_alloc k).symm ▸ h.wf.reserve k
    scope := fun r hr => hsize ▸ Nat.lt_succ_of_lt (h.scope r hr)
    ops := fun g hg r hr => hsize ▸ Nat.lt_succ_of_lt (h.ops g hg r hr) }

omit h in
theorem Precedes.reserve (d : Draft) (k : Kind) : d.Precedes (d.reserve k) where
  size_le := (Registers.size_alloc d.registers k).symm ▸ Nat.le_succ _
  kind_eq r hr := (d.registers.kind_alloc k r).trans (if_neg hr.ne)
  ops_subset := List.Subset.refl _

theorem Kept.unite {a b : Register} (ha : a < d.size) (hb : b < d.size)
    (hkind : d.registers.kind a = d.registers.kind b) :
    ({ d with registers := (d.registers.join a b).2 } : Draft).Kept o := by
  have hsize := Registers.size_join d.registers a b
  exact { h with
    wf := (d.registers.layout_join ha hb h.wf).symm ▸ h.wf.merge ha hb hkind
    scope := fun r hr => hsize ▸ h.scope r hr
    ops := fun g hg r hr => hsize ▸ h.ops g hg r hr }

theorem Kept.tick : d.tick.Kept (o.flag d.control.conditionCount) := by
  have hcount := h.count
  refine { h with count := Nat.succ_pos _, flags := ?_ }
  show (flagsIn d.ops ++ d.control.conditionCount :: o.flags).Perm
    (List.range' 1 (d.control.conditionCount + 1 - 1))
  obtain ⟨n,hn⟩ : ∃ n, d.control.conditionCount = n + 1 := ⟨d.control.conditionCount - 1, by omega⟩
  have hflags := h.flags
  rw [hn,Nat.add_sub_cancel] at hflags
  rw [hn,Nat.add_sub_cancel,List.range'_concat,Nat.mul_comm,Nat.mul_one,Nat.add_comm 1 n]
  exact (perm_middle.trans (hflags.cons _)).trans (perm_append_singleton _ _).symm

omit h in
theorem Kept.withChild {flags : List Condition} (h : d.Kept ⟨flags, []⟩) (callee : String) :
    (d.withChild callee).Kept ⟨flags, [(callee, d.control.childCalls.length)]⟩ := by
  refine { h with calls := ?_ }
  show childrenIn d.ops ++ [(callee, d.control.childCalls.length)] =
    (d.control.childCalls ++ [callee]).zipIdx
  have hcalls : childrenIn d.ops = d.control.childCalls.zipIdx := by simpa using h.calls
  rw [hcalls,zipIdx_append]
  simp

theorem Kept.emit {o' : Owed} {c : Condition} {op : Op} (hpays : o.Pays op o') (hc : Opened d.ops c)
    (hop : ∀ r ∈ op.mentions, r < d.size) : (d.emit c op).Kept o' where
  wf := h.wf
  scope := h.scope
  ops g hg := by
    obtain hg | hg := mem_append.1 hg
    · exact h.ops g hg
    · obtain rfl := mem_singleton.1 hg
      exact hop
  current := h.current.mono (subset_append_left _ _)
  governed before g after heq := by
    have heq : d.ops ++ [⟨c, op⟩] = before ++ g :: after := heq
    obtain ⟨rest,rfl,hrest⟩ | ⟨rest,hops,hrest⟩ := append_eq_append_iff.1 heq
    · cases rest with
      | nil =>
        obtain rfl : (⟨c, op⟩ : GuardedOp) = g := by simpa using (cons.inj hrest).1
        simpa using hc
      | cons g' rest => simp at hrest
    · cases rest with
      | nil =>
        obtain rfl : g = ⟨c, op⟩ := by simpa using (cons.inj hrest).1
        simpa [hops] using hc
      | cons g' rest =>
        obtain ⟨rfl,-⟩ := cons.inj hrest
        exact h.governed before g rest hops
  count := h.count
  flags := by
    show (flagsIn (d.ops ++ [⟨c, op⟩]) ++ o'.flags).Perm (List.range' 1 (d.count - 1))
    have hpaid := (hpays.1.append_left (flagsIn d.ops)).symm.trans h.flags
    simpa [append_assoc] using hpaid
  calls := by
    show childrenIn (d.ops ++ [⟨c, op⟩]) ++ o'.calls = d.control.childCalls.zipIdx
    simpa [childrenIn,hpays.2] using h.calls
  closures := h.closures

theorem Kept.enclose {routines : List Routine} (hr : ∀ r ∈ routines, r.WellFormed) :
    ({ d with closures := d.closures ++ routines } : Draft).Kept o :=
  { h with closures := fun r hm => (mem_append.1 hm).elim (h.closures r) (hr r) }

end

end Changes

end Draft

theorem Scope.mem_registers_bind {t : Register} (h : t ∈ (s.bind x r).registers) :
    t = r ∨ t ∈ s.registers := by
  obtain ⟨bindings⟩ := s
  simp only [Scope.bind,registers] at h ⊢
  induction bindings with
  | nil => exact .inl (by simpa [insertBinding] using h)
  | cons b rest ih =>
    unfold insertBinding at h
    split at h
    · exact (mem_cons.1 h).imp_right (mem_cons_of_mem _)
    split at h
    · exact mem_cons.1 h
    · obtain h | h := mem_cons.1 h
      · exact .inr (h ▸ mem_cons_self)
      · exact (ih h).imp_right (mem_cons_of_mem _)

theorem Scope.registers_forget_subset (s : Scope) (f : Registers) (r : Register) :
    (s.forget f r).registers ⊆ s.registers :=
  map_subset _ filter_sublist.subset

theorem Scope.mem_registers_of_get? (h : s.get? x = some r) : r ∈ s.registers := by
  obtain ⟨_,_,hs,-⟩ := List.lookup_eq_some_iff.1 h
  exact mem_map.2 ⟨(x, r), by simp [hs], rfl⟩

section Safe

variable {α β : Type} {d : Draft} {o o' o'' : Owed}

/-- The watched step ends like the step, and a draft that the step leaves has the property. -/
def Follows (d : Draft) (w : Watch α) (l : Lower α) (Q : α → Draft → Prop) : Prop :=
  ∀ t : Forest, t.Stands d.registers.layout →
    match l d with
    | .error h => w ⟨d, t⟩ = .error (.halt h)
    | .ok (a, e) => Q a e ∧ ∃ t', w ⟨d, t⟩ = .ok (a, ⟨e, t'⟩) ∧ t'.Stands e.registers.layout

/-- The step leaves a draft in order, and the watched step does the same. -/
def Safe (d : Draft) (o : Owed) (w : Watch α) (l : Lower α) (o' : Owed) (E : α → Draft → Prop) : Prop :=
  d.Kept o → Follows d w l fun a e => e.Kept o' ∧ d.Precedes e ∧ E a e

/-- Looking around finds an answer and changes nothing but the forest. -/
def Peeks (d : Draft) (w : Watch α) (a : α) : Prop :=
  ∀ t : Forest, t.Stands d.registers.layout → ∃ t', w ⟨d, t⟩ = .ok (a, ⟨d, t'⟩) ∧
    t'.Stands d.registers.layout

namespace Peeks

variable {w : Watch α} {a : α}

theorem pure (a : α) : Peeks d (Pure.pure a) a := fun t ht => ⟨t, rfl, ht⟩

theorem bind {f : α → Watch β} {b : β} (h : Peeks d w a) (h' : Peeks d (f a) b) :
    Peeks d (w >>= f) b := by
  intro t ht
  obtain ⟨t',hw,ht'⟩ := h t ht
  obtain ⟨t'',hf,ht''⟩ := h' t' ht'
  refine ⟨t'', ?_, ht''⟩
  show (w ⟨d, t⟩).bind (fun r => f r.1 r.2) = _
  rw [hw]
  exact hf

theorem get : Peeks d (.plain MonadState.get) d := fun t ht => ⟨t, rfl, ht⟩

theorem look (hr : r < d.size) : Peeks d (.look r) () := by
  intro t ht
  have hlen : r < t.parent.length := ht.length.symm ▸ hr
  exact ⟨t, if_pos hlen, ht⟩

theorem lookAll (hrs : ∀ r ∈ rs, r < d.size) : Peeks d (.lookAll rs) () := by
  induction rs with
  | nil => exact .pure ()
  | cons r rs ih => exact (look (hrs r mem_cons_self)).bind (ih fun t ht => hrs t (mem_cons_of_mem _ ht))

section

variable (hwf : d.registers.layout.WellFormed)

include hwf

theorem resolve (hr : r < d.size) : Peeks d (.resolve r) (d.registers.resolve r) := by
  intro t ht
  obtain ⟨t',hfind,ht'⟩ := ht.resolve_eq hwf hr
  refine ⟨t', ?_, ht'⟩
  simp only [Watch.resolve,hfind]
  exact if_pos rfl

theorem resolveAll (hrs : ∀ r ∈ rs, r < d.size) : Peeks d (.resolveAll rs) () := by
  induction rs with
  | nil => exact .pure ()
  | cons r rs ih =>
    exact (resolve hwf (hrs r mem_cons_self)).bind (ih fun t ht => hrs t (mem_cons_of_mem _ ht))

theorem members (hr : r < d.size) : Peeks d (.members r) () :=
  (resolve hwf hr).bind <| get.bind <| resolveAll hwf fun _ ht =>
    d.registers.lt_size_of_isLive (mem_filter.1 ht).2

omit hwf in
theorem aliases (hd : d.Kept o) (hr : r < d.size) : Peeks d (.aliases r) () :=
  (resolve hd.wf hr).bind <| get.bind <| resolveAll hd.wf hd.scope

theorem survey : Peeks d .survey () :=
  get.bind <| resolveAll hwf fun _ ht => mem_range.1 (mem_filter.1 ht).1

end

end Peeks

namespace Safe

variable {w : Watch α} {l : Lower α} {E E' : α → Draft → Prop}

theorem mono (h : Safe d o w l o' E) (hE : ∀ a e, E a e → E' a e) : Safe d o w l o' E' := by
  intro hd t ht
  have := h hd t ht
  split
  · next heq => rwa [heq] at this
  · next heq =>
    rw [heq] at this
    obtain ⟨⟨hk,hp,hE'⟩,hw⟩ := this
    exact ⟨⟨hk, hp, hE _ _ hE'⟩, hw⟩

theorem pure (a : α) (h : E a d) : Safe d o (Pure.pure a) (Pure.pure a) o E :=
  fun hd t ht => ⟨⟨hd, .refl d, h⟩, t, rfl, ht⟩

theorem bind {f : α → Watch β} {g : α → Lower β} {F : β → Draft → Prop} (h : Safe d o w l o' E)
    (h' : ∀ a e, d.Precedes e → E a e → Safe e o' (f a) (g a) o'' F) :
    Safe d o (w >>= f) (l >>= g) o'' F := by
  intro hd t ht
  have hfirst := h hd t ht
  have hw : (w >>= f) ⟨d, t⟩ = (w ⟨d, t⟩).bind fun r => f r.1 r.2 := rfl
  have hl : (l >>= g) d = (l d).bind fun r => g r.1 r.2 := rfl
  rw [hw,hl]
  cases hld : l d with
  | error halt =>
    rw [hld] at hfirst
    rw [hfirst]
    rfl
  | ok r =>
    obtain ⟨a,e⟩ := r
    rw [hld] at hfirst
    obtain ⟨⟨hk,hp,hE⟩,t',hwd,ht'⟩ := hfirst
    have hrest := h' a e hp hE hk t' ht'
    rw [hwd]
    simp only [Except.bind]
    cases hge : g a e with
    | error halt => rwa [hge] at hrest
    | ok r =>
      rw [hge] at hrest
      obtain ⟨⟨hk',hp',hF⟩,hrest⟩ := hrest
      exact ⟨⟨hk', hp.trans hp', hF⟩, hrest⟩

theorem plain (h : d.Kept o → ∀ a e, l d = .ok (a, e) →
    e.registers.layout = d.registers.layout ∧ e.Kept o' ∧ d.ops ⊆ e.ops ∧ E a e) : Safe d o
      (.plain l) l o' E := by
  intro hd t ht
  cases hld : l d with
  | error halt => simp [Watch.plain,hld]
  | ok r =>
    obtain ⟨a,e⟩ := r
    obtain ⟨hlayout,hk,hops,hE⟩ := h hd a e hld
    have hp : d.Precedes e := ⟨(congrArg Layout.size hlayout).symm.le,
      fun r _ => congrFun (congrArg Layout.kind hlayout) r, hops⟩
    exact ⟨⟨hk, hp, hE⟩, t, by simp [Watch.plain,hld], hlayout.symm ▸ ht⟩

theorem peek {f : β → Watch α} {b : β} {look : Watch β} (h : d.Kept o → Peeks d look b)
    (h' : Safe d o (f b) l o' E) :
    Safe d o (look >>= f) l o' E := by
  intro hd t ht
  obtain ⟨t',hlook,ht'⟩ := h hd t ht
  have hw : (look >>= f) ⟨d, t⟩ = f b ⟨d, t'⟩ := by
    show (look ⟨d, t⟩).bind (fun r => f r.1 r.2) = _
    rw [hlook]
    rfl
  rw [hw]
  exact h' hd t' ht'

theorem of_peeks {a : α} (h : d.Kept o → Peeks d w a) (hE : E a d) : Safe d o w (Pure.pure a) o E := by
  intro hd t ht
  obtain ⟨t',hw,ht'⟩ := h hd t ht
  exact ⟨⟨hd, .refl d, hE⟩, t', hw, ht'⟩

theorem found (h : Safe d o w l o' E) : Safe d o w l o' fun a e => E a e ∧ l d = .ok (a, e) := by
  intro hd t ht
  have hstep := h hd t ht
  cases hl : l d with
  | error halt => rwa [hl] at hstep
  | ok r =>
    rw [hl] at hstep
    obtain ⟨⟨hk,hp,hE⟩,hw⟩ := hstep
    exact ⟨⟨hk, hp, hE, rfl⟩, hw⟩

theorem get {f : Draft → Watch α} {g : Draft → Lower α} (h : Safe d o (f d) (g d) o' E) :
    Safe d o (.plain MonadState.get >>= f) (MonadState.get >>= g) o' E := h

theorem get_right {g : Draft → Lower α} (h : Safe d o w (g d) o' E) :
    Safe d o w (MonadState.get >>= g) o' E := h

theorem ite {c : Prop} [Decidable c] {w' : Watch α} {l' : Lower α} (h : c → Safe d o w l o' E)
    (h' : ¬c → Safe d o w' l' o' E) : Safe d o (if c then w else w') (if c then l else l') o' E := by
  split
  · next hc => exact h hc
  · next hc => exact h' hc

theorem refuse (fault : SourceFault) (span : Span) :
    Safe d o (.plain (Lower.refuse fault span)) (Lower.refuse fault span) o' E :=
  plain fun _ _ _ h => ((refuse_eq_ok _ _ _).1 h).elim

theorem refuse_bind (fault : SourceFault) (span : Span) (f : β → Watch α) (g : β → Lower α) :
    Safe d o (.plain (Lower.refuse fault span) >>= f) (Lower.refuse fault span >>= g) o' E :=
  fun _ _ _ => rfl

end Safe

end Safe

end Polled
