import Polled.Proofs.Drafting
import Polled.Proofs.Ownership

/-!
The passage at which a draft stands, and what the primitive steps of lowering do to it.
-/

namespace Polled

namespace Registers

def layout (f : Registers) : Layout := ⟨f.size, f.resolve, f.kind⟩

/-- Owned values on the heap among registers with the given flags. -/
def owns (f : Registers) (live : Register → Bool) (r : Register) : Prop :=
  live r = true ∧ (f.kind r).ownsHeap = true

theorem layout_alloc (f : Registers) (k : Kind) : (f.alloc k).2.layout = f.layout.reserve k := by
  have hroot : (f.alloc k).2.resolve = f.resolve := funext (f.resolve_alloc k)
  have hkind : (f.alloc k).2.kind = Function.update f.kind f.size k := by
    funext r
    rw [f.kind_alloc k r,Function.update_apply]
  simp only [layout,Layout.reserve,size_alloc,hroot,hkind]

@[simp] theorem layout_release (f : Registers) (r : Register) : (f.release r).layout = f.layout := by
  have hroot : (f.release r).resolve = f.resolve := funext (f.resolve_release r)
  have hkind : (f.release r).kind = f.kind := funext (f.kind_release r)
  simp only [layout,size_release,hroot,hkind]

@[simp] theorem layout_withLive (f : Registers) (flags : List Bool) :
    (f.withLive flags).layout = f.layout := by
  have hroot : (f.withLive flags).resolve = f.resolve := funext (f.resolve_withLive flags)
  have hkind : (f.withLive flags).kind = f.kind := funext (f.kind_withLive flags)
  simp only [layout,size_withLive,hroot,hkind]

theorem layout_join (f : Registers) {a b : Register} (ha : a < f.size) (hb : b < f.size)
    (hwf : f.layout.WellFormed) : (f.join a b).2.layout = f.layout.merge a b := by
  have hroot : (f.join a b).2.resolve = (f.layout.merge a b).root := by
    funext r
    rw [Layout.merge_root]
    rcases lt_or_ge r f.size with hr | hr
    · exact f.resolve_join a b r hr
    · rw [resolve_of_size_le _ (by rwa [size_join])]
      show r = if f.resolve r = max (f.resolve a) (f.resolve b) then _ else f.resolve r
      rw [f.resolve_of_size_le hr,if_neg]
      have h1 : f.resolve a < f.size := hwf.root_lt ha
      have h2 : f.resolve b < f.size := hwf.root_lt hb
      exact ((Nat.max_lt.2 ⟨h1, h2⟩).trans_le hr).ne'
  have hkind : (f.join a b).2.kind = f.kind := funext (f.kind_join a b)
  simp only [layout,size_join,hroot,hkind]
  rfl

end Registers

namespace Draft

variable {callees : Callees} {strict : Prop} {floor : Nat} {d : Draft}
variable {T : List Op} {H P : List Register} {r : Register}

/-- Where a path with the operations `T` stands when `H` is held and `P` given up. -/
def along (d : Draft) (T : List Op) (H P : List Register) : Passage where
  layout := d.registers.layout
  owned := d.registers.owns d.registers.isLive
  scope := d.scope.get?
  trace := T
  held := H
  pending := P

/-- The draft is in order, whatever path it is looked at from. -/
structure Valid (d : Draft) : Prop where
  sound : (d.along [] [] []).Sound
  sorted : d.scope.Sorted

theorem Valid.along (hd : d.Valid) (hT : ∀ op ∈ T, ∀ r ∈ op.mentions, r < d.size)
    (hH : ∀ r ∈ H, r < d.size) (hP : ∀ r ∈ P, r < d.size) : (d.along T H P).Sound where
  wf := hd.sound.wf
  bound r hr := by
    rcases hr with (ho | ⟨x,hx⟩ | hm | hp) | ⟨op,hop,hr⟩
    · exact hd.sound.lt_of_owned ho
    · exact hd.sound.lt_of_scope hx
    · exact hH r hm
    · exact hP r hp
    · exact hT op hop r hr
  heap := hd.sound.heap
  single := hd.sound.single

theorem Valid.of_along (h : (d.along T H P).Sound) (hsorted : d.scope.Sorted) : d.Valid where
  sorted := hsorted
  sound :=
    { wf := h.wf
      heap := h.heap
      single := h.single
      bound := by
        rintro r ((ho | hx | hm | hp) | ⟨_,hop,-⟩)
        · exact h.bound r (.inl (.inl ho))
        · exact h.bound r (.inl (.inr (.inl hx)))
        · cases hm
        · cases hp
        · cases hop }

theorem along_reserve (k : Kind) : (d.reserve k).along T (d.size :: H) P = { d.along T H P with
        layout := d.registers.layout.reserve k
        owned := fun r => (d.along T H P).owned r ∨ r = d.size ∧ k.ownsHeap = true
        held := d.size :: H } := by
  have howned : (d.reserve k).registers.owns (d.reserve k).registers.isLive =
      fun r => d.registers.owns d.registers.isLive r ∨ r = d.size ∧ k.ownsHeap = true := by
    funext r
    simp only [Registers.owns,reserve,Registers.isLive_alloc,Registers.kind_alloc]
    by_cases h : r = d.size
    · simp [h,d.registers.isLive_of_size_le le_rfl]
    · simp [h]
  simp only [along,howned]
  rw [show (d.reserve k).registers.layout = _ from d.registers.layout_alloc k]
  rfl

theorem step_reserve (k : Kind) : Passage.Step callees strict floor (d.along T H P)
      ((d.reserve k).along T (d.size :: H) P) := by
  rw [along_reserve]
  exact .reserve k

theorem Valid.reserve (hd : d.Valid) (k : Kind) : (d.reserve k).Valid :=
  .of_along ((@step_reserve (fun _ => none) False 0 d [] [] [] k).sound hd.sound)
    hd.sorted

theorem step_pick {x : String} (hx : d.scope.get? x = some r) :
    Passage.Step callees strict floor (d.along T H P) (d.along T (r :: H) P) :=
  .pick hx

theorem step_drop {H' : List Register} (hsub : ∀ r ∈ H', r ∈ H) :
    Passage.Step callees strict floor (d.along T H P) (d.along T H' P) :=
  .drop hsub

theorem step_emit {op : Op} (hend : op.endsActivation = false) (hfrees : op.frees = [])
    (hpasses : op.passes callees = op.reads.map fun r => (r, false)) (hreads : ∀ r ∈ op.reads, r ∈ H)
    (hprovides : ∀ r ∈ op.provides, r ∈ H ∧
      (d.registers.layout.heap r → d.registers.isLive r = true)) :
    Passage.Step callees strict floor (d.along T H P) (d.along (T ++ [op]) H P) := by
  refine .emit hend hfrees ?_ ?_ ?_ ?_
  · rw [hpasses,List.map_map]
    exact List.map_id _
  · intro p hp _
    rw [hpasses] at hp
    obtain ⟨r,hr,rfl⟩ := List.mem_map.1 hp
    exact hreads r hr
  · have hnone : (op.reads.map fun r => (r, false)).filter (fun p =>
        p.2 && (d.registers.layout.kind p.1).ownsHeap) = [] := by
      simp
    rw [hpasses]
    show P = _
    erw [hnone]
    rfl
  · intro r hr
    exact ⟨(hprovides r hr).1, fun hheap => ⟨(hprovides r hr).2 hheap, hheap⟩⟩

theorem owns_release (f : Registers) (r t : Register) : (f.release r).owns (f.release r).isLive t ↔
      f.owns f.isLive t ∧ f.resolve t ≠ f.resolve r := by
  simp only [Registers.owns,f.isLive_release,f.kind_release]
  tauto

theorem owns_release_of_not_heap {f : Registers} (hwf : f.layout.WellFormed) (hr : ¬f.layout.heap r) :
    (f.release r).owns (f.release r).isLive = f.owns f.isLive := by
  funext t
  refine propext ((owns_release f r t).trans ⟨fun h => h.1, fun h => ⟨h, ?_⟩⟩)
  intro heq
  have hkind : f.kind t = f.kind r := hwf.kind_eq heq
  exact hr (show (f.kind r).ownsHeap = true from hkind ▸ h.2)

theorem Valid.disown (hd : d.Valid) : (d.disown r).Valid where
  sorted := hd.sorted
  sound :=
    have hlayout : (d.disown r).registers.layout = d.registers.layout := d.registers.layout_release r
    { wf := by
        show (d.disown r).registers.layout.WellFormed
        rw [hlayout]
        exact hd.sound.wf
      bound := fun t ht => by
        show t < (d.disown r).registers.layout.size
        rw [hlayout]
        rcases ht with (ho | hx) | ⟨_,hop,-⟩
        · exact hd.sound.lt_of_owned ((owns_release _ r t).1 ho).1
        · exact hd.sound.bound t (.inl (.inr hx))
        · cases hop
      heap := fun t ht => ht.2
      single := fun x y t u hx hy => by
        show (d.disown r).registers.layout.heap t → _
        rw [show ((d.disown r).along [] [] []).layout = _ from hlayout,hlayout]
        exact hd.sound.single x y t u hx hy }

theorem along_handOver (hsorted : d.scope.Sorted) : (d.handOver r).along T H (r :: P) =
      { (d.along T H P).giveUp r with held := H, pending := r :: P } := by
  have howned : (d.handOver r).registers.owns (d.handOver r).registers.isLive =
      fun t => d.registers.owns d.registers.isLive t ∧
        d.registers.resolve t ≠ d.registers.resolve r := by
    funext t
    exact propext (owns_release d.registers r t)
  have hscope : (d.handOver r).scope.get? = fun x => (d.scope.get? x).filter fun t =>
      d.registers.resolve t ≠ d.registers.resolve r := by
    funext x
    refine Option.ext fun t => ?_
    rw [Option.filter_eq_some_iff]
    simpa [handOver] using hsorted.get?_forget (d.registers.release r) r x t
  simp only [along,howned,hscope,Passage.giveUp]
  rw [show (d.handOver r).registers.layout = _ from d.registers.layout_release r]
  rfl

theorem step_take (hsorted : d.scope.Sorted) (hheap : d.registers.layout.heap r)
    (halone : strict → ∀ t ∈ H, d.registers.resolve t ≠ d.registers.resolve r) :
    Passage.Step callees strict floor (d.along T (r :: H) P) ((d.handOver r).along T H (r :: P)) := by
  rw [along_handOver hsorted]
  exact .take rfl hheap halone

theorem step_lend (hd : d.Valid) (hheap : ¬d.registers.layout.heap r) :
    Passage.Step callees strict floor (d.along T H P) ((d.handOver r).along T H P) := by
  have hstep : Passage.Step callees strict floor (d.along T H P)
      { d.along T H P with scope := (d.handOver r).scope.get? } := by
    refine .rescope fun x t hx => ?_
    have hx' := ((hd.sorted.get?_forget _ r x t).1 hx).1
    exact ⟨hd.sound.lt_of_scope hx', t, hx', rfl⟩
  have heq : (d.handOver r).along T H P =
      { d.along T H P with scope := (d.handOver r).scope.get? } := by
    simp only [along,handOver,Registers.layout_release,owns_release_of_not_heap hd.sound.wf hheap]
  rwa [heq]

theorem steps_giveName (hd : d.Valid) {x : String} (hr : r ∈ H) :
    Passage.Steps callees strict floor (d.along T H P) ((d.giveName x r).along T H P) := by
  have hbind : ∀ scope : Scope, (scope.bind x r).get? = Function.update scope.get? x (some r) := by
    intro scope
    funext y
    rw [Scope.get?_bind,Function.update_apply]
  by_cases hheap : (d.registers.kind r).ownsHeap = true
  · -- the value loses its other names first
    have hforget : Passage.Step callees strict floor (d.along T H P)
        { d.along T H P with scope := (d.scope.forget d.registers r).get? } := by
      refine .rescope fun y t hy => ?_
      have hy' := ((hd.sorted.get?_forget _ r y t).1 hy).1
      exact ⟨hd.sound.lt_of_scope hy', t, hy', rfl⟩
    have hname := @Passage.Step.name callees strict floor
      { d.along T H P with scope := (d.scope.forget d.registers r).get? } x r hr
      fun _ y t hy => ((hd.sorted.get?_forget _ r y t).1 hy).2
    refine .tail (.single hforget) ?_
    simpa [along,giveName,hheap,hbind] using hname
  · have hname := @Passage.Step.name callees strict floor (d.along T H P) x r hr
      fun h => absurd h hheap
    refine .single ?_
    simpa [along,giveName,hheap,hbind] using hname

theorem sorted_giveName (hsorted : d.scope.Sorted) (x : String) : (d.giveName x r).scope.Sorted := by
  unfold giveName
  split
  · exact (hsorted.forget _ r).bind x r
  · exact hsorted.bind x r

theorem Valid.giveName (hd : d.Valid) (x : String) (hr : r < d.size) : (d.giveName x r).Valid := by
  have hsteps := @steps_giveName (fun _ => none) False 0 d [] [r] [] r hd x (List.mem_singleton_self r)
  have hsound : (d.along [] [r] []).Sound := hd.along (by simp) (by simpa using hr) (by simp)
  exact .of_along (Passage.Steps.sound hsteps hsound) (sorted_giveName hd.sorted x)

theorem get?_giveName (hsorted : d.scope.Sorted) {x y : String} {t : Register} :
    (d.giveName x r).scope.get? y = some t ↔ y = x ∧ t = r ∨ y ≠ x ∧ d.scope.get? y = some t ∧
        (d.registers.layout.heap r → d.registers.resolve t ≠ d.registers.resolve r) := by
  simp only [Draft.giveName,Scope.get?_bind]
  by_cases hyx : y = x
  · simp [hyx,eq_comm]
  · by_cases hheap : (d.registers.kind r).ownsHeap = true
    · have hh : d.registers.layout.heap r := hheap
      simp [hyx,hheap,hh,hsorted.get?_forget]
    · have hh : ¬d.registers.layout.heap r := hheap
      simp [hyx,hheap,hh]

end Draft

end Polled
