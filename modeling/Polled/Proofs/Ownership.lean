import Polled.Proofs.Passage

/-!
What every step of a passage keeps.

`Sound` says that groups are well formed, everything in use is allocated, and a heap value has a single
name. What was freed or moved is never held again (`Step.apart`).
-/

namespace Polled.Passage

open List

variable {callees : Callees} {strict : Prop} {floor : Nat} {s s' : Passage}

variable {r t : Register} {x : String} {op : Op} {ceiling : Nat}

structure Sound (s : Passage) : Prop where
  wf : s.layout.WellFormed
  bound : ∀ r, s.Touches r → r < s.layout.size
  heap : ∀ r, s.owned r → s.layout.heap r
  single : ∀ x y r t, s.scope x = some r → s.scope y = some t → s.layout.heap r →
    s.layout.root r = s.layout.root t → x = y

/-- The register belongs to a group above the floor that the path has not met before the step. -/
def NewAbove (floor : Nat) (s s' : Passage) (r : Register) : Prop :=
  (floor ≤ s.layout.size → floor ≤ s'.layout.root r) ∧ ∀ t, s.Touches t →
    s'.layout.root r ≠ s'.layout.root t

section

variable (h : s.Sound)

include h

theorem Sound.lt_of_owned (hr : s.owned r) : r < s.layout.size := h.bound r (.inl (.inl hr))

theorem Sound.lt_of_scope (hr : s.scope x = some r) : r < s.layout.size :=
  h.bound r (.inl (.inr (.inl ⟨x, hr⟩)))

theorem Sound.lt_of_held (hr : r ∈ s.held) : r < s.layout.size :=
  h.bound r (.inl (.inr (.inr (.inl hr))))

theorem Sound.lt_of_pending (hr : r ∈ s.pending) : r < s.layout.size :=
  h.bound r (.inl (.inr (.inr (.inr hr))))

theorem Sound.lt_of_mentions (hop : op ∈ s.trace) (hr : r ∈ op.mentions) : r < s.layout.size :=
  h.bound r (.inr ⟨op, hop, hr⟩)

theorem heap_of_root_eq (hrt : s.layout.root r = s.layout.root t) (hr : s.layout.heap r) :
    s.layout.heap t := by
  unfold Layout.heap at *
  rwa [← h.wf.kind_eq hrt]

end

theorem scope_giveUp :
    (s.giveUp r).scope x = some t ↔ s.scope x = some t ∧ s.layout.root t ≠ s.layout.root r := by
  simp [giveUp,Option.filter_eq_some_iff]

theorem holds_of_reads {rest : List Register} (hreads : (op.passes callees).map (·.1) = op.reads)
    (hlent : ∀ p ∈ op.passes callees, ¬(p.2 = true ∧ s.layout.heap p.1) → p.1 ∈ s.held)
    (hgiven : s.pending =
      ((op.passes callees).filter fun p => p.2 && (s.layout.kind p.1).ownsHeap).map (·.1) ++ rest)
    (hr : r ∈ op.reads) : r ∈ s.held ∨ r ∈ s.pending := by
  rw [← hreads] at hr
  obtain ⟨p,hp,rfl⟩ := mem_map.1 hr
  by_cases hg : p.2 = true ∧ s.layout.heap p.1
  · right
    rw [hgiven]
    refine mem_append_left _ (mem_map.2 ⟨p, mem_filter.2 ⟨hp, ?_⟩, rfl⟩)
    simp [hg.1,show (s.layout.kind p.1).ownsHeap = true from hg.2]
  · exact .inl (hlent p hp hg)

theorem reads_eq_needs (h : op.endsActivation = true) : op.reads = op.needs := by
  cases op <;> simp_all [Op.endsActivation,Op.reads]

theorem provides_eq_nil (h : op.endsActivation = true) : op.provides = [] := by
  cases op <;> simp_all [Op.endsActivation,Op.provides]

section

variable (hstep : Step callees strict floor s s')

include hstep

theorem Step.size_le : s.layout.size ≤ s'.layout.size := by
  cases hstep with
  | reserve k => exact Nat.le_succ _
  | elsewhere hgrows _ => exact hgrows.size_le
  | _ => exact le_rfl

omit hstep in
theorem Steps.size_le (hsteps : Steps callees strict floor s s') : s.layout.size ≤ s'.layout.size := by
  induction hsteps with
  | refl => exact le_rfl
  | tail _ hstep ih => exact ih.trans hstep.size_le

theorem Step.kind_eq (hr : r < s.layout.size) : s'.layout.kind r = s.layout.kind r := by
  cases hstep with
  | reserve k => exact Function.update_of_ne hr.ne k s.layout.kind
  | elsewhere hgrows _ => exact hgrows.kind_old r hr
  | _ => rfl

theorem Step.root_congr (hr : r < s.layout.size) (ht : t < s.layout.size)
    (hrt : s.layout.root r = s.layout.root t) :
    s'.layout.root r = s'.layout.root t := by
  cases hstep with
  | elsewhere hgrows _ =>
    show Layout.root _ r = Layout.root _ t
    rw [hgrows.root_old r hr,hgrows.root_old t ht,hrt]
  | merge _ _ _ _ _ _ => exact Layout.root_merge_eq hrt
  | _ => exact hrt

theorem Step.root_eq (h : s.Sound) (hr : s.Touches r) (ht : s.Touches t) (hheap : s.layout.heap r)
    (hrt : s'.layout.root r = s'.layout.root t) : s.layout.root r = s.layout.root t := by
  cases hstep with
  | elsewhere hgrows _ =>
    rwa [hgrows.root_old r (h.bound r hr),hgrows.root_old t (h.bound t ht)] at hrt
  | @merge _ _ ha hb _ _ hkind hnew =>
    have hk : s.layout.kind r = s.layout.kind t := (h.wf.merge ha hb hkind).kind_eq hrt
    rcases Layout.eq_or_of_root_merge_eq hrt with heq | heq | heq
    · exact heq
    · exact absurd heq (hnew (heap_of_root_eq h heq hheap) r hr)
    · have htheap : s.layout.heap t := by rwa [Layout.heap,← hk]
      exact absurd heq (hnew (heap_of_root_eq h heq htheap) t ht)
  | _ => exact hrt

/-- What is in reach after a step was in reach before under some register of its group, or is new to the
path. -/
theorem Step.reaches (h : s.Sound) (hr : s'.Reaches r) :
    r < s'.layout.size ∧ ((∃ t, s.Reaches t ∧ s'.layout.root r = s'.layout.root t) ∨
      NewAbove floor s s' r) := by
  have hsame : s.Reaches r → r < s'.layout.size ∧
      ((∃ t, s.Reaches t ∧ s'.layout.root r = s'.layout.root t) ∨ NewAbove floor s s' r) := fun hs =>
    ⟨(h.bound r (.inl (holds_iff.2 (.inl hs)))).trans_le hstep.size_le, .inl ⟨r, hs, rfl⟩⟩
  cases hstep with
  | @pick x t hx =>
    rcases hr with ho | hs | hm
    · exact hsame (.inl ho)
    · exact hsame (.inr (.inl hs))
    · rcases mem_cons.1 hm with rfl | hm
      · exact hsame (.inr (.inl ⟨x, hx⟩))
      · exact hsame (.inr (.inr hm))
  | drop hsub =>
    rcases hr with ho | hs | hm
    · exact hsame (.inl ho)
    · exact hsame (.inr (.inl hs))
    · exact hsame (.inr (.inr (hsub r hm)))
  | rescope hsub =>
    rcases hr with ho | ⟨x,hx⟩ | hm
    · exact hsame (.inl ho)
    · obtain ⟨hlt,t,ht,hrt⟩ := hsub x r hx
      exact ⟨hlt, .inl ⟨t, .inr (.inl ⟨x, ht⟩), hrt⟩⟩
    · exact hsame (.inr (.inr hm))
  | @name x t ht =>
    rcases hr with ho | ⟨y,hy⟩ | hm
    · exact hsame (.inl ho)
    · by_cases hyx : y = x
      · subst hyx
        obtain rfl : t = r := by simpa using hy
        exact hsame (.inr (.inr ht))
      · exact hsame (.inr (.inl ⟨y, by simpa [hyx] using hy⟩))
    · exact hsame (.inr (.inr hm))
  | reserve k =>
    have hnew : (floor ≤ s.layout.size → floor ≤ s.layout.root s.layout.size) ∧
        ∀ t, s.Touches t → s.layout.root s.layout.size ≠ s.layout.root t := by
      rw [h.wf.root_new _ le_rfl]
      exact ⟨id, fun t ht => (h.wf.root_lt (h.bound t ht)).ne'⟩
    rcases hr with ho | hs | hm
    · rcases ho with ho | ⟨rfl,-⟩
      · exact hsame (.inl ho)
      · exact ⟨Nat.lt_succ_self _, .inr hnew⟩
    · exact hsame (.inr (.inl hs))
    · rcases mem_cons.1 hm with rfl | hm
      · exact ⟨Nat.lt_succ_self _, .inr hnew⟩
      · exact hsame (.inr (.inr hm))
  | @take t _ hheld =>
    rcases hr with ho | ⟨x,hx⟩ | hm
    · exact hsame (.inl ho.1)
    · exact hsame (.inr (.inl ⟨x, (scope_giveUp.1 hx).1⟩))
    · exact hsame (.inr (.inr (by rw [hheld]; exact mem_cons_of_mem t hm)))
  | free _ _ _ _ _ _ _ =>
    rcases hr with ho | ⟨x,hx⟩ | hm
    · exact hsame (.inl ho.1)
    · exact hsame (.inr (.inl ⟨x, (scope_giveUp.1 hx).1⟩))
    · exact hsame (.inr (.inr hm))
  | exit _ _ _ _ _ _ => simp [Reaches,close] at hr
  | adopt hkeep hnew =>
    rcases hr with ho | hs | hm
    · obtain ⟨hlt,-,hsrc⟩ := hnew r ho
      rcases hsrc with hs | ⟨x,t,hx,ht⟩ | hs
      · exact hsame (.inl hs)
      · exact ⟨hlt, .inl ⟨t, .inr (.inl ⟨x, hx⟩), ht.symm⟩⟩
      · exact ⟨hlt, .inr ⟨fun _ => hs.1, fun t ht heq => hs.2 t ht heq.symm⟩⟩
    · exact hsame (.inr (.inl hs))
    · exact hsame (.inr (.inr hm))
  | _ => exact hsame hr

theorem Step.mem_pending (hr : r ∈ s'.pending) : r ∈ s.held ∨ r ∈ s.pending := by
  cases hstep with
  | arrange hperm => exact .inr (hperm.mem_iff.1 hr)
  | @take _ _ hheld =>
    rcases mem_cons.1 hr with rfl | hr
    · exact .inl (by rw [hheld]; exact mem_cons_self)
    · exact .inr hr
  | @emit _ _ _ _ _ _ hgiven => exact .inr (by rw [hgiven]; exact mem_append_right _ hr)
  | exit _ _ _ _ _ _ => simp [close] at hr
  | _ => exact .inr hr

theorem Step.holds (h : s.Sound) (hr : s'.Holds r) :
    r < s'.layout.size ∧ ((∃ t, s.Holds t ∧ s'.layout.root r = s'.layout.root t) ∨
      NewAbove floor s s' r) := by
  rcases holds_iff.1 hr with hr | hr
  · obtain ⟨hlt,⟨t,ht,hrt⟩ | hnew⟩ := hstep.reaches h hr
    · exact ⟨hlt, .inl ⟨t, holds_iff.2 (.inl ht), hrt⟩⟩
    · exact ⟨hlt, .inr hnew⟩
  · have hs : s.Holds r := .inr (.inr (hstep.mem_pending hr))
    exact ⟨(h.bound r (.inl hs)).trans_le hstep.size_le, .inl ⟨r, hs, rfl⟩⟩

end

/-- A step that lengthens the path by one operation. -/
structure Appends (s s' : Passage) (op : Op) : Prop where
  trace : s'.trace = s.trace ++ [op]
  layout : s'.layout = s.layout
  reads : ∀ r ∈ op.reads, r < s.layout.size ∧ ∃ t, s.Holds t ∧ s.layout.root t = s.layout.root r
  provides : ∀ r ∈ op.provides, r ∈ s.held
  frees : ∀ g ∈ op.frees, g < s.layout.size ∧ (∃ t, s.owned t ∧ s.layout.root t = s.layout.root g) ∧
    ∀ r, s'.Holds r → s.layout.root r ≠ s.layout.root g
  once : (op.frees.map s.layout.root).Nodup
  kept : op.endsActivation = true →
    ∀ g ∈ op.frees, ∀ r ∈ op.needs, s.layout.root r ≠ s.layout.root g

section

variable (hstep : Step callees strict floor s s')

include hstep

theorem Step.appends (h : s.Sound) : s'.trace = s.trace ∨ ∃ op, Appends s s' op := by
  cases hstep with
  | @emit op _ _ hfrees hreads hlent hgiven hprovides =>
    refine .inr ⟨op, rfl, rfl, ?_, fun r hr => (hprovides r hr).1, ?_, ?_, ?_⟩
    · intro r hr
      have hholds : s.Holds r := by
        rcases holds_of_reads hreads hlent hgiven hr with hr | hr
        · exact .inr (.inr (.inl hr))
        · exact .inr (.inr (.inr hr))
      exact ⟨h.bound r (.inl hholds), r, hholds, rfl⟩
    · simp [hfrees]
    · simp [hfrees]
    · simp [hfrees]
  | @free r t c hr ht hrt _ hheld hpending =>
    refine .inr ⟨.free r c, rfl, rfl, ?_, ?_, ?_, ?_, ?_⟩
    · intro u hu
      obtain rfl : u = r := by simpa [Op.reads,Op.needs] using hu
      exact ⟨hr, t, .inl ht, hrt⟩
    · simp [Op.provides]
    · intro g hg
      obtain rfl : g = r := by simpa [Op.frees] using hg
      refine ⟨hr, ⟨t, ht, hrt⟩, ?_⟩
      rintro u (hu | ⟨x,hx⟩ | hu | hu)
      · exact hu.2
      · exact (scope_giveUp.1 hx).2
      · simp [giveUp,hheld] at hu
      · simp [giveUp,hpending] at hu
    · simp [Op.frees]
    · simp [Op.endsActivation]
  | @exit op hend hneeds _ hgarbage honce =>
    refine .inr ⟨op, rfl, rfl, ?_, ?_, ?_, honce, fun _ g hg => (hgarbage g hg).2.2⟩
    · intro r hr
      rw [reads_eq_needs hend] at hr
      exact ⟨h.lt_of_held (hneeds r hr), r, .inr (.inr (.inl (hneeds r hr))), rfl⟩
    · simp [provides_eq_nil hend]
    · intro g hg
      exact ⟨(hgarbage g hg).1, (hgarbage g hg).2.1, fun r hr => by simp [Holds,close] at hr⟩
  | _ => exact .inl rfl

theorem Step.bound (h : s.Sound) (hr : s'.Touches r) : r < s'.layout.size := by
  rcases hr with hr | ⟨_,hop,hr⟩
  · exact (hstep.holds h hr).1
  · rcases hstep.appends h with ht | ⟨o,ho⟩
    · rw [ht] at hop
      exact (h.lt_of_mentions hop hr).trans_le hstep.size_le
    · rw [ho.trace,mem_append] at hop
      rw [ho.layout]
      rcases hop with hop | hop
      · exact h.lt_of_mentions hop hr
      · obtain rfl := mem_singleton.1 hop
        simp only [Op.mentions,mem_append] at hr
        rcases hr with (hr | hr) | hr
        · exact (ho.reads r hr).1
        · exact h.lt_of_held (ho.provides r hr)
        · exact (ho.frees r hr).1

theorem Step.sound (h : s.Sound) : s'.Sound := by
  have hbound : ∀ r, s'.Touches r → r < s'.layout.size := fun r hr => hstep.bound h hr
  cases hstep with
  | rescope hsub =>
    refine ⟨h.wf, hbound, h.heap, ?_⟩
    intro x y r t hx hy hr hrt
    obtain ⟨-,r',hx',hr'⟩ := hsub x r hx
    obtain ⟨-,t',hy',ht'⟩ := hsub y t hy
    exact h.single x y r' t' hx' hy' (heap_of_root_eq h hr' hr) (by rw [← hr',← ht',hrt])
  | @name x r _ hfree =>
    refine ⟨h.wf, hbound, h.heap, ?_⟩
    intro y z t u hy hz ht htu
    by_cases hyx : y = x <;> by_cases hzx : z = x
    · rw [hyx,hzx]
    · subst hyx
      obtain rfl : r = t := by simpa using hy
      exact absurd htu.symm (hfree ht z u (by simpa [hzx] using hz))
    · subst hzx
      obtain rfl : r = u := by simpa using hz
      exact absurd htu (hfree (heap_of_root_eq h htu ht) y t (by simpa [hyx] using hy))
    · exact h.single y z t u (by simpa [hyx] using hy) (by simpa [hzx] using hz) ht htu
  | reserve k =>
    have hold : ∀ r, r < s.layout.size → (s.layout.reserve k).kind r = s.layout.kind r := by
      intro r hr
      exact Function.update_of_ne hr.ne k s.layout.kind
    refine ⟨h.wf.reserve k, hbound, ?_, ?_⟩
    · rintro r (ho | ⟨rfl,hk⟩)
      · rw [Layout.heap,hold r (h.lt_of_owned ho)]
        exact h.heap r ho
      · simpa [Layout.heap,Layout.reserve] using hk
    · intro x y r t hx hy hr hrt
      rw [Layout.heap,hold r (h.lt_of_scope hx)] at hr
      exact h.single x y r t hx hy hr hrt
  | take _ _ _ | free _ _ _ _ _ _ _ =>
    refine ⟨h.wf, hbound, fun t ht => h.heap t ht.1, ?_⟩
    intro x y t u hx hy
    exact h.single x y t u (scope_giveUp.1 hx).1 (scope_giveUp.1 hy).1
  | exit _ _ _ _ _ _ =>
    exact ⟨h.wf, hbound, fun t ht => ht.elim, fun x y t u hx => by simp [close] at hx⟩
  | elsewhere hgrows hwf =>
    refine ⟨hwf, hbound, ?_, ?_⟩
    · intro r hr
      rw [Layout.heap,hgrows.kind_old r (h.lt_of_owned hr)]
      exact h.heap r hr
    · intro x y r t hx hy hr hrt
      rw [Layout.heap,hgrows.kind_old r (h.lt_of_scope hx)] at hr
      rw [hgrows.root_old r (h.lt_of_scope hx),hgrows.root_old t (h.lt_of_scope hy)] at hrt
      exact h.single x y r t hx hy hr hrt
  | merge ha hb hka hkb hkind hnew =>
    refine ⟨h.wf.merge ha hb hkind, hbound, h.heap, ?_⟩
    intro x y r t hx hy hr hrt
    have heq : s.layout.root r = s.layout.root t :=
      (@Step.merge callees strict floor s _ _ ha hb hka hkb hkind hnew).root_eq h
        (.inl (.inr (.inl ⟨x, hx⟩))) (.inl (.inr (.inl ⟨y, hy⟩))) hr hrt
    exact h.single x y r t hx hy hr heq
  | adopt hkeep hnew => exact ⟨h.wf, hbound, fun r hr => (hnew r hr).2.1, h.single⟩
  | _ => exact ⟨h.wf, hbound, h.heap, h.single⟩

omit hstep in
theorem Steps.sound (hsteps : Steps callees strict floor s s') (h : s.Sound) : s'.Sound := by
  induction hsteps with
  | refl => exact h
  | tail _ hstep ih => exact hstep.sound ih

omit hstep in
theorem Step.mono (hle : floor ≤ ceiling) (hstep : Step callees strict ceiling s s') :
    Step callees strict floor s s' := by
  cases hstep with
  | pick hx => exact .pick hx
  | drop hsub => exact .drop hsub
  | arrange hperm => exact .arrange hperm
  | rescope hsub => exact .rescope hsub
  | name hr hfree => exact .name hr hfree
  | reserve k => exact .reserve k
  | take hheld hheap halone => exact .take hheld hheap halone
  | emit hend hfrees hreads hlent hgiven hprovides =>
    exact .emit hend hfrees hreads hlent hgiven hprovides
  | free c hr ht hrt hscope hheld hpending => exact .free c hr ht hrt hscope hheld hpending
  | exit hend hneeds hpending hgarbage honce hall =>
    exact .exit hend hneeds hpending hgarbage honce hall
  | elsewhere hgrows hwf => exact .elsewhere hgrows hwf
  | merge ha hb hafloor hbfloor hkind hnew =>
    exact .merge ha hb (hle.trans hafloor) (hle.trans hbfloor) hkind hnew
  | adopt hkeep hnew =>
    refine .adopt hkeep fun r hr => ?_
    obtain ⟨hlt,hheap,hs | hs | ⟨hfloor,hs⟩⟩ := hnew r hr
    · exact ⟨hlt, hheap, .inl hs⟩
    · exact ⟨hlt, hheap, .inr (.inl hs)⟩
    · exact ⟨hlt, hheap, .inr (.inr ⟨hle.trans hfloor, hs⟩)⟩

omit hstep in
theorem Steps.mono (hle : floor ≤ ceiling) (hsteps : Steps callees strict ceiling s s') :
    Steps callees strict floor s s' := by
  induction hsteps with
  | refl => exact .refl
  | tail _ hstep ih => exact ih.tail (hstep.mono hle)

theorem Step.floor_le (hr : r < s.layout.size) (hle : floor ≤ s.layout.root r) :
    floor ≤ s'.layout.root r := by
  cases hstep with
  | elsewhere hgrows _ => rwa [hgrows.root_old r hr]
  | merge _ _ hafloor hbfloor _ _ =>
    show floor ≤ Layout.root _ r
    rw [Layout.merge_root]
    split
    · exact Nat.le_min.2 ⟨hafloor, hbfloor⟩
    · exact hle
  | _ => exact hle

theorem Step.touches (h : s.Sound) (hfloor : floor ≤ s.layout.size) (hr : s'.Touches r) :
    (∃ t, s.Touches t ∧ s'.layout.root t = s'.layout.root r) ∨ floor ≤ s'.layout.root r := by
  have hheld : s'.Holds r →
      (∃ t, s.Touches t ∧ s'.layout.root t = s'.layout.root r) ∨ floor ≤ s'.layout.root r := by
    intro hr
    rcases (hstep.holds h hr).2 with ⟨t,ht,hrt⟩ | ⟨hle,-⟩
    · exact .inl ⟨t, .inl ht, hrt.symm⟩
    · exact .inr (hle hfloor)
  rcases hr with hr | ⟨op,hop,hr⟩
  · exact hheld hr
  · rcases hstep.appends h with ht | ⟨o,ho⟩
    · exact .inl ⟨r, .inr ⟨op, ht ▸ hop, hr⟩, rfl⟩
    · rw [ho.trace,mem_append] at hop
      rcases hop with hop | hop
      · exact .inl ⟨r, .inr ⟨op, hop, hr⟩, rfl⟩
      · obtain rfl := mem_singleton.1 hop
        rw [ho.layout]
        simp only [Op.mentions,mem_append] at hr
        rcases hr with (hr | hr) | hr
        · obtain ⟨-,t,ht,htr⟩ := ho.reads r hr
          exact .inl ⟨t, .inl ht, htr⟩
        · exact .inl ⟨r, .inl (.inr (.inr (.inl (ho.provides r hr)))), rfl⟩
        · obtain ⟨-,⟨t,ht,htr⟩,-⟩ := ho.frees r hr
          exact .inl ⟨t, .inl (.inl ht), htr⟩

omit hstep in
theorem Steps.touches (hsteps : Steps callees strict floor s s') (h : s.Sound)
    (hfloor : floor ≤ s.layout.size) (hr : s'.Touches r) :
    (∃ t, s.Touches t ∧ s'.layout.root t = s'.layout.root r) ∨ floor ≤ s'.layout.root r := by
  induction hsteps generalizing r with
  | refl => exact .inl ⟨r, hr, rfl⟩
  | tail hsteps hstep ih =>
    have hsound := Steps.sound hsteps h
    rcases hstep.touches hsound (hfloor.trans (Steps.size_le hsteps)) hr with ⟨t,ht,htr⟩ | hle
    · rcases ih ht with ⟨u,hu,hut⟩ | hle
      · have hlt : u < _ := (h.bound u hu).trans_le (Steps.size_le hsteps)
        exact .inl ⟨u, hu, (hstep.root_congr hlt (hsound.bound t ht) hut).trans htr⟩
      · exact .inr (htr ▸ hstep.floor_le (hsound.bound t ht) hle)
    · exact .inr hle

theorem Step.apart (h : s.Sound) {g : Register} (hg : s.Touches g) (hheap : s.layout.heap g)
    (hapart : ∀ r, s.Holds r → s.layout.root r ≠ s.layout.root g) {r : Register} (hr : s'.Holds r) :
    s'.layout.root r ≠ s'.layout.root g := by
  intro heq
  rcases (hstep.holds h hr).2 with ⟨t,ht,hrt⟩ | ⟨-,hnew⟩
  · have hgt := hstep.root_eq h hg (.inl ht) hheap (by rw [← heq,hrt])
    exact hapart t ht hgt.symm
  · exact hnew g hg heq

end

theorem steps_frees (gs : List (Register × Condition)) (hheld : s.held = []) (hpending : s.pending = [])
    (hgs : ∀ g ∈ gs, g.1 < s.layout.size ∧ (∃ t, s.owned t ∧ s.layout.root t = s.layout.root g.1) ∧
      ∀ x u, s.scope x = some u → s.layout.root u ≠ s.layout.root g.1)
    (hnodup : (gs.map fun g => s.layout.root g.1).Nodup) :
    Steps callees strict floor s
      { s with
        owned := fun t => s.owned t ∧ ∀ g ∈ gs, s.layout.root t ≠ s.layout.root g.1
        trace := s.trace ++ gs.map fun g => .free g.1 g.2 } := by
  induction gs generalizing s with
  | nil =>
    simp only [not_mem_nil,false_implies,implies_true,and_true,map_nil,append_nil]
    exact .refl
  | cons g gs ih =>
    obtain ⟨hlt,⟨t,ht,htg⟩,hscope⟩ := hgs g mem_cons_self
    have hstep := @Step.free callees strict floor s g.1 t g.2 hlt ht htg hscope hheld hpending
    have hsame : (s.giveUp g.1).scope = s.scope := by
      funext x
      refine Option.ext fun u => scope_giveUp.trans ⟨fun h => h.1, fun h => ⟨h, hscope x u h⟩⟩
    obtain ⟨hne,htail⟩ := nodup_cons.1 hnodup
    have hrest := ih (s := { s.giveUp g.1 with trace := s.trace ++ [.free g.1 g.2] }) hheld
      hpending ?_ htail
    · have hend : (fun t => s.owned t ∧ ∀ g' ∈ g :: gs, s.layout.root t ≠ s.layout.root g'.1) =
          fun t => (s.giveUp g.1).owned t ∧ ∀ g' ∈ gs, s.layout.root t ≠ s.layout.root g'.1 := by
        funext t
        simp only [giveUp,forall_mem_cons,and_assoc]
      have htrace : s.trace ++ (g :: gs).map (fun g' => Op.free g'.1 g'.2) =
          s.trace ++ [.free g.1 g.2] ++ gs.map fun g' => .free g'.1 g'.2 := by
        simp
      rw [hend,htrace]
      dsimp only at hstep hrest
      rw [hsame] at hstep hrest
      exact .head hstep hrest
    · intro g' hg'
      obtain ⟨hlt',⟨u,hu,hug⟩,hscope'⟩ := hgs g' (mem_cons_of_mem g hg')
      refine ⟨hlt', ⟨u, ⟨hu, fun heq => hne (mem_map.2 ⟨g', hg', ?_⟩)⟩, hug⟩, ?_⟩
      · exact hug.symm.trans heq
      · intro x v hx
        exact hscope' x v (by rwa [← hsame])

end Polled.Passage
