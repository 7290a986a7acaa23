import Polled.Proofs.Ownership

/-!
A moved heap value is nobody else's, provided that it is moved only when nobody else holds it.
-/

namespace Polled.Passage

open List

variable {callees : Callees} {strict : Prop} {floor : Nat} {s s' : Passage}

variable {r g : Register} {op : Op}

/-- What an operation takes over on the heap. -/
def Moves (callees : Callees) (s : Passage) (op : Op) (g : Register) : Prop :=
  (g, true) ∈ op.passes callees ∧ s.layout.heap g

/-- What was moved, or is about to be, is within nobody's reach. -/
structure Exclusive (callees : Callees) (s : Passage) : Prop where
  heap : ∀ g ∈ s.pending, s.layout.heap g
  nodup : (s.pending.map s.layout.root).Nodup
  apart : ∀ g ∈ s.pending, ∀ r, s.Reaches r → s.layout.root r ≠ s.layout.root g
  gone : ∀ op ∈ s.trace, ∀ g, s.Moves callees op g → ∀ r, s.Holds r → s.layout.root r ≠ s.layout.root g
  later : s.trace.Pairwise fun op op' => ∀ g, s.Moves callees op g →
    ∀ r ∈ op'.reads ++ op'.frees, s.layout.root r ≠ s.layout.root g
  alone : ∀ op ∈ s.trace, (op.passes callees).Pairwise fun p q =>
    p.2 = true ∨ q.2 = true → s.layout.heap p.1 → s.layout.root p.1 ≠ s.layout.root q.1

section

variable (hstep : Step callees strict floor s s')

include hstep

theorem Step.root_ne (h : s.Sound) {t : Register} (hr : s.Touches r) (ht : s.Touches t)
    (hheap : s.layout.heap t) (hrt : s.layout.root r ≠ s.layout.root t) :
    s'.layout.root r ≠ s'.layout.root t :=
  fun heq => hrt (hstep.root_eq h ht hr hheap heq.symm).symm

omit hstep in
theorem alone_of_pending (h : s.Sound) (hx : s.Exclusive callees) {rest : List Register}
    (hlent : ∀ p ∈ op.passes callees, ¬(p.2 = true ∧ s.layout.heap p.1) → p.1 ∈ s.held)
    (hgiven : s.pending =
      ((op.passes callees).filter fun p => p.2 && (s.layout.kind p.1).ownsHeap).map (·.1) ++ rest) :
    (op.passes callees).Pairwise fun p q =>
      p.2 = true ∨ q.2 = true → s.layout.heap p.1 → s.layout.root p.1 ≠ s.layout.root q.1 := by
  have hnodup := hx.nodup
  rw [hgiven,map_append,map_map] at hnodup
  have hpair := pairwise_filter.1 (pairwise_map.1 (nodup_append.1 hnodup).1)
  have hpending : ∀ p ∈ op.passes callees, p.2 = true → s.layout.heap p.1 → p.1 ∈ s.pending := by
    intro p hp hown hheap
    rw [hgiven]
    refine mem_append_left _ (mem_map.2 ⟨p, mem_filter.2 ⟨hp, ?_⟩, rfl⟩)
    simp [hown,show (s.layout.kind p.1).ownsHeap = true from hheap]
  refine hpair.imp_of_mem ?_
  intro p q hp hq hboth hmoved hheap heq
  have hqheap := heap_of_root_eq h heq hheap
  by_cases hpown : p.2 = true <;> by_cases hqown : q.2 = true
  · exact hboth (by simp [hpown,show (s.layout.kind p.1).ownsHeap = true from hheap])
      (by simp [hqown,show (s.layout.kind q.1).ownsHeap = true from hqheap]) heq
  · have hheld := hlent q hq fun hh => hqown hh.1
    exact hx.apart p.1 (hpending p hp hpown hheap) q.1 (.inr (.inr hheld)) heq.symm
  · have hheld := hlent p hp fun hh => hpown hh.1
    exact hx.apart q.1 (hpending q hq hqown hqheap) p.1 (.inr (.inr hheld)) heq
  · rcases hmoved with hm | hm
    · exact hpown hm
    · exact hqown hm

omit hstep in
theorem touches_of_reads (hop : op ∈ s.trace) (hr : r ∈ op.reads) : s.Touches r :=
  .inr ⟨op, hop, by simp [Op.mentions,hr]⟩

section

variable (h : s.Sound) (hx : s.Exclusive callees)

include h hx

theorem Step.apart_pending (hg : g ∈ s.pending) (hr : s'.Reaches r) :
    s'.layout.root r ≠ s'.layout.root g := by
  have htouches : s.Touches g := .inl (holds_iff.2 (.inr hg))
  rcases (hstep.reaches h hr).2 with ⟨t,ht,hrt⟩ | ⟨-,hnew⟩
  · rw [hrt]
    exact hstep.root_ne h (.inl (holds_iff.2 (.inl ht))) htouches (hx.heap g hg) (hx.apart g hg t ht)
  · exact hnew g htouches

theorem Step.heap_pending (hg : g ∈ s'.pending) : s'.layout.heap g := by
  have hlt : ∀ g ∈ s.pending, s'.layout.heap g := by
    intro g hg
    rw [Layout.heap,hstep.kind_eq (h.lt_of_pending hg)]
    exact hx.heap g hg
  cases hstep with
  | take hheld hheap halone =>
    rcases mem_cons.1 hg with rfl | hg
    · exact hheap
    · exact hlt g hg
  | arrange hperm => exact hlt g (hperm.mem_iff.1 hg)
  | emit _ _ _ _ hgiven _ => exact hlt g (by rw [hgiven]; exact mem_append_right _ hg)
  | exit _ _ _ _ _ _ => simp [close] at hg
  | _ => exact hlt g hg

theorem Step.nodup_pending : (s'.pending.map s'.layout.root).Nodup := by
  have hsame : (s.pending.map s'.layout.root).Nodup := by
    have hpair := pairwise_map.1 hx.nodup
    refine pairwise_map.2 (hpair.imp_of_mem ?_)
    intro a b ha hb hab
    exact hstep.root_ne h (.inl (holds_iff.2 (.inr ha))) (.inl (holds_iff.2 (.inr hb)))
      (hx.heap b hb) hab
  cases hstep with
  | @take g _ hheld =>
    refine nodup_cons.2 ⟨?_, hsame⟩
    intro hmem
    obtain ⟨t,ht,heq⟩ := mem_map.1 hmem
    have hg : s.Reaches g := .inr (.inr (by rw [hheld]; exact mem_cons_self))
    exact hx.apart t ht g hg heq.symm
  | arrange hperm => exact (hperm.map _).nodup_iff.2 hsame
  | emit _ _ _ _ hgiven _ =>
    have hnodup := hx.nodup
    rw [hgiven,map_append] at hnodup
    exact (nodup_append.1 hnodup).2.1
  | exit _ _ _ _ _ _ => exact nodup_nil
  | _ => exact hsame

end

theorem Step.reach_pending (hstrict : strict) (h : s.Sound) (hx : s.Exclusive callees)
    (hg : g ∈ s'.pending) (hr : s'.Reaches r) : s'.layout.root r ≠ s'.layout.root g := by
  by_cases hold : g ∈ s.pending
  · exact hstep.apart_pending h hx hold hr
  · cases hstep with
    | take hheld hheap halone =>
      rcases mem_cons.1 hg with rfl | hg
      · rcases hr with ho | ⟨x,hx⟩ | hm
        · exact ho.2
        · exact (scope_giveUp.1 hx).2
        · exact halone hstrict r hm
      · exact absurd hg hold
    | arrange hperm => exact absurd (hperm.mem_iff.1 hg) hold
    | emit _ _ _ _ hgiven _ =>
      exact absurd (by rw [hgiven]; exact mem_append_right _ hg) hold
    | exit _ _ _ _ _ _ => simp [close] at hg
    | _ => exact absurd hg hold

omit hstep in
theorem not_moves_of_endsActivation (hend : op.endsActivation = true) : ¬s.Moves callees op g := by
  rintro ⟨hp,-⟩
  cases op <;> simp [Op.endsActivation,Op.passes,Op.reads] at hend hp

theorem Step.gone_of_appends (hx : s.Exclusive callees) (hop : s'.trace = s.trace ++ [op])
    (hg : s.Moves callees op g) (hr : s'.Holds r) : s.layout.root r ≠ s.layout.root g := by
  cases hstep with
  | @emit o _ _ _ _ _ hgiven =>
    obtain rfl : o = op := by simpa using hop
    have hmoved : g ∈ ((o.passes callees).filter fun p =>
        p.2 && (s.layout.kind p.1).ownsHeap).map (·.1) := by
      refine mem_map.2 ⟨(g, true), mem_filter.2 ⟨hg.1, ?_⟩, rfl⟩
      simp [show (s.layout.kind g).ownsHeap = true from hg.2]
    rcases holds_iff.1 hr with hr | hr
    · exact hx.apart g (by rw [hgiven]; exact mem_append_left _ hmoved) r hr
    · have hnodup := hx.nodup
      rw [hgiven,map_append] at hnodup
      have hdisj := (nodup_append.1 hnodup).2.2
      exact (hdisj _ (mem_map_of_mem hmoved) _ (mem_map_of_mem hr)).symm
  | @free t _ c =>
    obtain rfl : Op.free t c = op := by simpa using hop
    simp [Moves,Op.passes,Op.reads,Op.needs] at hg
  | @exit o hend =>
    obtain rfl : o = op := by simpa using hop
    exact absurd hg (not_moves_of_endsActivation hend)
  | _ => simp [giveUp] at hop

theorem Step.alone_of_appends (h : s.Sound) (hx : s.Exclusive callees)
    (hop : s'.trace = s.trace ++ [op]) :
    (op.passes callees).Pairwise fun p q =>
      p.2 = true ∨ q.2 = true → s.layout.heap p.1 → s.layout.root p.1 ≠ s.layout.root q.1 := by
  cases hstep with
  | @emit o _ _ _ _ hlent hgiven =>
    obtain rfl : o = op := by simpa using hop
    exact alone_of_pending h hx hlent hgiven
  | @free t _ c =>
    obtain rfl : Op.free t c = op := by simpa using hop
    exact pairwise_singleton _ _
  | @exit o hend =>
    obtain rfl : o = op := by simpa using hop
    have hlent : ∀ values : List Register, (values.map fun r => (r, false)).Pairwise fun p q =>
        p.2 = true ∨ q.2 = true → s.layout.heap p.1 → s.layout.root p.1 ≠ s.layout.root q.1 := by
      intro values
      exact pairwise_map.2 (pairwise_of_forall (by simp))
    cases o with
    | ret values garbage => exact hlent values
    | restartLoop values garbage => exact hlent values
    | _ => cases hend
  | _ => simp [giveUp] at hop

theorem Step.exclusive (hstrict : strict) (h : s.Sound) (hx : s.Exclusive callees) :
    s'.Exclusive callees := by
  have hmoves : ∀ op ∈ s.trace, ∀ g, s'.Moves callees op g → s.Touches g ∧ s.Moves callees op g := by
    intro op hop g hg
    have ht := touches_of_reads hop (Op.mem_reads_of_passes hg.1)
    have hheap := hg.2
    rw [Layout.heap,hstep.kind_eq (h.bound g ht)] at hheap
    exact ⟨ht, hg.1, hheap⟩
  have hgone : ∀ op ∈ s.trace, ∀ g, s'.Moves callees op g → ∀ r, s'.Holds r →
      s'.layout.root r ≠ s'.layout.root g := by
    intro op hop g hg r hr
    obtain ⟨ht,hg⟩ := hmoves op hop g hg
    exact hstep.apart h ht hg.2 (hx.gone op hop g hg) hr
  have hlater : s.trace.Pairwise fun op op' => ∀ g, s'.Moves callees op g →
      ∀ r ∈ op'.reads ++ op'.frees, s'.layout.root r ≠ s'.layout.root g := by
    refine hx.later.imp_of_mem ?_
    intro op op' hop hop' hold g hg r hr
    obtain ⟨ht,hg⟩ := hmoves op hop g hg
    have htr : s.Touches r := .inr ⟨op', hop', by simp_all [Op.mentions]; tauto⟩
    exact hstep.root_ne h htr ht hg.2 (hold g hg r hr)
  have halone : ∀ op ∈ s.trace, (op.passes callees).Pairwise fun p q =>
      p.2 = true ∨ q.2 = true → s'.layout.heap p.1 → s'.layout.root p.1 ≠ s'.layout.root q.1 := by
    intro op hop
    refine (hx.alone op hop).imp_of_mem ?_
    intro p q hp hq hold hmoved hheap
    have htp := touches_of_reads hop (Op.mem_reads_of_passes hp)
    have htq := touches_of_reads hop (Op.mem_reads_of_passes hq)
    rw [Layout.heap,hstep.kind_eq (h.bound _ htp)] at hheap
    exact (hstep.root_ne h htq htp hheap (hold hmoved hheap).symm).symm
  refine ⟨fun g hg => hstep.heap_pending h hx hg, hstep.nodup_pending h hx,
    fun g hg r hr => hstep.reach_pending hstrict h hx hg hr, ?_, ?_, ?_⟩
  all_goals rcases hstep.appends h with ht | ⟨_,ho⟩
  · rwa [ht]
  · intro o hmem g hg r hr
    rw [ho.trace,mem_append] at hmem
    rcases hmem with hmem | hmem
    · exact hgone o hmem g hg r hr
    · obtain rfl := mem_singleton.1 hmem
      rw [ho.layout]
      have hg' : s.Moves callees o g := by rwa [Moves,← ho.layout]
      exact hstep.gone_of_appends hx ho.trace hg' hr
  · rwa [ht]
  · rw [ho.trace]
    refine pairwise_append.2 ⟨hlater, pairwise_singleton _ _, ?_⟩
    intro o hmem o' hmem' g hg r hr
    obtain rfl := mem_singleton.1 hmem'
    obtain ⟨-,hg⟩ := hmoves o hmem g hg
    have hsrc : ∃ t, s.Holds t ∧ s.layout.root t = s.layout.root r := by
      rcases mem_append.1 hr with hr | hr
      · exact (ho.reads r hr).2
      · obtain ⟨t,ht,htr⟩ := (ho.frees r hr).2.1
        exact ⟨t, .inl ht, htr⟩
    obtain ⟨t,ht,htr⟩ := hsrc
    rw [ho.layout,← htr]
    exact hx.gone o hmem g hg t ht
  · rwa [ht]
  · intro o hmem
    rw [ho.trace,mem_append] at hmem
    rcases hmem with hmem | hmem
    · exact halone o hmem
    · obtain rfl := mem_singleton.1 hmem
      rw [ho.layout]
      exact hstep.alone_of_appends h hx ho.trace

end

theorem Steps.exclusive (hsteps : Steps callees strict floor s s') (hstrict : strict) (h : s.Sound)
    (hx : s.Exclusive callees) : s'.Exclusive callees := by
  induction hsteps with
  | refl => exact hx
  | tail hsteps hstep ih => exact hstep.exclusive hstrict (Steps.sound hsteps h) ih

theorem Steps.passes_eq_reads (hsteps : Steps callees strict floor s s')
    (h : ∀ op ∈ s.trace, (op.passes callees).map (·.1) = op.reads) :
    ∀ op ∈ s'.trace, (op.passes callees).map (·.1) = op.reads := by
  have hlast : ∀ {T : List Op} {o : Op}, (∀ op ∈ T, (op.passes callees).map (·.1) = op.reads) →
      (o.passes callees).map (·.1) = o.reads → ∀ op ∈ T ++ [o],
      (op.passes callees).map (·.1) = op.reads := by
    intro T o hT ho op hop
    rcases mem_append.1 hop with hop | hop
    · exact hT op hop
    · rwa [mem_singleton.1 hop]
  have hlent : ∀ rs : List Register, (rs.map fun r => (r, false)).map (·.1) = rs := by
    intro rs
    rw [map_map]
    exact map_id rs
  induction hsteps with
  | refl => exact h
  | tail _ hstep ih =>
    cases hstep with
    | emit _ _ hreads _ _ _ => exact hlast ih hreads
    | free _ _ _ _ _ _ => exact hlast ih rfl
    | @exit op hend =>
      refine hlast ih ?_
      cases op with
      | ret values garbage => exact hlent values
      | restartLoop values garbage => exact hlent values
      | _ => cases hend
    | _ => exact ih

end Polled.Passage
