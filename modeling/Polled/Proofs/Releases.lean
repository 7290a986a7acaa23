import Polled.Proofs.Ownership

/-!
Nothing is freed twice, and nothing is read when it was freed.
-/

namespace Polled.Passage

open List

variable {callees : Callees} {strict : Prop} {floor : Nat} {s s' : Passage}

/-- What the operations of the path have freed is out of reach. -/
structure Released (s : Passage) : Prop where
  gone : ∀ op ∈ s.trace, ∀ g ∈ op.frees,
    s.layout.heap g ∧ ∀ r, s.Holds r → s.layout.root r ≠ s.layout.root g
  once : ((s.trace.flatMap Op.frees).map s.layout.root).Nodup
  unread : s.trace.Pairwise fun o o' =>
    ∀ g ∈ o.frees, ∀ r ∈ o'.reads, s.layout.root r ≠ s.layout.root g
  kept : ∀ op ∈ s.trace, op.endsActivation = true →
    ∀ g ∈ op.frees, ∀ r ∈ op.needs, s.layout.root r ≠ s.layout.root g

theorem Step.nodup_roots (hstep : Step callees strict floor s s') (h : s.Sound) {gs : List Register}
    (hgs : ∀ g ∈ gs, s.Touches g ∧ s.layout.heap g) (hnodup : (gs.map s.layout.root).Nodup) :
    (gs.map s'.layout.root).Nodup := by
  induction gs with
  | nil => exact nodup_nil
  | cons g gs ih =>
    obtain ⟨hg,htail⟩ := nodup_cons.1 hnodup
    have hrest : ∀ g' ∈ gs, s.Touches g' ∧ s.layout.heap g' :=
      fun g' hg' => hgs g' (mem_cons_of_mem g hg')
    refine nodup_cons.2 ⟨?_, ih hrest htail⟩
    intro hmem
    obtain ⟨t,ht,hroot⟩ := mem_map.1 hmem
    have heq := hstep.root_eq h (hrest t ht).1 (hgs g mem_cons_self).1 (hrest t ht).2 hroot
    exact hg (mem_map.2 ⟨t, ht, heq⟩)

theorem Step.released (hstep : Step callees strict floor s s') (h : s.Sound) (hrel : s.Released) :
    s'.Released := by
  have hheap : ∀ {g : Register}, s.Touches g → s.layout.heap g → s'.layout.heap g := by
    intro g hg hk
    rwa [Layout.heap,hstep.kind_eq (h.bound g hg)]
  have hfreed : ∀ op ∈ s.trace, ∀ g ∈ op.frees, s.Touches g :=
    fun op hop g hg => .inr ⟨op, hop, mem_append_right _ hg⟩
  have hread : ∀ op ∈ s.trace, ∀ r ∈ op.reads, s.Touches r :=
    fun op hop r hr => .inr ⟨op, hop, mem_append_left _ (mem_append_left _ hr)⟩
  have hgone : ∀ op ∈ s.trace, ∀ g ∈ op.frees,
      s'.layout.heap g ∧ ∀ r, s'.Holds r → s'.layout.root r ≠ s'.layout.root g := by
    intro op hop g hg
    obtain ⟨hk,hapart⟩ := hrel.gone op hop g hg
    exact ⟨hheap (hfreed op hop g hg) hk, fun r hr => hstep.apart h (hfreed op hop g hg) hk hapart hr⟩
  have honce : ((s.trace.flatMap Op.frees).map s'.layout.root).Nodup := by
    refine hstep.nodup_roots h ?_ hrel.once
    intro g hg
    obtain ⟨op,hop,hg⟩ := mem_flatMap.1 hg
    exact ⟨hfreed op hop g hg, (hrel.gone op hop g hg).1⟩
  have hunread : s.trace.Pairwise fun o o' =>
      ∀ g ∈ o.frees, ∀ r ∈ o'.reads, s'.layout.root r ≠ s'.layout.root g := by
    refine hrel.unread.imp_of_mem ?_
    intro o o' ho ho' hne g hg r hr heq
    exact hne g hg r hr (hstep.root_eq h (hfreed o ho g hg) (hread o' ho' r hr) (hrel.gone o ho g hg).1
      heq.symm).symm
  have hkept : ∀ op ∈ s.trace, op.endsActivation = true →
      ∀ g ∈ op.frees, ∀ r ∈ op.needs, s'.layout.root r ≠ s'.layout.root g := by
    intro op hop hend g hg r hr heq
    have htouch := hread op hop r (by rwa [reads_eq_needs hend])
    exact hrel.kept op hop hend g hg r hr
      (hstep.root_eq h (hfreed op hop g hg) htouch (hrel.gone op hop g hg).1 heq.symm).symm
  rcases hstep.appends h with ht | ⟨op,hop⟩
  · exact ⟨by rwa [ht], by rwa [ht], by rwa [ht], by rwa [ht]⟩
  · have hlayout := hop.layout
    have hnew : ∀ g ∈ op.frees, s.layout.heap g := by
      intro g hg
      obtain ⟨-,⟨t,ht,htg⟩,-⟩ := hop.frees g hg
      exact heap_of_root_eq h htg (h.heap t ht)
    refine ⟨?_, ?_, ?_, ?_⟩
    · intro o ho g hg
      rw [hop.trace,mem_append] at ho
      rcases ho with ho | ho
      · exact hgone o ho g hg
      · obtain rfl := mem_singleton.1 ho
        rw [hlayout]
        exact ⟨hnew g hg, (hop.frees g hg).2.2⟩
    · rw [hop.trace,flatMap_append,map_append,nodup_append]
      refine ⟨honce, by simpa [hlayout] using hop.once, ?_⟩
      -- What is freed now was owned until now, so it was not freed before.
      rintro _ ha _ hb rfl
      obtain ⟨g,hg,rfl⟩ := mem_map.1 ha
      obtain ⟨o,ho,hg⟩ := mem_flatMap.1 hg
      obtain ⟨g',hg',heq⟩ := mem_map.1 hb
      obtain ⟨-,⟨t,ht,htg⟩,-⟩ := hop.frees g' (by simpa using hg')
      rw [hlayout] at heq
      exact (hrel.gone o ho g hg).2 t (.inl ht) (by rw [htg,heq])
    · rw [hop.trace,pairwise_append]
      refine ⟨hunread, pairwise_singleton _ _, ?_⟩
      intro o ho o' ho' g hg r hr
      obtain rfl := mem_singleton.1 ho'
      obtain ⟨-,t,ht,htr⟩ := hop.reads r hr
      rw [hlayout,← htr]
      exact (hrel.gone o ho g hg).2 t ht
    · intro o ho hend g hg r hr
      rw [hop.trace,mem_append] at ho
      rcases ho with ho | ho
      · exact hkept o ho hend g hg r hr
      · obtain rfl := mem_singleton.1 ho
        rw [hlayout]
        exact hop.kept hend g hg r hr

theorem Steps.released (hsteps : Steps callees strict floor s s') (h : s.Sound) (hrel : s.Released) :
    s'.Released := by
  induction hsteps with
  | refl => exact hrel
  | tail hsteps hstep ih => exact hstep.released (Steps.sound hsteps h) ih

theorem released_of_trace_eq_nil (h : s.trace = []) : s.Released :=
  ⟨by simp [h], by simp [h], by simp [h], by simp [h]⟩

end Polled.Passage
