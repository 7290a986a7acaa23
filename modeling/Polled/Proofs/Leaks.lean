import Polled.Proofs.Ownership

/-!
Every heap value that a path gets hold of is given away or freed on it.
-/

namespace Polled.Passage

open List

variable {callees : Callees} {strict : Prop} {floor : Nat} {s s' : Passage}

variable {op : Op} {r : Register} {params : Nat}

/-- Somebody answers for the group of `r`: the activation, an operation to come, or one that ran. -/
def Covers (callees : Callees) (s : Passage) (r : Register) : Prop :=
  (∃ t, s.owned t ∧ s.layout.root t = s.layout.root r) ∨
    (∃ t ∈ s.pending, s.layout.root t = s.layout.root r) ∨
    ∃ op ∈ s.trace, ∃ t ∈ op.consumes callees, s.layout.root t = s.layout.root r

/-- The heap values that the path was given or has made are covered. -/
structure Covered (callees : Callees) (params : Nat) (s : Passage) : Prop where
  params_le : params ≤ s.layout.size
  covers : ∀ r, s.layout.heap r → r < params ∨ (∃ op ∈ s.trace, r ∈ op.provides) → s.Covers callees r

theorem mem_mentions_of_consumes (h : r ∈ op.consumes callees) : r ∈ op.mentions := by
  have hpasses : r ∈ ((op.passes callees).filter (·.2)).map (·.1) → r ∈ op.mentions := by
    intro hr
    obtain ⟨p,hp,rfl⟩ := mem_map.1 hr
    have hmem := Op.mem_reads_of_passes (mem_filter.1 hp).1
    simp [Op.mentions,hmem]
  cases op with
  | ret values garbage =>
    simpa [Op.consumes,Op.mentions,Op.reads,Op.needs,Op.frees,Op.provides,or_comm] using h
  | restartLoop values garbage =>
    simpa [Op.consumes,Op.mentions,Op.reads,Op.needs,Op.frees,Op.provides,or_comm] using h
  | free register done => simp_all [Op.consumes,Op.mentions,Op.frees]
  | _ => exact hpasses h

section

variable (hstep : Step callees strict floor s s')

include hstep

/-- A step hands whatever it takes away to something else that answers for it. -/
theorem Step.covers (h : s.Sound) (hr : r < s.layout.size)
    (hcov : s.Covers callees r) : s'.Covers callees r := by
  have hroot : ∀ t, s.Touches t → s.layout.root t = s.layout.root r →
      s'.layout.root t = s'.layout.root r :=
    fun t ht heq => hstep.root_congr (h.bound t ht) hr heq
  have hran : ∀ op ∈ s.trace, ∀ t ∈ op.consumes callees, s.layout.root t = s.layout.root r →
      s'.layout.root t = s'.layout.root r :=
    fun op hop t ht => hroot t (.inr ⟨op, hop, mem_mentions_of_consumes ht⟩)
  cases hstep with
  | arrange hperm =>
    rcases hcov with hc | ⟨t,ht,htr⟩ | hc
    · exact .inl hc
    · exact .inr (.inl ⟨t, hperm.mem_iff.2 ht, htr⟩)
    · exact .inr (.inr hc)
  | reserve k =>
    rcases hcov with ⟨t,ht,htr⟩ | hc | hc
    · exact .inl ⟨t, .inl ht, htr⟩
    · exact .inr (.inl hc)
    · exact .inr (.inr hc)
  | @take g =>
    rcases hcov with ⟨t,ht,htr⟩ | ⟨t,ht,htr⟩ | hc
    · by_cases hg : s.layout.root t = s.layout.root g
      · exact .inr (.inl ⟨g, mem_cons_self, hg.symm.trans htr⟩)
      · exact .inl ⟨t, ⟨ht, hg⟩, htr⟩
    · exact .inr (.inl ⟨t, mem_cons_of_mem g ht, htr⟩)
    · exact .inr (.inr hc)
  | @emit op _ _ _ _ _ hgiven =>
    rcases hcov with hc | ⟨t,ht,htr⟩ | ⟨o,ho,t,ht,htr⟩
    · exact .inl hc
    · rw [hgiven,mem_append] at ht
      rcases ht with ht | ht
      · refine .inr (.inr ⟨op, mem_append_right _ (mem_singleton_self op), t, ?_, htr⟩)
        obtain ⟨p,hp,rfl⟩ := mem_map.1 ht
        obtain ⟨hp,hown⟩ := mem_filter.1 hp
        have hmem : p.1 ∈ ((op.passes callees).filter (·.2)).map (·.1) :=
          mem_map.2 ⟨p, mem_filter.2 ⟨hp, (Bool.and_eq_true_iff.1 hown).1⟩, rfl⟩
        cases op <;> first | exact hmem | simp_all [Op.endsActivation,Op.frees]
      · exact .inr (.inl ⟨t, ht, htr⟩)
    · exact .inr (.inr ⟨o, mem_append_left _ ho, t, ht, htr⟩)
  | @free g _ c _ _ _ _ _ hpending =>
    rcases hcov with ⟨u,hu,hur⟩ | ⟨u,hu,hur⟩ | ⟨o,ho,u,hu,hur⟩
    · by_cases hgu : s.layout.root u = s.layout.root g
      · exact .inr (.inr ⟨.free g c, mem_append_right _ (mem_singleton_self _), g, by simp [Op.consumes],
          hgu.symm.trans hur⟩)
      · exact .inl ⟨u, ⟨hu, hgu⟩, hur⟩
    · simp [hpending] at hu
    · exact .inr (.inr ⟨o, mem_append_left _ ho, u, hu, hur⟩)
  | @exit op _ _ hpending _ _ hall =>
    have hexit : ∀ u, u ∈ op.frees ∨ u ∈ op.needs → u ∈ op.consumes callees := by
      intro u hu
      cases op <;> simp_all [Op.endsActivation,Op.frees,Op.needs,Op.consumes]
    have hlast : op ∈ s.trace ++ [op] := mem_append_right _ (mem_singleton_self op)
    rcases hcov with ⟨u,hu,hur⟩ | ⟨u,hu,hur⟩ | ⟨o,ho,u,hu,hur⟩
    · rcases hall u hu with ⟨g,hg,hgu⟩ | ⟨g,hg,hgu⟩
      · exact .inr (.inr ⟨op, hlast, g, hexit g (.inl hg), hgu.trans hur⟩)
      · exact .inr (.inr ⟨op, hlast, g, hexit g (.inr hg), hgu.trans hur⟩)
    · simp [hpending] at hu
    · exact .inr (.inr ⟨o, mem_append_left _ ho, u, hu, hur⟩)
  | adopt hkeep hnew =>
    rcases hcov with ⟨t,ht,htr⟩ | hc | hc
    · exact .inl ⟨t, hkeep t ht, htr⟩
    · exact .inr (.inl hc)
    · exact .inr (.inr hc)
  | _ =>
    rcases hcov with ⟨t,ht,htr⟩ | ⟨t,ht,htr⟩ | ⟨o,ho,t,ht,htr⟩
    · exact .inl ⟨t, ht, hroot t (.inl (.inl ht)) htr⟩
    · exact .inr (.inl ⟨t, ht, hroot t (.inl (.inr (.inr (.inr ht)))) htr⟩)
    · exact .inr (.inr ⟨o, ho, t, ht, hran o ho t ht htr⟩)

theorem Step.owned_of_provides (hop : s'.trace = s.trace ++ [op])
    (hr : r ∈ op.provides) (hheap : s.layout.heap r) : s'.owned r := by
  cases hstep with
  | @emit o _ _ _ _ _ _ hprovides =>
    obtain rfl : o = op := by simpa using hop
    exact (hprovides r hr).2 hheap
  | @free g _ c =>
    obtain rfl : Op.free g c = op := by simpa using hop
    simp [Op.provides] at hr
  | @exit o hend =>
    obtain rfl : o = op := by simpa using hop
    simp [provides_eq_nil hend] at hr
  | _ => simp [giveUp] at hop

theorem Step.covered (h : s.Sound) (hcov : s.Covered callees params) : s'.Covered callees params := by
  refine ⟨hcov.params_le.trans hstep.size_le, ?_⟩
  have hold : ∀ r, r < s.layout.size → s'.layout.heap r →
      r < params ∨ (∃ op ∈ s.trace, r ∈ op.provides) → s'.Covers callees r := by
    intro r hr hheap horigin
    rw [Layout.heap,hstep.kind_eq hr] at hheap
    exact hstep.covers h hr (hcov.covers r hheap horigin)
  intro r hheap horigin
  rcases hstep.appends h with ht | ⟨_,hop⟩
  · rw [ht] at horigin
    have hr : r < s.layout.size := by
      rcases horigin with hp | ⟨o,ho,hr⟩
      · exact hp.trans_le hcov.params_le
      · exact h.lt_of_mentions ho (mem_append_left _ (mem_append_right _ hr))
    exact hold r hr hheap horigin
  · rcases horigin with hp | ⟨o,ho,hr⟩
    · exact hold r (hp.trans_le hcov.params_le) hheap (.inl hp)
    · rw [hop.trace,mem_append] at ho
      rcases ho with ho | ho
      · exact hold r (h.lt_of_mentions ho (mem_append_left _ (mem_append_right _ hr))) hheap
          (.inr ⟨o, ho, hr⟩)
      · obtain rfl := mem_singleton.1 ho
        have hs : s.layout.heap r := by rwa [← hop.layout]
        exact .inl ⟨r, hstep.owned_of_provides hop.trace hr hs, rfl⟩

end

theorem Steps.covered (hsteps : Steps callees strict floor s s') (h : s.Sound)
    (hcov : s.Covered callees params) :
    s'.Covered callees params := by
  induction hsteps with
  | refl => exact hcov
  | tail hsteps hstep ih => exact hstep.covered (Steps.sound hsteps h) ih

end Polled.Passage
