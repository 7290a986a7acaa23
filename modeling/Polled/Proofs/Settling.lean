import Mathlib.Data.List.Nodup
import Polled.Proofs.Merging

/-!
What is owned behind two arms, and what each of them has to free.

A register from before the arms that only one arm still owns, and that no joined name reaches, is freed
on that arm.
-/

namespace Polled

open Lower Passage List

variable {before : Nat} {reachable : List Register}

section

variable {w : Fork} {R : Registers} {merged : Scope} {arms : Arm × Arm} {O : Bool → Register → Prop}
variable {r t v : Register} {b : Bool}

def keeps (arms : Arm × Arm) (b : Bool) (r : Register) : Prop := (armOf arms b).live.getD r false = true

theorem isOrphan_iff (reachable : List Register) : isOrphan R reachable arms r = true ↔
      ¬(keeps arms true r ↔ keeps arms false r) ∧ R.resolve r ∉ reachable := by
  have hne : ∀ a c : Bool, a ≠ c ↔ ¬(a = true ↔ c = true) := by decide
  simp only [isOrphan,Bool.and_eq_true,bne_iff_ne,Bool.not_eq_true',contains_eq_mem,
    decide_eq_false_iff_not,keeps,armOf]
  rw [hne]

theorem joinedFlag_iff (reachable : List Register) {fin : Nat} (hfin : arms.2.live.length = fin) :
    joinedFlag R reachable before arms r = true ↔
      if fin ≤ r then R.isLive r = true
      else ¬(r < before ∧ isOrphan R reachable arms r = true) ∧ ∃ b, keeps arms b r := by
  rw [joinedFlag,hfin]
  split
  · exact Iff.rfl
  · split
    · rename_i horphan
      simp only [Bool.and_eq_true,decide_eq_true_eq] at horphan
      simp [horphan]
    · rename_i horphan
      simp only [Bool.and_eq_true,decide_eq_true_eq] at horphan
      simp only [horphan,not_false_eq_true,true_and,Bool.or_eq_true]
      exact ⟨fun h => h.elim (fun h => ⟨true, h⟩) fun h => ⟨false, h⟩,
        fun ⟨b, h⟩ => by cases b with | true => exact .inl h | false => exact .inr h⟩

theorem Seam.keeps_of_group (h : Seam w R merged [] arms O) (hr : r < w.before) (ht : t < w.before)
    (hrt : R.resolve r = R.resolve t) (hlive : w.start.registers.isLive t = true)
    (hkeep : keeps arms b r) :
    keeps arms b t := by
  exact (h.shore b).group r t hr ht ((h.grows.resolve_eq hr ht).1 hrt) hkeep hlive

theorem Seam.isLive_of_keeps (h : Seam w R merged [] arms O) (hr : r < w.before)
    (hkeep : keeps arms b r) :
    w.start.registers.isLive r = true :=
  (h.shore b).mono r hr hkeep

theorem exists_keeps_of_isOrphan (h : isOrphan R reachable arms r = true) :
    ∃ b, keeps arms b r ∧ ¬keeps arms (!b) r := by
  have hne := ((isOrphan_iff reachable).1 h).1
  by_cases hT : keeps arms true r
  · exact ⟨true, hT, fun hF => hne (iff_of_true hT hF)⟩
  · exact ⟨false, by_contra fun hF => hne (iff_of_false hT hF), hT⟩

/-- Orphans on the heap, by register. -/
def Orphan (w : Fork) (R : Registers) (reachable : List Register) (arms : Arm × Arm) (b : Bool)
    (r : Register) : Prop :=
  r < w.before ∧ isOrphan R reachable arms r = true ∧ R.layout.heap r ∧ keeps arms b r

theorem orphan_condition (h : isOrphan R reachable arms r = true) (hb : keeps arms b r) :
    (if arms.1.live.getD r false then arms.1.condition else arms.2.condition) = conditions arms b := by
  have hne := ((isOrphan_iff reachable).1 h).1
  cases b with
  | true =>
    rw [if_pos (show arms.1.live.getD r false = true from hb)]
    rfl
  | false =>
    rw [if_neg (show ¬arms.1.live.getD r false = true from fun hT => hne (iff_of_true hT hb))]
    rfl

theorem Orphan.unique {b' : Bool} (h : Orphan w R reachable arms b r)
    (h' : keeps arms b' r) : b = b' := by
  have hne := ((isOrphan_iff reachable).1 h.2.1).1
  have hb := h.2.2.2
  cases b <;> cases b' <;> first | rfl | exact absurd (iff_of_true ‹_› ‹_›) hne

theorem Seam.mem_orphans (h : Seam w R merged [] arms O) (reachable : List Register) (g : Register)
    (c : Condition) :
    (g, c) ∈ orphans R reachable w.before arms ↔
      ∃ r b, Orphan w R reachable arms b r ∧ R.resolve r = g ∧ c = conditions arms b := by
  have hlost : ∀ r, r ∈ (List.range w.before).filter (fun r =>
      isOrphan R reachable arms r && (R.kind r).ownsHeap) ↔
      r < w.before ∧ isOrphan R reachable arms r = true ∧ R.layout.heap r := by
    intro r
    simp only [mem_filter,mem_range,Bool.and_eq_true]
    rfl
  simp only [orphans,mem_filterMap,mem_orderedSet,mem_map,Option.map_eq_some_iff,Prod.mk.injEq]
  constructor
  · rintro ⟨_,-,r,hfind,rfl,rfl⟩
    obtain ⟨hlt,horphan,hheap⟩ := (hlost r).1 (mem_of_find?_eq_some hfind)
    obtain ⟨b,hb,-⟩ := exists_keeps_of_isOrphan horphan
    refine ⟨r, b, ⟨hlt, horphan, hheap, hb⟩, ?_, orphan_condition horphan hb⟩
    simpa using find?_some hfind
  · rintro ⟨r,b,⟨hlt,horphan,hheap,hb⟩,rfl,rfl⟩
    have hr := (hlost r).2 ⟨hlt, horphan, hheap⟩
    refine ⟨R.resolve r, ⟨r, hr, rfl⟩, ?_⟩
    -- another member of the group may be found; it is kept by the same arm
    cases hfind : List.find? (fun t => R.resolve t == R.resolve r) ((List.range w.before).filter fun r =>
        isOrphan R reachable arms r && (R.kind r).ownsHeap) with
    | none =>
      have hnone := find?_eq_none.1 hfind r hr
      simp at hnone
    | some r' =>
      obtain ⟨hlt',horphan',_⟩ := (hlost r').1 (mem_of_find?_eq_some hfind)
      have hrr : R.resolve r' = R.resolve r := by simpa using find?_some hfind
      obtain ⟨_,hb',-⟩ := exists_keeps_of_isOrphan horphan'
      have hkeep := h.keeps_of_group hlt hlt' hrr.symm (h.isLive_of_keeps hlt' hb') hb
      exact ⟨r', rfl, rfl, orphan_condition horphan' hkeep⟩

theorem nodup_orphans (reachable : List Register) (before : Nat) :
    ((orphans R reachable before arms).map (·.1)).Nodup := by
  rw [orphans,map_filterMap]
  refine List.Nodup.filterMap ?_ (nodup_orderedSet _)
  intro a a' x hx hx'
  simp only [Option.map_map,Option.mem_def,Option.map_eq_some_iff,Function.comp_apply] at hx hx'
  obtain ⟨_,_,rfl⟩ := hx
  obtain ⟨_,_,rfl⟩ := hx'
  rfl

/-- What is owned behind the arms before anything is freed. -/
def Settled (w : Fork) (R : Registers) (merged : Scope) (arms : Arm × Arm) (r : Register) : Prop :=
  r < R.size ∧ joinedFlag R (merged.reachable R) w.before arms r = true ∧ R.layout.heap r

theorem armScope_nil (scope merged : Scope) : armScope scope merged [] = merged.get? := by
  funext x
  simp [armScope]

section

variable (h : Seam w R merged [] arms O)

include h

theorem Seam.keeps_iff (hr : r < w.fin) : O b r ↔ keeps arms b r ∧ R.layout.heap r :=
  (h.shore b).flagged r hr

/-- What only the other arm owns is reached by a name now, or was never met by this one. -/
theorem Seam.adopt {callees : Callees} {strict : Prop} {T : List Op} (hfin : arms.2.live.length = w.fin)
    (hclean : (banks R merged [] arms O b).Clean w.before (w.low !b) (w.high !b) T) :
    Step callees strict w.before ((banks R merged [] arms O b).passage T)
      (side R (fun r => O b r ∨ Settled w R merged arms r) merged.get? T) := by
  have hend : side R (fun r => O b r ∨ Settled w R merged arms r) merged.get? T =
      { (banks R merged [] arms O b).passage T with
        owned := fun r => O b r ∨ Settled w R merged arms r } := by
    simp only [banks,Bank.passage,armScope_nil]
    rfl
  rw [hend]
  refine .adopt (fun r hr => .inl hr) ?_
  rintro r (hr | ⟨hlt,hflag,hheap⟩)
  · exact ⟨hclean.sound.lt_of_owned hr, hclean.sound.heap r hr, .inl hr⟩
  · refine ⟨hlt, hheap, ?_⟩
    by_cases hnamed : ∃ x t, merged.get? x = some t ∧ R.resolve t = R.resolve r
    · obtain ⟨x,t,hx,htr⟩ := hnamed
      exact .inr (.inl ⟨x, t, by simpa only [banks,Bank.passage,side,armScope_nil] using hx, htr⟩)
    have hreach : R.resolve r ∉ merged.reachable R := fun hmem =>
      hnamed ((h.sorted.mem_reachable R _).1 hmem)
    rw [joinedFlag_iff _ hfin] at hflag
    split at hflag
    · rename_i hge
      exact absurd (h.named r hge hlt hheap) hnamed
    · rename_i hlt'
      obtain ⟨hno,b',hkeep⟩ := hflag
      by_cases howned : O b r
      · exact .inl howned
      have hnot : ¬keeps arms b r := fun hb =>
        howned ((h.keeps_iff (Nat.lt_of_not_le hlt')).2 ⟨hb, hheap⟩)
      obtain rfl : b' = !b := by
        cases b <;> cases b' <;> first | rfl | exact absurd hkeep hnot
      have hge : w.before ≤ r := by
        by_contra hlt
        refine hno ⟨Nat.lt_of_not_le hlt, (isOrphan_iff _).2 ⟨fun hiff => hnot ?_, hreach⟩⟩
        cases b
        · exact hiff.1 hkeep
        · exact hiff.2 hkeep
      obtain hlow | ⟨hlo,hhi⟩ := (h.shore !b).own r hkeep
      · exact absurd hge (not_le.2 hlow)
      have hfresh : w.before ≤ R.resolve r := h.grows.root_fresh r hge
      refine .inr (.inr ⟨hfresh, fun t ht htr => ?_⟩)
      have htr : R.resolve t = R.resolve r := htr
      have hheap' : R.layout.heap t := by
        rw [Layout.heap,h.wf.kind_eq htr]
        exact hheap
      rcases hclean.clear t ht hheap' with hold | ⟨y,m,hm,hmt⟩ | hother
      · have hold : R.resolve t < w.before := hold
        rw [htr] at hold
        exact absurd hfresh (not_le.2 hold)
      · exact hnamed ⟨y, m, hm, hmt.trans htr⟩
      · exact hother r hlo hhi htr.symm

/-- Each arm is rid of its orphans, and only then the arms own the same. -/
theorem Seam.owned_iff (hfin : arms.2.live.length = w.fin)
    (hwf : w.start.registers.layout.WellFormed) (hbefore : w.before ≤ w.fin) :
    ((O b r ∨ Settled w R merged arms r) ∧
        ∀ p ∈ orphans R (merged.reachable R) w.before arms, p.2 = conditions arms b →
          R.resolve r ≠ R.resolve p.1) ↔
      Settled w R merged arms r ∧
        ∀ p ∈ orphans R (merged.reachable R) w.before arms, R.resolve r ≠ R.resolve p.1 := by
  have hself : ∀ r, R.resolve (R.resolve r) = R.resolve r := h.wf.root_root
  constructor
  · rintro ⟨hr,hfreed⟩
    have hsettled : Settled w R merged arms r := by
      rcases hr with hr | hr
      · have hheap : R.layout.heap r := (h.shore b).clean.sound.heap r hr
        refine ⟨(h.shore b).clean.sound.lt_of_owned hr, (joinedFlag_iff _ hfin).2 ?_, hheap⟩
        split
        · rename_i hge
          exact h.live r hge ((h.shore b).clean.sound.lt_of_owned hr)
        · rename_i hge
          have hkeep := ((h.keeps_iff (Nat.lt_of_not_le hge)).1 hr).1
          refine ⟨?_, b, hkeep⟩
          rintro ⟨hlt,horphan⟩
          have hmem := (h.mem_orphans (merged.reachable R) _ _).2
            ⟨r, b, ⟨hlt, horphan, hheap, hkeep⟩, rfl, rfl⟩
          exact hfreed _ hmem rfl (hself r).symm
      · exact hr
    refine ⟨hsettled, ?_⟩
    rintro ⟨g,c⟩ hp heq
    obtain ⟨t,b',ht,rfl,rfl⟩ := (h.mem_orphans _ _ _).1 hp
    have hrt : R.resolve r = R.resolve t := heq.trans (hself t)
    have hlt : r < w.before := (h.grows.root_eq hwf ht.1 hrt).1
    have hflag := hsettled.2.1
    rw [joinedFlag_iff _ hfin,if_neg (not_le.2 (hlt.trans_le hbefore))] at hflag
    obtain ⟨hno,b'',_⟩ := hflag
    have hreach : R.resolve r ∉ merged.reachable R := by
      rw [hrt]
      exact ((isOrphan_iff _).1 ht.2.1).2
    -- no orphan itself, so both arms keep it; but then both keep the orphan
    have hboth : keeps arms true r ↔ keeps arms false r := by
      by_contra hne
      exact hno ⟨hlt, (isOrphan_iff _).2 ⟨hne, hreach⟩⟩
    have hother : keeps arms (!b') r := by
      cases b' <;> cases b'' <;> simp_all
    have ht' := h.keeps_of_group hlt ht.1 hrt (h.isLive_of_keeps ht.1 ht.2.2.2) hother
    exact absurd (ht.unique ht') (by cases b' <;> decide)
  · rintro ⟨hr,hfreed⟩
    exact ⟨.inr hr, fun p hp _ => hfreed p hp⟩

end

end

namespace Draft

/-- The draft behind two arms whose names are joined: what is owned now, and the orphans freed. -/
def settle (d : Draft) (f : Frame) (before : Nat) (merged : Scope) (arms : Arm × Arm) : Draft :=
  { d with
    registers := d.registers.withLive ((List.range d.registers.size).map
      (joinedFlag d.registers (merged.reachable d.registers) before arms))
    scope := merged : Draft }.freeAll f (orphans d.registers (merged.reachable d.registers) before arms)

variable {d : Draft} {w : Fork} {merged : Scope} {arms : Arm × Arm}
  {O : Bool → Register → Prop} {f : Frame}

theorem layout_settle : (d.settle f w.before merged arms).registers.layout = d.registers.layout :=
  (freeAll_spec _ f _).2.2.2.2.2.1.trans (d.registers.layout_withLive _)

theorem count_le_settle (d : Draft) : d.count ≤ (d.settle f before merged arms).count :=
  (freeAll_spec { d with registers := _, scope := merged } f _).2.2.2.2.2.2

theorem isLive_settle (r : Register) : (d.settle f w.before merged arms).registers.isLive r = true ↔
      (r < d.size ∧ joinedFlag d.registers (merged.reachable d.registers) w.before arms r = true) ∧
        ∀ p ∈ orphans d.registers (merged.reachable d.registers) w.before arms,
          d.registers.resolve r ≠ d.registers.resolve p.1 := by
  rw [settle,isLive_freeAll]
  dsimp only
  simp only [Registers.isLive_withLive,Registers.resolve_withLive]
  refine and_congr (and_congr_right fun hlt => ?_) Iff.rfl
  rw [getD_eq_getElem?_getD,getElem?_map,getElem?_range hlt]
  rfl

theorem owns_settle (r : Register) : (d.settle f w.before merged arms).registers.owns
      (d.settle f w.before merged arms).registers.isLive r ↔ Settled w d.registers merged arms r ∧
        ∀ p ∈ orphans d.registers (merged.reachable d.registers) w.before arms,
          d.registers.resolve r ≠ d.registers.resolve p.1 := by
  have hkind : (d.settle f w.before merged arms).registers.kind r = d.registers.kind r :=
    congrArg (fun l => l.kind r) layout_settle
  rw [Registers.owns,isLive_settle,hkind,Settled]
  constructor
  · rintro ⟨⟨⟨h1,h2⟩,h3⟩,h4⟩
    exact ⟨⟨h1, h2, h4⟩, h3⟩
  · rintro ⟨⟨h1,h2,h4⟩,h3⟩
    exact ⟨⟨⟨h1, h2⟩, h3⟩, h4⟩

end Draft

theorem taken_freeOps (count : Nat) (rs : List (Register × Condition)) (c : Condition) :
    ((freeOps count rs).filter (·.condition == c)).map (·.op) =
      (((rs.zipIdx count).filter (·.1.2 == c)).map fun p => (p.1.1, p.2)).map fun g =>
        .free g.1 g.2 := by
  rw [freeOps,filter_map,map_map,map_map]
  rfl

theorem Seam.steps_settle {callees : Callees} {strict : Prop} {w : Fork} {merged : Scope}
    {arms : Arm × Arm} {O : Bool → Register → Prop} {b : Bool} {f : Frame} {d : Draft} {T : List Op}
    (h : Seam w d.registers merged [] arms O) (hfin : arms.2.live.length = w.fin)
    (hwf : w.start.registers.layout.WellFormed) (hbefore : w.before ≤ w.fin)
    (hcond : conditions arms true ≠ conditions arms false)
    (hclean : (banks d.registers merged [] arms O b).Clean w.before (w.low !b) (w.high !b) T)
    (count : Nat) :
    Steps callees strict w.before ((banks d.registers merged [] arms O b).passage T)
      ((d.settle f w.before merged arms).along
        (T ++ ((freeOps count (orphans d.registers (merged.reachable d.registers) w.before arms)).filter
          (·.condition == conditions arms b)).map (·.op)) [] []) := by
  generalize hlost : orphans d.registers (merged.reachable d.registers) w.before arms = lost
  have hmem : ∀ g ∈ ((lost.zipIdx count).filter (·.1.2 == conditions arms b)).map fun p => (p.1.1, p.2),
      (g.1, conditions arms b) ∈ lost := by
    intro g hg
    obtain ⟨p,hp,rfl⟩ := mem_map.1 hg
    obtain ⟨hp,hc⟩ := mem_filter.1 hp
    rw [← eq_of_beq hc]
    exact fst_mem_of_mem_zipIdx hp
  have hself : ∀ r, d.registers.resolve (d.registers.resolve r) = d.registers.resolve r := h.wf.root_root
  have hfrees := @steps_frees callees strict w.before
    (side d.registers (fun r => O b r ∨ Settled w d.registers merged arms r) merged.get? T)
    (((lost.zipIdx count).filter (·.1.2 == conditions arms b)).map fun p => (p.1.1, p.2)) rfl rfl ?_ ?_
  · have howned : (d.settle f w.before merged arms).registers.owns
        (d.settle f w.before merged arms).registers.isLive = fun r =>
          (O b r ∨ Settled w d.registers merged arms r) ∧
            ∀ g ∈ ((lost.zipIdx count).filter (·.1.2 == conditions arms b)).map fun p => (p.1.1, p.2),
              d.registers.resolve r ≠ d.registers.resolve g.1 := by
      funext r
      rw [propext (Draft.owns_settle r),← propext (h.owned_iff hfin hwf hbefore),hlost]
      refine propext (and_congr_right fun _ => ⟨fun hall g hg => ?_, fun hall p hp hc => ?_⟩)
      · exact hall (g.1, conditions arms b) (hmem g hg) rfl
      · obtain ⟨i,hi⟩ := mem_iff_getElem?.1 hp
        refine hall (p.1, count + i) (mem_map.2 ⟨(p, count + i), mem_filter.2 ⟨?_, by simp [hc]⟩, rfl⟩)
        exact mk_mem_zipIdx_iff_le_and_getElem?_sub.2 (by simpa using hi)
    have hscope : (d.settle f w.before merged arms).scope = merged := (Draft.freeAll_spec _ f _).1
    rw [taken_freeOps,Draft.along,Draft.layout_settle,howned,hscope]
    exact (Relation.ReflTransGen.single (h.adopt hfin hclean)).trans hfrees
  · intro g hg
    have hg := hmem g hg
    rw [← hlost] at hg
    obtain ⟨r,b',hr,hrg,hb⟩ := (h.mem_orphans _ _ _).1 hg
    obtain rfl : b = b' := by
      cases b <;> cases b' <;> first | rfl | exact absurd hb hcond | exact absurd hb hcond.symm
    have hroot : d.registers.resolve r = d.registers.resolve g.1 := by
      rw [← hrg,hself]
    refine ⟨?_, ⟨r, .inl ?_, hroot⟩, fun x u hx hu => ?_⟩
    · rw [← hrg]
      exact h.wf.root_lt (hr.1.trans_le h.grows.size_le)
    · exact (h.keeps_iff (hr.1.trans_le hbefore)).2 ⟨hr.2.2.2, hr.2.2.1⟩
    · have hu : d.registers.resolve u = d.registers.resolve g.1 := hu
      refine ((isOrphan_iff _).1 hr.2.1).2 ((h.sorted.mem_reachable _ _).2 ⟨x, u, hx, ?_⟩)
      rw [hu,hroot]
  · have hgroots :
      (((lost.zipIdx count).filter (·.1.2 == conditions arms b)).map fun p => (p.1.1, p.2)).map
        (fun g => d.registers.resolve g.1) =
        ((lost.zipIdx count).filter (·.1.2 == conditions arms b)).map (·.1.1) := by
      rw [map_map]
      refine map_congr_left fun p hp => ?_
      have hp := hmem _ (mem_map_of_mem hp)
      rw [← hlost] at hp
      obtain ⟨r,-,-,hrg,-⟩ := (h.mem_orphans _ _ _).1 hp
      show d.registers.resolve p.1.1 = p.1.1
      have hrg : d.registers.resolve r = p.1.1 := hrg
      rw [← hrg,hself]
    have hnodup := @nodup_orphans d.registers arms (merged.reachable d.registers) w.before
    have hfst : (lost.zipIdx count).map (·.1.1) = lost.map (·.1) := by
      rw [← zipIdx_map_fst count lost,map_map]
      simp only [zipIdx_map_fst]
      rfl
    rw [hlost,← hfst] at hnodup
    show (List.map (fun g : Register × Condition => d.registers.resolve g.1) _).Nodup
    rw [hgroots]
    exact hnodup.sublist (filter_sublist.map _)

end Polled
