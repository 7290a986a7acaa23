import Polled.Proofs.Children
import Polled.Proofs.Supply

/-!
The path of an activation whose branches have fixed outcomes.

What the operations on it wait for comes about without anything else (`route_comes`), and whatever is
open in some run is on the route or behind its exit (`open_on_route`).
-/

namespace Polled

open Lower List

variable {c : Condition} {before after : List (GuardedOp × Nat)} {p q : GuardedOp × Nat}
  {stop : Nat → Prop}

namespace Op

/-- The condition that a branch opens. -/
def target (goes : Bool) : Op → List Condition
  | .branch _ ifTrue ifFalse => [if goes then ifTrue else ifFalse]
  | _ => []

theorem target_subset_raises (goes : Bool) (op : Op) : op.target goes ⊆ op.raises goes := by
  cases op <;> simp [target,raises]

theorem mem_target {goes : Bool} {op : Op} (hc : c ∈ op.targets) (hraised : c ∈ op.raises goes) :
    c ∈ op.target goes := by
  cases op <;> simp_all [targets,target,raises]

theorem needs_subset_reads (op : Op) : op.needs ⊆ op.reads := by
  cases op <;> simp [needs,reads]

theorem targets_subset (op : Op) : op.targets ⊆ op.completionFlags := by
  cases op <;> simp [targets,completionFlags]

end Op

/-- Every operation stands under a condition that is known or that a branch before it opens. -/
def Heralded : List Condition → List GuardedOp → Prop
  | _, [] => True
  | known, g :: gs => g.condition ∈ known ∧ Heralded (g.op.targets ++ known) gs

section

variable {known known' : List Condition} {gs hs : List GuardedOp}

theorem Heralded.mono (h : Heralded known gs) (hsub : known ⊆ known') : Heralded known' gs := by
  induction gs generalizing known known' with
  | nil => trivial
  | cons g gs ih =>
    exact ⟨hsub h.1,
      ih h.2 (append_subset.2 ⟨subset_append_left _ _, subset_append_of_subset_right _ hsub⟩)⟩

theorem Heralded.append (h : Heralded known gs) (h' : Heralded known hs) :
    Heralded known (gs ++ hs) := by
  induction gs generalizing known with
  | nil => exact h'
  | cons g gs ih => exact ⟨h.1, ih h.2 (h'.mono (subset_append_right _ _))⟩

theorem heralded_of_forall (h : ∀ g ∈ gs, g.condition ∈ known) : Heralded known gs := by
  induction gs generalizing known with
  | nil => trivial
  | cons g gs ih =>
    refine ⟨h g mem_cons_self, ih fun k hk => mem_append_right _ (h k (mem_cons_of_mem g hk))⟩

theorem Shape.heralded {mixed : Prop} {flow : Flow} (h : Shape mixed c flow gs) : Heralded [c] gs := by
  induction h with
  | line _ =>
    refine heralded_of_forall fun g hg => ?_
    obtain ⟨_,-,rfl⟩ := mem_map.1 hg
    exact mem_singleton_self _
  | exit _ => exact ⟨mem_singleton_self _, trivial⟩
  | fork _ _ _ _ hseam _ ihT ihF =>
    refine ⟨mem_singleton_self _, ((ihT.mono ?_).append (ihF.mono ?_)).append
      (heralded_of_forall fun g hg => ?_)⟩
    · simp [Op.targets]
    · simp [Op.targets]
    · rcases (hseam g hg).1 with heq | heq
      · simp [Op.targets,heq]
      · simp [Op.targets,heq]
  | seq _ _ ih ih' => exact ih.append ih'

end

namespace Routine

/-- The operations on the path, from a position on. -/
def follow (o : Outcomes) : List (GuardedOp × Nat) → List Condition → List (GuardedOp × Nat)
  | [], _ => []
  | (g, i) :: rest, chosen =>
    if g.condition ∈ chosen then
      if g.op.endsActivation then [(g, i)] else (g, i) :: follow o rest (g.op.target (o i) ++ chosen)
    else follow o rest chosen

def route (r : Routine) (o : Outcomes) : List (GuardedOp × Nat) := follow o r.ops.zipIdx [.entry]

section

variable {o : Outcomes} {rest : List (GuardedOp × Nat)} {chosen : List Condition}

theorem follow_sublist : (follow o rest chosen).Sublist rest := by
  induction rest generalizing chosen with
  | nil => exact .slnil
  | cons p rest ih =>
    obtain ⟨g,i⟩ := p
    unfold follow
    split
    · split
      · exact singleton_sublist.2 mem_cons_self
      · exact (ih).cons_cons _
    · exact (ih).cons _

theorem exists_walk {w : Walk} {gs : List GuardedOp} (n : Nat) (hgoes : w.ended = false) :
    ∃ v ∈ w.through gs, v.trace = w.trace ++ (follow o (gs.zipIdx n) w.chosen).map (·.1.op) := by
  induction gs generalizing w n with
  | nil => exact ⟨w, mem_singleton_self w, by simp [follow]⟩
  | cons g gs ih =>
    rw [zipIdx_cons,follow]
    by_cases hc : g.condition ∈ w.chosen
    · rw [if_pos hc]
      cases hexit : g.op.endsActivation with
      | true =>
        have hnext := @Walk.next_op w g.condition g.op hgoes hc
          (by cases hop : g.op <;> simp_all [Op.endsActivation,Op.isBranch])
        refine ⟨⟨w.chosen, w.trace ++ [g.op], g.op.endsActivation⟩,
          mem_flatMap.2 ⟨_, hnext ▸ mem_singleton_self _, ?_⟩, by simp⟩
        rw [Walk.through_of_passes fun _ _ => .inl hexit]
        exact mem_singleton_self _
      | false =>
        cases hop : g.op.isBranch with
        | true =>
          obtain ⟨c,op⟩ := g
          cases op <;> try cases hop
          rename_i t a b
          obtain ⟨v,hv,htrace⟩ :=
            @ih ⟨(if o n then a else b) :: w.chosen, w.trace ++ [.branch t a b], false⟩ (n + 1) rfl
          refine ⟨v, mem_flatMap.2 ⟨_, ?_, hv⟩, by simpa [Op.target] using htrace⟩
          rw [Walk.next_branch hgoes hc]
          cases o n <;> simp
        | false =>
          have hnext := @Walk.next_op w g.condition g.op hgoes hc hop
          rw [hexit] at hnext
          obtain ⟨v,hv,htrace⟩ := @ih ⟨w.chosen, w.trace ++ [g.op], false⟩ (n + 1) rfl
          have htarget : g.op.target (o n) = [] := by
            cases hop' : g.op <;> simp_all [Op.isBranch,Op.target]
          refine ⟨v, mem_flatMap.2 ⟨_, hnext ▸ mem_singleton_self _, hv⟩, ?_⟩
          simpa [htarget] using htrace
    · rw [if_neg hc]
      obtain ⟨v,hv,htrace⟩ := ih (n + 1) hgoes
      exact ⟨v, mem_flatMap.2 ⟨w, Walk.next_of_passes (.inr hc) ▸ mem_singleton_self w, hv⟩, htrace⟩

theorem condition_of_follow {g : GuardedOp} {i : Nat}
    (h : follow o rest chosen = before ++ (g, i) :: after) :
    g.condition ∈ chosen ∨ ∃ p ∈ before, g.condition ∈ p.1.op.target (o p.2) := by
  induction rest generalizing chosen before with
  | nil => simp [follow] at h
  | cons p rest ih =>
    obtain ⟨k,j⟩ := p
    rw [follow] at h
    split at h
    · rename_i hc
      cases before with
      | nil =>
        have hhead : (k, j) = (g, i) := by
          split at h
          · exact (cons.inj h).1
          · exact (cons.inj h).1
        obtain ⟨rfl,rfl⟩ := Prod.mk.inj hhead
        exact .inl hc
      | cons q before =>
        split at h
        · simp at h
        · obtain ⟨rfl,htail⟩ := cons.inj h
          rcases ih htail with hc | ⟨p,hp,hc⟩
          · rcases mem_append.1 hc with hc | hc
            · exact .inr ⟨_, mem_cons_self, hc⟩
            · exact .inl hc
          · exact .inr ⟨p, mem_cons_of_mem _ hp, hc⟩
    · exact ih h

theorem eq_nil_of_exit (h : follow o rest chosen = before ++ p :: after)
    (hexit : p.1.op.endsActivation = true) :
    after = [] := by
  induction rest generalizing chosen before with
  | nil => simp [follow] at h
  | cons q rest ih =>
    obtain ⟨k,j⟩ := q
    rw [follow] at h
    split at h
    · split at h
      · cases before with
        | nil => exact (cons.inj h).2.symm
        | cons _ before => simp at h
      · rename_i hgoes
        cases before with
        | nil =>
          obtain ⟨rfl,-⟩ := cons.inj h
          exact absurd hexit hgoes
        | cons q before => exact ih (cons.inj h).2
    · exact ih h

end

variable {r : Routine} {o : Outcomes} {g : GuardedOp} {i : Nat}

theorem getElem?_of_route (h : (g, i) ∈ r.route o) : r.ops[i]? = some g :=
  mem_zipIdx_iff_getElem?.1 (follow_sublist.subset h)

theorem route_sorted (r : Routine) (o : Outcomes) : (r.route o).Pairwise fun p q => p.2 < q.2 := by
  refine List.Pairwise.sublist follow_sublist ?_
  have hrange : (r.ops.zipIdx.map (·.2)).Pairwise (· < ·) := by
    rw [zipIdx_map_snd]
    exact pairwise_lt_range'
  exact pairwise_map.1 hrange

theorem route_mem_paths (r : Routine) (o : Outcomes) : (r.route o).map (·.1.op) ∈ r.paths := by
  obtain ⟨v,hv,htrace⟩ := @exists_walk o .start r.ops 0 rfl
  exact mem_map.2 ⟨v, hv, htrace⟩

theorem route_pairwise {R : Op → Op → Prop} (h : ((r.route o).map (·.1.op)).Pairwise R)
    (hp : p ∈ r.route o) (hq : q ∈ r.route o) (hlt : p.2 < q.2) : R p.1.op q.1.op := by
  have hsorted := route_sorted r o
  obtain ⟨_,_,heq⟩ := append_of_mem hp
  rw [heq] at h hq hsorted
  obtain ⟨-,_,hfront⟩ := pairwise_append.1 hsorted
  rcases mem_append.1 hq with hq | hq
  · exact absurd (hfront q hq p mem_cons_self) (Nat.lt_asymm hlt)
  · rcases mem_cons.1 hq with rfl | hq
    · exact absurd hlt (lt_irrefl _)
    · obtain ⟨-,hback',-⟩ := pairwise_append.1 (pairwise_map.1 h)
      exact (pairwise_cons.1 hback').1 q hq

theorem le_of_exit (hp : p ∈ r.route o) (hexit : p.1.op.endsActivation = true) (hq : q ∈ r.route o) :
    q.2 ≤ p.2 := by
  have hsorted := route_sorted r o
  obtain ⟨_,_,hroute⟩ := append_of_mem hp
  obtain rfl := eq_nil_of_exit hroute hexit
  rw [hroute] at hq hsorted
  rcases mem_append.1 hq with hq | hq
  · exact ((pairwise_append.1 hsorted).2.2 q hq p (mem_singleton_self p)).le
  · exact (congrArg _ (mem_singleton.1 hq)).le

section

variable (hfeeds : r.Feeds) (h : r.route o = before ++ (g, i) :: after)
variable (hfree : ∀ x done, g.op ≠ .free x done)

include hfeeds h hfree

/-- What an operation on the route waits for is due to operations before it. -/
theorem source_of_route {w : Fact} (hw : w ∈ r.waits g) :
    r.Initial w ∨ ∃ p ∈ before, (∀ x done, p.1.op ≠ .free x done) ∧ w ∈ r.yields o p.2 p.1.op := by
  rcases mem_cons.1 hw with rfl | hw
  · rcases condition_of_follow h with hc | ⟨p,hp,hc⟩
    · exact .inl (.inr (congrArg Fact.raised (mem_singleton.1 hc)))
    · refine .inr ⟨p, hp, fun x done heq => ?_, raised_mem_yields.2 (Op.target_subset_raises _ _ hc)⟩
      rw [heq] at hc
      cases hc
  · obtain ⟨x,hx,rfl⟩ := mem_map.1 hw
    have hpath : (r.route o).map (·.1.op) = before.map (·.1.op) ++ g.op :: after.map (·.1.op) := by
      simp [h]
    rcases hfeeds _ (route_mem_paths r o) _ _ _ hpath hfree x
      (g.op.needs_subset_reads hx) with hparam | hwritten
    · obtain ⟨k,hk,heq⟩ := mem_map.1 hparam
      exact .inl (.inl ⟨k, mem_range.1 hk, by rw [heq]⟩)
    · obtain ⟨_,hop,hslot⟩ := mem_flatMap.1 hwritten
      obtain ⟨p,hp,rfl⟩ := mem_map.1 hop
      refine .inr ⟨p, hp, fun y done heq => ?_, ready_mem_yields.2 hslot⟩
      rw [heq] at hslot
      cases hslot

theorem route_comes : ∀ w ∈ r.waits g, r.Comes o (fun _ => False) w := by
  induction hn : before.length using Nat.strong_induction_on generalizing before g i after with
  | _ n ih =>
    intro w hw
    rcases source_of_route hfeeds h hfree hw with hw | ⟨⟨k,j⟩,hp,hfree',hq⟩
    · exact .initial hw
    · obtain ⟨front,_,rfl⟩ := append_of_mem hp
      rw [append_assoc,cons_append] at h
      have hk : (k, j) ∈ r.route o := h ▸ mem_append_right _ mem_cons_self
      exact .step (getElem?_of_route hk) id (ih front.length (by rw [← hn]; simp) h hfree' rfl) hq

end

section

variable {mixed : Prop} (hordered : r.Ordered mixed)

include hordered

theorem exists_stage (honce : r.WritesOnce o) {ws : List Fact} (h : ∀ w ∈ ws, r.Comes o stop w) :
    ∃ s, r.Reaches o s ∧ ∀ w ∈ ws, s.Has w := by
  obtain ⟨s,hs,-,hhas⟩ := attainable_of_forall (fun w hw => (h w hw).attainable hordered honce) _
    (clear_opening r o stop)
  exact ⟨s, hs.reached, hhas⟩

theorem raised_of_comes (honce : r.WritesOnce o) (h : ∀ w ∈ r.waits g, r.Comes o stop w) :
    r.Raised o g.condition := by
  obtain ⟨s,hs,hhas⟩ := exists_stage hordered honce h
  exact ⟨s, hs, hhas _ mem_cons_self⟩

theorem mem_follow {gs : List GuardedOp} {n : Nat} {known chosen : List Condition}
    (hgs : ∀ m g, gs[m]? = some g → r.ops[n + m]? = some g) (hherald : Heralded known gs)
    (hknown : ∀ c ∈ known, r.Raised o c → c ∈ chosen) (hp : p ∈ gs.zipIdx n)
    (hopen : r.Raised o p.1.condition) :
    p ∈ follow o (gs.zipIdx n) chosen ∨
      ∃ e ∈ follow o (gs.zipIdx n) chosen, e.1.op.endsActivation = true ∧ e.2 < p.2 := by
  induction gs generalizing n known chosen with
  | nil => cases hp
  | cons g gs ih =>
    have hg : r.ops[n]? = some g := hgs 0 g rfl
    have hrest : ∀ m k, gs[m]? = some k → r.ops[n + 1 + m]? = some k := fun m k hk => by
      rw [Nat.add_assoc,Nat.add_comm 1]
      exact hgs (m + 1) k hk
    have htargets : ∀ c ∈ g.op.targets, r.Raised o c → c ∈ g.op.target (o n) ∧ r.Raised o g.condition :=
      fun c hc hraised =>
      let ⟨hraises, hcond⟩ := hordered.raised_by hg (Op.targets_subset _ hc) hraised
      ⟨Op.mem_target hc hraises, hcond⟩
    rw [zipIdx_cons] at hp ⊢
    rw [follow]
    split
    · rename_i hc
      split
      · rename_i hexit
        rcases mem_cons.1 hp with rfl | hp
        · exact .inl (mem_singleton_self _)
        · exact .inr ⟨_, mem_singleton_self _, hexit, le_snd_of_mem_zipIdx hp⟩
      · rcases mem_cons.1 hp with rfl | hp
        · exact .inl mem_cons_self
        · refine (ih hrest hherald.2 (fun c hc hraised => ?_) hp).imp (mem_cons_of_mem _)
            fun ⟨e, he, hrest⟩ =>
            ⟨e, mem_cons_of_mem _ he, hrest⟩
          rcases mem_append.1 hc with hc | hc
          · exact mem_append_left _ (htargets c hc hraised).1
          · exact mem_append_right _ (hknown c hc hraised)
    · rename_i hc
      have hclosed : ¬r.Raised o g.condition := fun hraised => hc (hknown _ hherald.1 hraised)
      rcases mem_cons.1 hp with rfl | hp
      · exact absurd hopen hclosed
      · refine ih hrest hherald.2 (fun c hc hraised => ?_) hp
        rcases mem_append.1 hc with hc | hc
        · exact absurd (htargets c hc hraised).2 hclosed
        · exact hknown c hc hraised

theorem open_on_route (hg : r.ops[i]? = some g) (hopen : r.Raised o g.condition) :
    (g, i) ∈ r.route o ∨ ∃ e ∈ r.route o, e.1.op.endsActivation = true ∧ e.2 < i :=
  mem_follow hordered (fun m k hk => by rwa [Nat.zero_add]) hordered.shape.heralded
    (fun c hc _ => hc) (mem_zipIdx_iff_getElem?.2 hg) hopen

end

end Routine

end Polled
