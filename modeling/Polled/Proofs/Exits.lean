import Polled.Proofs.Firing
import Polled.Proofs.Shapes

/-!
Which exit an activation takes.

Conditions are raised by branches, and a branch raises one of its targets only. Where both arms of every
`if` return or none, that leaves one exit (`ends_alike`); otherwise two exits compete (`exits_compete`).
-/

namespace Polled

open Lower List

variable {g k : GuardedOp} {i : Nat} {c : Condition} {mixed : Prop}

/-- A set of conditions in which every branch has gone one way at most. -/
structure Choice (chosen : Condition → Prop) (gs : List GuardedOp) : Prop where
  opened : ∀ g ∈ gs, ∀ t a b, g.op = .branch t a b → chosen a ∨ chosen b → chosen g.condition
  single : ∀ g ∈ gs, ∀ t a b, g.op = .branch t a b → ¬(chosen a ∧ chosen b)

/-- Nothing is open behind an exit that is. -/
def Apart (chosen : Condition → Prop) (g h : GuardedOp) : Prop :=
  g.op.endsActivation = true → chosen g.condition → ¬chosen h.condition

section

variable {chosen : Condition → Prop} {flow : Flow} {gs hs : List GuardedOp}

theorem Choice.of_subset (h : Choice chosen gs) (hsub : ∀ g ∈ hs, g ∈ gs) : Choice chosen hs :=
  ⟨fun g hg => h.opened g (hsub g hg), fun g hg => h.single g (hsub g hg)⟩

theorem Shape.rooted (h : Shape mixed c flow gs) (hchoice : Choice chosen gs) (hg : g ∈ gs)
    (hopen : chosen g.condition) :
    chosen c := by
  induction h with
  | line _ =>
    obtain ⟨_,-,rfl⟩ := mem_map.1 hg
    exact hopen
  | exit _ =>
    rw [mem_singleton.1 hg] at hopen
    exact hopen
  | @fork c a b t _ _ _ opsT opsF _ _ _ _ _ hseam _ ihT ihF =>
    have hbranch : chosen a ∨ chosen b → chosen c := hchoice.opened _ mem_cons_self t a b rfl
    have hchoiceT : Choice chosen opsT := hchoice.of_subset fun g hg => by simp [hg]
    have hchoiceF : Choice chosen opsF := hchoice.of_subset fun g hg => by simp [hg]
    rcases mem_cons.1 hg with rfl | hg
    · exact hopen
    · rcases mem_append.1 hg with hg | hg
      · rcases mem_append.1 hg with hg | hg
        · exact hbranch (.inl (ihT hchoiceT hg))
        · exact hbranch (.inr (ihF hchoiceF hg))
      · rcases (hseam g hg).1 with heq | heq
        · exact hbranch (.inl (heq ▸ hopen))
        · exact hbranch (.inr (heq ▸ hopen))
  | seq _ _ ih ih' =>
    rcases mem_append.1 hg with hg | hg
    · exact ih (hchoice.of_subset fun g hg => mem_append_left _ hg) hg
    · exact ih' (hchoice.of_subset fun g hg => mem_append_right _ hg) hg

theorem apart_of_not_exit (h : g.op.endsActivation = false) : Apart chosen g k := by
  intro hg
  rw [h] at hg
  cases hg

/-- Where no branch is mixed, code that goes on has no exits, and behind the exit of other code nothing
is open. -/
theorem Shape.exits (h : Shape False c flow gs) (hchoice : Choice chosen gs) :
    (flow = .continues → ∀ g ∈ gs, g.op.endsActivation = false) ∧ gs.Pairwise (Apart chosen) := by
  induction h with
  | @line c ops hplain =>
    have hnone : ∀ g ∈ ops.map (GuardedOp.mk c), g.op.endsActivation = false := by
      intro g hg
      obtain ⟨op,hop,rfl⟩ := mem_map.1 hg
      exact (hplain op hop).goes
    exact ⟨fun _ => hnone, pairwise_iff_forall_sublist.2 fun hsub =>
      apart_of_not_exit (hnone _ (hsub.subset mem_cons_self))⟩
  | exit _ => exact ⟨by simp, pairwise_singleton _ _⟩
  | @fork _ a b t flowT flowF _ opsT opsF seam hflow hmixed hT hF hseam hstop ihT ihF =>
    obtain rfl : flowT = flowF := hmixed.resolve_right id
    have hchoiceT : Choice chosen opsT := hchoice.of_subset fun g hg => by simp [hg]
    have hchoiceF : Choice chosen opsF := hchoice.of_subset fun g hg => by simp [hg]
    obtain ⟨hnoneT,hapartT⟩ := ihT hchoiceT
    obtain ⟨hnoneF,hapartF⟩ := ihF hchoiceF
    -- exits of different arms are open under different targets
    have hacross : ∀ g ∈ opsT, ∀ k ∈ opsF, Apart chosen g k := fun g hg k hk _ hopen hopen' =>
      hchoice.single _ mem_cons_self t a b rfl
        ⟨hT.rooted hchoiceT hg hopen, hF.rooted hchoiceF hk hopen'⟩
    have harms := pairwise_append.2 ⟨hapartT, hapartF, hacross⟩
    have hseams : ∀ g ∈ seam, g.op.endsActivation = false := fun g hg => (hseam g hg).2.goes
    refine ⟨fun hgoes g hg => ?_, pairwise_cons.2 ⟨fun k _ => apart_of_not_exit rfl, ?_⟩⟩
    · have hcont : flowT = .continues := by
        cases flowT with
        | continues => rfl
        | returns => exact absurd (hflow.2 ⟨rfl, rfl⟩) (by simp [hgoes])
      simp only [mem_cons,mem_append] at hg
      rcases hg with rfl | (hg | hg) | hg
      · rfl
      · exact hnoneT hcont g hg
      · exact hnoneF hcont g hg
      · exact hseams g hg
    · refine pairwise_append.2 ⟨harms, ?_, fun g hg k hk => ?_⟩
      · exact pairwise_iff_forall_sublist.2 fun hsub =>
          apart_of_not_exit (hseams _ (hsub.subset mem_cons_self))
      · cases flowT with
        | continues => exact apart_of_not_exit ((mem_append.1 hg).elim (hnoneT rfl g) (hnoneF rfl g))
        | returns =>
          rw [hstop (.inl rfl)] at hk
          cases hk
  | seq _ _ ih ih' =>
    obtain ⟨hnone,hapart⟩ := ih (hchoice.of_subset fun g hg => mem_append_left _ hg)
    obtain ⟨hnone',hapart'⟩ := ih' (hchoice.of_subset fun g hg => mem_append_right _ hg)
    refine ⟨fun hflow g hg => ?_, pairwise_append.2 ⟨hapart, hapart', fun g hg k _ => ?_⟩⟩
    · exact (mem_append.1 hg).elim (hnone rfl g) (hnone' hflow g)
    · exact apart_of_not_exit (hnone rfl g hg)

end

namespace Routine

variable {r : Routine} {o : Outcomes}

theorem position_eq {α : Type} {f : GuardedOp → List α} {gs : List GuardedOp}
    (hnodup : (gs.flatMap f).Nodup) {j : Nat} (hi : gs[i]? = some g) (hj : gs[j]? = some k) {c : α}
    (hc : c ∈ f g) (hc' : c ∈ f k) : i = j := by
  have hpairwise := (nodup_flatMap.1 hnodup).2
  obtain ⟨hi',rfl⟩ := List.getElem?_eq_some_iff.1 hi
  obtain ⟨hj',rfl⟩ := List.getElem?_eq_some_iff.1 hj
  rcases Nat.lt_trichotomy i j with hlt | heq | hlt
  · exact absurd hc' (List.pairwise_iff_getElem.1 hpairwise i j hi' hj' hlt hc)
  · exact heq
  · exact absurd hc (pairwise_iff_getElem.1 hpairwise j i hj' hi' hlt hc')

theorem Ordered.raised_by (h : r.Ordered mixed) (hi : r.ops[i]? = some g) (hc : c ∈ g.op.completionFlags)
    (hraised : r.Raised o c) : c ∈ g.op.raises (o i) ∧ r.Raised o g.condition := by
  obtain ⟨s,hs,hflag⟩ := hraised
  rcases hs.accounted.facts (.raised c) hflag with (⟨_,_,heq⟩ | heq) | ⟨j,k,hj,-,hopen,hk,-⟩
  · cases heq
  · cases heq
    have hbound := h.fresh.bound .entry (mem_flatMap.2 ⟨g, mem_of_getElem? hi, hc⟩)
    exact absurd hbound.1 (by decide)
  · have hk := raised_mem_yields.1 hk
    obtain rfl := position_eq h.fresh.nodup hi hj hc (Op.raises_subset _ _ hk)
    obtain rfl : g = k := Option.some.inj (hi.symm.trans hj)
    exact ⟨hk, hopen⟩

/-- Under fixed outcomes every branch goes one way at most, in all runs together. -/
theorem Ordered.choice (h : r.Ordered mixed) : Choice (r.Raised o) r.ops := by
  refine ⟨fun g hg t a b hop hraised => ?_, fun g hg t a b hop hboth => ?_⟩
  · obtain ⟨i,hi⟩ := mem_iff_getElem?.1 hg
    rcases hraised with hraised | hraised
    · exact (h.raised_by hi (by simp [hop,Op.completionFlags]) hraised).2
    · exact (h.raised_by hi (by simp [hop,Op.completionFlags]) hraised).2
  · obtain ⟨i,hi⟩ := mem_iff_getElem?.1 hg
    have ha := (h.raised_by hi (by simp [hop,Op.completionFlags]) hboth.1).1
    have hb := (h.raised_by hi (by simp [hop,Op.completionFlags]) hboth.2).1
    have hne : a ≠ b := by
      have hflags := (nodup_flatMap.1 h.fresh.nodup).1 g hg
      simpa [hop,Op.completionFlags] using hflags
    rw [hop,Op.raises,mem_singleton] at ha hb
    exact hne (ha.trans hb.symm)

end Routine

section

variable {table : SignatureTable} {d : Decl} {body : Block} {log : List Event}
  {l : Lowered} {r : Routine}

/-- All runs of a closure that end do so at one exit, and so do all runs of a function in which both arms
of every `if` return or none. -/
theorem ends_alike (h : lowerFunction table d body log = .ok l)
    (hr : r ∈ l.closures ∨ r = l.routine ∧ body.balanced = true) (o : Outcomes) {i j : Nat}
    (hi : r.EndsAt o i) (hj : r.EndsAt o j) : i = j := by
  have hordered : r.Ordered False :=
    ordered_of_lowerFunction h (hr.imp_right fun hr => ⟨hr.1, by simp [hr.2]⟩)
  obtain ⟨s,g,hs,hg,hexit⟩ := hi
  obtain ⟨s',k,hs',hk,hexit'⟩ := hj
  have hopen : r.Raised o g.condition := ⟨s, hs, hg.condition⟩
  have hopen' : r.Raised o k.condition := ⟨s', hs', hk.condition⟩
  have hpairwise : r.ops.Pairwise (Apart (r.Raised o)) := (hordered.shape.exits hordered.choice).2
  obtain ⟨hi',rfl⟩ := List.getElem?_eq_some_iff.1 hg.1
  obtain ⟨hj',rfl⟩ := List.getElem?_eq_some_iff.1 hk.1
  rcases Nat.lt_trichotomy i j with hlt | heq | hlt
  · exact absurd hopen' (List.pairwise_iff_getElem.1 hpairwise i j hi' hj' hlt hexit hopen)
  · exact heq
  · exact absurd hopen (pairwise_iff_getElem.1 hpairwise j i hj' hi' hlt hexit' hopen')

end

/-- `func early(c: Boolean): Integer` -/
def early : Decl where
  span := .nowhere
  name := bare "early"
  isSync := false
  isNative := false
  params := [⟨bare "c", bare (.owned .boolean)⟩]
  returns := [bare (.owned .integer)]
  body := none

/-- `if c { return 1 } else { return 2 }` -/
def eitherBody : Block where
  span := .nowhere
  stmts :=
    [.branch .nowhere (.name .nowhere "c") ⟨.nowhere, [.ret .nowhere (some (.integer .nowhere 1))]⟩
      ⟨.nowhere, [.ret .nowhere (some (.integer .nowhere 2))]⟩]

def eitherLowered : Lowered :=
  match lowerFunction .empty early eitherBody [] with
  | .ok l => l
  | .error halt => ⟨.native early.name.node false [] [], [], halt.log⟩

theorem lowerFunction_either : lowerFunction .empty early eitherBody [] = .ok eitherLowered := by cbv

theorem either_ends_alike : eitherLowered.routine.EndsAt (fun _ => true) 2 ∧
    ¬eitherLowered.routine.EndsAt (fun _ => true) 4 := by
  have hreach : eitherLowered.routine.Reaches (fun _ => true) ⟨[1, 0], [1, 0], []⟩ :=
    Routine.reaches_of_turns [0] [.fire 0, .fire 1] (by decide +kernel) (by decide +kernel)
  have hend : eitherLowered.routine.EndsAt (fun _ => true) 2 :=
    ⟨_, ⟨1, .ret [1] []⟩, hreach, ⟨by decide +kernel, by decide +kernel⟩, rfl⟩
  refine ⟨hend, fun hother => ?_⟩
  have hsame := ends_alike lowerFunction_either (.inr ⟨rfl, by decide⟩) _ hend hother
  cases hsame

/-- `if c { return 1 } return 2` -/
def earlyBody : Block where
  span := .nowhere
  stmts :=
    [.branch .nowhere (.name .nowhere "c") ⟨.nowhere, [.ret .nowhere (some (.integer .nowhere 1))]⟩
      ⟨.nowhere, []⟩,
      .ret .nowhere (some (.integer .nowhere 2))]

def earlyLowered : Lowered :=
  match lowerFunction .empty early earlyBody [] with
  | .ok l => l
  | .error halt => ⟨.native early.name.node false [] [], [], halt.log⟩

theorem lowerFunction_early : lowerFunction .empty early earlyBody [] = .ok earlyLowered := by cbv

/-- The exit behind an `if` does not wait for the arm that goes on, and may be taken before the branch
is. -/
theorem exits_compete : ¬∀ table d body log l, lowerFunction table d body log = .ok l →
    ∀ r ∈ l.routine :: l.closures, ∀ o i j, r.EndsAt o i → r.EndsAt o j → i = j := by
  intro hall
  have hfirst : earlyLowered.routine.Reaches (fun _ => true) ⟨[1, 0], [1, 0], []⟩ :=
    Routine.reaches_of_turns [0] [.fire 0, .fire 1] (by decide +kernel) (by decide +kernel)
  have hlast : earlyLowered.routine.Reaches (fun _ => true) ⟨[2, 0], [0], []⟩ :=
    Routine.reaches_of_turns [0] [.fire 3] (by decide +kernel) (by decide +kernel)
  have hsame := hall _ _ _ _ _ lowerFunction_early _ mem_cons_self (fun _ => true) 2 4
    ⟨_, ⟨1, .ret [1] []⟩, hfirst, ⟨by decide +kernel, by decide +kernel⟩, rfl⟩
    ⟨_, ⟨0, .ret [2] []⟩, hlast, ⟨by decide +kernel, by decide +kernel⟩, rfl⟩
  cases hsame

end Polled
