import Polled.Proofs.Supply

/-!
Where paths lead.

Every walk comes to an exit: functions return on all paths, and the rounds of a loop start over or hand
back their values. `complete_and_fed` puts this together with what paths read.
-/

namespace Polled

open Lower Draft List

def EndsOnce (p : List Op) : Prop :=
  ∃ front exit, p = front ++ [exit] ∧ exit.endsActivation = true ∧ ∀ op ∈ front,
    op.endsActivation = false

/-- A walk has taken an exit if it has ended, as its last operation, and otherwise none. -/
structure Walk.Stopped (w : Walk) : Prop where
  arrived : w.ended = true → EndsOnce w.trace
  onward : w.ended = false → ∀ op ∈ w.trace, op.endsActivation = false

namespace Walk

variable {w v : Walk} {g : GuardedOp} {gs : List GuardedOp}

theorem stopped_start : start.Stopped := ⟨nofun, fun _ _ => nofun⟩

theorem Stopped.next (h : w.Stopped) (hv : v ∈ w.next g) : v.Stopped := by
  unfold Walk.next at hv
  split at hv
  · rwa [mem_singleton.1 hv]
  · rename_i hgoes
    have hgoes : w.ended = false := by
      cases hend : w.ended with
      | false => rfl
      | true => simp [hend] at hgoes
    have hfront := h.onward hgoes
    split at hv
    · have hbranch : ∀ {test a b}, ∀ op ∈ w.trace ++ [Op.branch test a b],
          op.endsActivation = false := by
        intro test a b op hop
        rcases mem_append.1 hop with hop | hop
        · exact hfront op hop
        · rw [mem_singleton.1 hop]
          rfl
      simp only [mem_cons,not_mem_nil,or_false] at hv
      rcases hv with rfl | rfl
      · exact ⟨nofun, fun _ => hbranch⟩
      · exact ⟨nofun, fun _ => hbranch⟩
    · rw [mem_singleton.1 hv]
      refine ⟨fun hexit => ⟨w.trace, _, rfl, hexit, hfront⟩, fun hgoes op hop => ?_⟩
      rcases mem_append.1 hop with hop | hop
      · exact hfront op hop
      · rwa [mem_singleton.1 hop]

theorem Stopped.through (h : w.Stopped) (hv : v ∈ w.through gs) : v.Stopped := by
  induction gs generalizing w with
  | nil => rwa [mem_singleton.1 hv]
  | cons g gs ih =>
    obtain ⟨u,hu,hv⟩ := mem_flatMap.1 hv
    exact ih (h.next hu) hv

end Walk

/-- Every path comes to an exit. -/
def Routine.Complete (r : Routine) : Prop := ∀ p ∈ r.paths, EndsOnce p

theorem Routine.complete_of_ended {r : Routine} (h : ∀ v ∈ Walk.start.through r.ops, v.ended = true) :
    r.Complete := by
  intro p hp
  obtain ⟨v,hv,rfl⟩ := mem_map.1 hp
  exact (Walk.stopped_start.through hv).arrived (h v hv)

section

variable {callees : Callees} {table : SignatureTable} {r : Routine}

theorem Closure.complete {loops : List (Expr × Block)} {all : List Routine}
    (h : Closure callees table loops all r) :
    r.Complete := by
  obtain ⟨f,_,_,_,_,_,_,-,-,-,-,-,hadvance,hbody,hround,-,rfl⟩ := h
  obtain ⟨_,t,_,_,_,-,hwalks⟩ := hround.walks hadvance hbody
  exact Routine.complete_of_ended fun v hv => (hwalks v hv).1

/-- Every path through a function or a closure comes to an exit, and reads on its way only parameters and
what it has written. -/
theorem complete_and_fed {d : Decl} {body : Block} {log : List Event} {l : Lowered}
    (h : lowerFunction table d body log = .ok l) (hr : r ∈ l.routine :: l.closures) :
    r.Complete ∧ r.Feeds := by
  refine ⟨?_, feeds_of_lowerFunction h hr⟩
  rcases mem_cons.1 hr with rfl | hr
  · obtain ⟨_,_,-,hcourse⟩ := exists_course h
    exact Routine.complete_of_ended fun v hv => (hcourse v hv).ended_of_returns rfl
  · exact (closure_of_lowerFunction h hr).1.complete

theorem refill_complete_and_fed :
    refilled.routine.paths.length = 3 ∧ refilled.routine.Complete ∧ refilled.routine.Feeds :=
  ⟨by decide +kernel, complete_and_fed lowerFunction_refill mem_cons_self⟩

end

end Polled
