import Polled.Proofs.Derivation

/-!
What returns, in the text and in the lowered code.

`Block.mustReturn` looks at the last statement only; lowering goes through all of them and refuses what
stands behind one that returns. `lower_returns_iff` is their agreement.
-/

namespace Polled

open Lower

variable {f : Frame} {s : Stmt} {d d' : Draft} {flow : Flow} {b : Block}

/-- The block stands somewhere inside of the other one, in an arm or in the body of a loop. -/
inductive Block.Inside (inner : Block) : Block → Prop
  | here : inner.Inside inner
  | onTrue {outer : Block} {span : Span} {cond : Expr} {onTrue onFalse : Block}
      (hmem : .branch span cond onTrue onFalse ∈ outer.stmts) (h : inner.Inside onTrue) :
        inner.Inside outer
  | onFalse {outer : Block} {span : Span} {cond : Expr} {onTrue onFalse : Block}
      (hmem : .branch span cond onTrue onFalse ∈ outer.stmts) (h : inner.Inside onFalse) :
        inner.Inside outer
  | body {outer : Block} {span : Span} {cond : Expr} {body : Block}
      (hmem : .loop span cond body ∈ outer.stmts) (h : inner.Inside body) : inner.Inside outer

/-- Some statement stands right behind one that returns on all paths, at whatever depth. -/
def Block.HasUnreachable (b : Block) : Prop :=
  ∃ inner before s next after, Block.Inside inner b ∧ inner.stmts = before ++ s :: next :: after ∧
    s.mustReturn = true

theorem Stmt.lower_of_lowerAll {after : List Stmt} (before : List Stmt)
    (h : Stmt.lowerAll f (before ++ s :: after) d = .ok (flow, d')) :
    ∃ e first e', s.lower f e = .ok (first, e') ∧ (after ≠ [] → first = .continues) := by
  induction before generalizing d with
  | nil =>
    rcases Stmt.lowerAll_cons_eq_ok h with ⟨hs,hafter,-⟩ | ⟨e,-,hs,-,-⟩
    · exact ⟨d, _, d', hs, absurd hafter⟩
    · exact ⟨d, _, e, hs, fun _ => rfl⟩
  | cons s' before ih =>
    rcases Stmt.lowerAll_cons_eq_ok h with ⟨-,hnil,-⟩ | ⟨-,_,-,-,hrest⟩
    · simp at hnil
    · exact ih hrest

theorem Block.lower_of_mem (hmem : s ∈ b.stmts) (h : b.lower f d = .ok (flow, d')) :
    ∃ e first e', s.lower f e = .ok (first, e') := by
  obtain ⟨_,_⟩ := b
  obtain ⟨before,_,rfl⟩ := List.append_of_mem hmem
  obtain ⟨e,first,e',hs,-⟩ := Stmt.lower_of_lowerAll before h
  exact ⟨e, first, e', hs⟩

/-- What stands inside of a block that is lowered is lowered, in the frame of its closure if it is the
body of a loop. -/
theorem Block.Inside.lower {inner outer : Block} (h : inner.Inside outer)
    (hok : outer.lower f d = .ok (flow, d')) :
    ∃ g e first e', inner.lower g e = .ok (first, e') := by
  induction h generalizing f d d' flow with
  | here => exact ⟨f, d, flow, d', hok⟩
  | onTrue hmem _ ih =>
    obtain ⟨e,first,e',hs⟩ := lower_of_mem hmem hok
    obtain ⟨_,_,_,_,_,_,-,-,hT,-,-⟩ := Stmt.branch_eq_ok hs
    exact ih hT
  | onFalse hmem _ ih =>
    obtain ⟨e,first,e',hs⟩ := lower_of_mem hmem hok
    obtain ⟨_,_,_,_,_,_,-,-,-,hF,-⟩ := Stmt.branch_eq_ok hs
    exact ih hF
  | body hmem _ ih =>
    obtain ⟨e,_,_,hs⟩ := lower_of_mem hmem hok
    obtain ⟨-,_,_,_,_,-,-,hrun,-,-⟩ := Stmt.loop_eq_ok hs
    exact ih hrun

theorem Block.HasUnreachable.lower_ne_ok (h : b.HasUnreachable) (f : Frame) (d d' : Draft)
    (flow : Flow) :
    b.lower f d ≠ .ok (flow, d') := by
  intro hok
  obtain ⟨⟨_,_⟩,before,s,_,_,hinside,rfl,hs⟩ := h
  obtain ⟨g,e,_,_,hinner⟩ := hinside.lower hok
  obtain ⟨_,_,_,hfirst,hgoes⟩ := Stmt.lower_of_lowerAll before hinner
  cases (hgoes (List.cons_ne_nil _ _)).symm.trans ((s.announced g _ _ _ hfirst).1.2 hs)

theorem Block.lowerReturning_eq_ok (h : b.lowerReturning f d = .ok ((), d')) :
    b.lower f d = .ok (.returns, d') := by
  simp only [lowerReturning,bind_eq_ok] at h
  obtain ⟨flow,e,hb,h⟩ := h
  cases flow with
  | returns => exact ((pure_eq_ok _ _).1 h).2 ▸ hb
  | continues => exact ((refuse_eq_ok _ _ _).1 h).elim

/-- The two notions of returning agree. A block that is lowered returns if and only if its text does; a
body that is lowered returns on all paths; and with unreachable code in it, neither can be lowered. -/
theorem lower_returns_iff (f : Frame) (b : Block) (d : Draft) :
    (∀ flow d', b.lower f d = .ok (flow, d') → (flow = .returns ↔ b.mustReturn = true)) ∧
    (∀ d', b.lowerReturning f d = .ok ((), d') → b.mustReturn = true) ∧
    (b.HasUnreachable → (∃ halt, b.lower f d = .error halt) ∧
      ∃ halt, b.lowerReturning f d = .error halt) := by
  refine ⟨fun flow d' h => (b.announced f d flow d' h).1, fun d' h => ?_, fun h => ⟨?_, ?_⟩⟩
  · exact (b.announced f d _ d' (b.lowerReturning_eq_ok h)).1.1 rfl
  · cases hb : b.lower f d with
    | error halt => exact ⟨halt, rfl⟩
    | ok r => exact absurd hb (h.lower_ne_ok f d r.2 r.1)
  · cases hb : b.lowerReturning f d with
    | error halt => exact ⟨halt, rfl⟩
    | ok r => exact absurd (Block.lowerReturning_eq_ok hb) (h.lower_ne_ok f d r.2 .returns)

end Polled
