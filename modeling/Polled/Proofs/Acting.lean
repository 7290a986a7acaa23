/-!
Actions: what can come of work on a world.

An action relates the world before it to an outcome and to the world behind it. Two actions match if
every outcome of the one stands for an outcome of the other in the same worlds, in both directions.
-/

namespace Polled

/-- Outcomes between the world before an action and the world behind it. -/
def Act (W X : Type) := W → X → W → Prop

namespace Act

variable {W X X' Y Y' : Type}

instance : Monad (Act W) where
  pure x := fun w y w' => y = x ∧ w' = w
  bind a k := fun w y w' => ∃ x w₁, a w x w₁ ∧ k x w₁ y w'

def never : Act W X := fun _ _ _ => False

/-- The value that there is, if there is one. -/
def of : Option X → Act W X
  | some x => pure x
  | none => never

def single (a : Act W (List X × Y)) : Act W (X × Y) := do
  let ([x], y) ← a | never
  return (x, y)

theorem pure_bind (x : X) (k : X → Act W Y) : (pure x >>= k) = k x := by
  funext w y w'
  refine propext ⟨?_, fun h => ⟨x, w, ⟨rfl, rfl⟩, h⟩⟩
  rintro ⟨_,_,⟨rfl,rfl⟩,h⟩
  exact h

theorem bind_pure (a : Act W X) : (a >>= pure) = a := by
  funext w x w'
  refine propext ⟨?_, fun h => ⟨x, w', h, rfl, rfl⟩⟩
  rintro ⟨_,_,h,rfl,rfl⟩
  exact h

theorem bind_assoc {Z : Type} (a : Act W X) (k : X → Act W Y) (l : Y → Act W Z) :
    (a >>= k >>= l) = (a >>= fun x => k x >>= l) := by
  funext w z w'
  refine propext ⟨?_, ?_⟩
  · rintro ⟨y,w₂,⟨x,w₁,ha,hk⟩,hl⟩
    exact ⟨x, w₁, ha, y, w₂, hk, hl⟩
  · rintro ⟨x,w₁,ha,y,w₂,hk,hl⟩
    exact ⟨y, w₂, ⟨x, w₁, ha, hk⟩, hl⟩

/-- Steps that lead from one to the next, and a last one with an outcome. -/
inductive Iterates (step : X → W → X ⊕ Y → W → Prop) : X → W → Y → W → Prop
  | done {x : X} {y : Y} {w w' : W} (h : step x w (.inr y) w') : Iterates step x w y w'
  | again {x x' : X} {y : Y} {w w₁ w' : W} (h : step x w (.inl x') w₁)
      (hrest : Iterates step x' w₁ y w') :
      Iterates step x w y w'

def iterate (step : X → Act W (X ⊕ Y)) (x : X) : Act W Y := Iterates step x

/-- As long as the test says so, the body is done and the test is made again. -/
def loop (test : X → Act W (Bool × X)) (body : X → Act W X) : X → Act W X :=
  iterate fun x => do
    let (goes, x) ← test x
    if goes then return .inl (← body x) else return .inr x

def turn (test : X → Act W (Bool × X)) (body : X → Act W X) (x : X) : Act W (X ⊕ X) := do
  let x ← body x
  let (goes, x) ← test x
  return if goes then .inl x else .inr x

theorem loop_eq (test : X → Act W (Bool × X)) (body : X → Act W X) (x : X) : loop test body x = (do
      let (goes, x) ← test x
      if goes then iterate (turn test body) x else return x) := by
  funext w y w'
  refine propext ⟨fun h => ?_, ?_⟩
  · induction h with
    | done h =>
      obtain ⟨⟨goes,x₁⟩,w₁,htest,hnext⟩ := h
      cases goes with
      | true =>
        obtain ⟨_,_,_,⟨⟩,_⟩ := hnext
      | false =>
        obtain ⟨⟨⟩,rfl⟩ := hnext
        exact ⟨_, _, htest, rfl, rfl⟩
    | again h _ ih =>
      obtain ⟨⟨goes,x₁⟩,w₁,htest,hnext⟩ := h
      obtain ⟨⟨goes',x₂⟩,w₂,htest',hrest⟩ := ih
      cases goes with
      | false =>
        obtain ⟨⟨⟩,_⟩ := hnext
      | true =>
        obtain ⟨_,_,hbody,⟨⟩,rfl⟩ := hnext
        refine ⟨_, _, htest, ?_⟩
        cases goes' with
        | true => exact .again ⟨_, _, hbody, _, _, htest', rfl, rfl⟩ hrest
        | false =>
          obtain ⟨rfl,rfl⟩ := hrest
          exact .done ⟨_, _, hbody, _, _, htest', rfl, rfl⟩
  · rintro ⟨⟨goes,x₁⟩,w₁,htest,hrest⟩
    cases goes with
    | false =>
      obtain ⟨rfl,rfl⟩ := hrest
      exact .done ⟨_, _, htest, rfl, rfl⟩
    | true =>
      replace hrest : Iterates (turn test body) x₁ w₁ y w' := hrest
      -- the test before a round belongs to the step behind it
      induction hrest generalizing x w with
      | done h =>
        obtain ⟨x₂,w₂,hbody,⟨goes',x₃⟩,w₃,htest',hnext⟩ := h
        cases goes' with
        | true =>
          obtain ⟨⟨⟩,_⟩ := hnext
        | false =>
          obtain ⟨⟨⟩,rfl⟩ := hnext
          exact .again ⟨_, _, htest, _, _, hbody, rfl, rfl⟩ (.done ⟨_, _, htest', rfl, rfl⟩)
      | again h _ ih =>
        obtain ⟨_,_,hbody,⟨goes',_⟩,_,htest',hnext⟩ := h
        cases goes' with
        | false =>
          obtain ⟨⟨⟩,_⟩ := hnext
        | true =>
          obtain ⟨⟨⟩,rfl⟩ := hnext
          exact .again ⟨_, _, htest, _, _, hbody, rfl, rfl⟩ (ih _ _ htest')

/-- The outcomes of two actions stand for each other. -/
def Matches (a : Act W X) (b : Act W Y) (R : X → Y → Prop) : Prop :=
  ∀ w w', (∀ x, a w x w' → ∃ y, b w y w' ∧ R x y) ∧ ∀ y, b w y w' → ∃ x, a w x w' ∧ R x y

namespace Matches

variable {a : Act W X} {b : Act W Y} {R R' : X → Y → Prop} {S : X' → Y' → Prop}

theorem pure {x : X} {y : Y} (h : R x y) : Matches (Pure.pure x : Act W X) (Pure.pure y) R := by
  refine fun w w' => ⟨?_, ?_⟩
  · rintro _ ⟨rfl,rfl⟩
    exact ⟨y, ⟨rfl, rfl⟩, h⟩
  · rintro _ ⟨rfl,rfl⟩
    exact ⟨x, ⟨rfl, rfl⟩, h⟩

theorem refl (a : Act W X) : Matches a a (· = ·) :=
  fun _ _ => ⟨fun x h => ⟨x, h, rfl⟩, fun x h => ⟨x, h, rfl⟩⟩

section

variable (h : Matches a b R)

include h

theorem mono (hR : ∀ x y, R x y → R' x y) : Matches a b R' := fun w w' =>
  ⟨fun x hx => ((h w w').1 x hx).imp fun y hy => hy.imp_right (hR x y),
    fun y hy => ((h w w').2 y hy).imp fun x hx => hx.imp_right (hR x y)⟩

theorem bind {k : X → Act W X'} {l : Y → Act W Y'} (hk : ∀ x y, R x y → Matches (k x) (l y) S) :
    Matches (a >>= k) (b >>= l) S := by
  refine fun w w' => ⟨?_, ?_⟩
  · rintro x' ⟨x,w₁,ha,hx'⟩
    obtain ⟨y,hb,hxy⟩ := (h w w₁).1 x ha
    obtain ⟨y',hy',hS⟩ := (hk x y hxy w₁ w').1 x' hx'
    exact ⟨y', ⟨y, w₁, hb, hy'⟩, hS⟩
  · rintro y' ⟨y,w₁,hb,hy'⟩
    obtain ⟨x,ha,hxy⟩ := (h w w₁).2 y hb
    obtain ⟨x',hx',hS⟩ := (hk x y hxy w₁ w').2 y' hy'
    exact ⟨x', ⟨x, w₁, ha, hx'⟩, hS⟩

theorem bind_left {k : X → Act W X'} {T : X' → Y → Prop}
    (hk : ∀ x y, R x y → Matches (k x) (Pure.pure y) T) :
    Matches (a >>= k) b T := by
  rw [← Act.bind_pure b]
  exact h.bind hk

theorem bind_right {l : Y → Act W Y'} {T : X → Y' → Prop}
    (hl : ∀ x y, R x y → Matches (Pure.pure x) (l y) T) :
    Matches a (b >>= l) T := by
  rw [← Act.bind_pure a]
  exact h.bind hl

theorem found : Matches a b fun x y => R x y ∧ ∃ w w', a w x w' ∧ b w y w' := fun w w' =>
  ⟨fun x hx => ((h w w').1 x hx).imp fun _ hy => ⟨hy.1, hy.2, w, w', hx, hy.1⟩,
    fun y hy => ((h w w').2 y hy).imp fun _ hx => ⟨hx.1, hx.2, w, w', hx.1, hy⟩⟩

end

theorem iterate {step : X → Act W (X ⊕ X')} {step' : Y → Act W (Y ⊕ Y')}
    (hstep : ∀ x y, R x y → Matches (step x) (step' y) (Sum.LiftRel R S)) {x : X} {y : Y} (hxy : R x y) :
    Matches (Act.iterate step x) (Act.iterate step' y) S := by
  refine fun w w' => ⟨fun x' h => ?_, fun y' h => ?_⟩
  · induction h generalizing y with
    | @done x _ w w' h =>
      obtain ⟨out,hout,hS⟩ := (hstep x y hxy w w').1 _ h
      cases hS with
      | inr hS => exact ⟨_, .done hout, hS⟩
    | @again x _ _ w w₁ _ h _ ih =>
      obtain ⟨out,hout,hR⟩ := (hstep x y hxy w w₁).1 _ h
      cases hR with
      | inl hR =>
        obtain ⟨y',hrest,hS⟩ := ih hR
        exact ⟨y', .again hout hrest, hS⟩
  · induction h generalizing x with
    | @done y _ w w' h =>
      obtain ⟨out,hout,hS⟩ := (hstep x y hxy w w').2 _ h
      cases hS with
      | inr hS => exact ⟨_, .done hout, hS⟩
    | @again y _ _ w w₁ _ h _ ih =>
      obtain ⟨_,hout,hR⟩ := (hstep x y hxy w w₁).2 _ h
      cases hR with
      | inl hR =>
        obtain ⟨x',hrest,hS⟩ := ih hR
        exact ⟨x', .again hout hrest, hS⟩

end Matches

end Act

end Polled
