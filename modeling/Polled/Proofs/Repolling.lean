import Polled.Proofs.Children

/-!
Activations that are polled over and over.

A run is any sequence of firings and returning calls. What is ready stays ready and what is set stays
set, so an operation that has left its marks is closed for good.
-/

namespace Polled

open List

namespace Routine

/-- What happens from a stage on, and the stage that it leads to. Behind an exit there is none. -/
inductive Run (r : Routine) : Stage → List Turn → Option Stage → Prop
  | stop (s : Stage) : Run r s [] (some s)
  | turn {o : Outcomes} {s s₁ : Stage} {t : Turn} {ts : List Turn} {e : Option Stage}
      (h : r.turn o s t = some s₁) (hrest : Run r s₁ ts e) : Run r s (t :: ts) e
  | exit {s : Stage} {i : Nat} {g : GuardedOp} (h : r.Enabled s i g)
      (hexit : g.op.endsActivation = true) :
      Run r s [.fire i] none

/-- All that the operation at position `i` leaves behind is there. -/
def Spent (r : Routine) (s : Stage) (i : Nat) (g : GuardedOp) : Prop :=
  ∃ o, ∀ q ∈ r.yields o i g.op, s.Has q

variable {r : Routine} {o : Outcomes} {s s' : Stage} {t : Turn} {ts : List Turn}
  {e : Option Stage} {i : Nat}
variable {g : GuardedOp} {q : Fact} {mixed : Prop}

theorem run_of_turns (h : ts.foldlM (r.turn o) s = some s') : r.Run s ts (some s') := by
  induction ts generalizing s with
  | nil =>
    cases h
    exact .stop _
  | cons t ts ih =>
    rw [foldlM_cons,Option.bind_eq_bind,Option.bind_eq_some_iff] at h
    obtain ⟨_,hs₁,h⟩ := h
    exact .turn hs₁ (ih h)

theorem has_of_turn (h : r.turn o s t = some s') (hq : s.Has q) : s'.Has q := by
  rcases turn_eq_some.1 h with ⟨i,g,-,-,-,rfl⟩ | ⟨i,g,-,-,-,rfl⟩
  · unfold launch
    split
    · exact hq
    · exact has_complete.2 (.inr hq)
  · exact has_complete.2 (.inr hq)

theorem Spent.turn (hs : r.Spent s i g) (h : r.turn o s t = some s') : r.Spent s' i g := by
  obtain ⟨o',hall⟩ := hs
  exact ⟨o', fun q hq => has_of_turn h (hall q hq)⟩

theorem Spent.not_enabled (hs : r.Spent s i g)
    (hmarks : g.op.provides ≠ [] ∨ g.op.completionFlags ≠ []) :
    ¬r.Enabled s i g := by
  obtain ⟨o,hall⟩ := hs
  exact not_enabled_of_yields hmarks hall

theorem spent_of_fire (h : r.turn o s (.fire i) = some s') (hg : r.ops[i]? = some g)
    (hplain : g.op.startsChild = false) :
    r.Spent s' i g := by
  rcases turn_eq_some.1 h with ⟨k,g',ht,henabled,-,rfl⟩ | ⟨k,g',ht,-⟩
  · cases ht
    obtain rfl : g = g' := Option.some.inj (hg.symm.trans henabled.1)
    refine ⟨o, fun q hq => ?_⟩
    rw [launch,hplain]
    exact has_complete.2 (.inl hq)
  · cases ht

theorem spent_of_back (h : r.turn o s (.back i) = some s') (hg : r.ops[i]? = some g) :
    r.Spent s' i g := by
  rcases turn_eq_some.1 h with ⟨k,g',ht,-⟩ | ⟨k,g',ht,-,hg',rfl⟩
  · cases ht
  · cases ht
    obtain rfl : g = g' := Option.some.inj (hg.symm.trans hg')
    exact ⟨o, fun q hq => has_complete.2 (.inl hq)⟩

theorem not_fire_of_exit (hg : r.ops[i]? = some g) (hexit : g.op.endsActivation = true) :
    r.turn o s (.fire i) ≠ some s' := by
  intro h
  rcases turn_eq_some.1 h with ⟨k,g',ht,henabled,hgoes,-⟩ | ⟨k,g',ht,-⟩
  · cases ht
    obtain rfl : g = g' := Option.some.inj (hg.symm.trans henabled.1)
    rw [hexit] at hgoes
    cases hgoes
  · cases ht

namespace Run

section

variable (h : r.Run s ts e)

include h

theorem spent (hs : r.Spent s i g) (he : e = some s') : r.Spent s' i g := by
  induction h with
  | stop s =>
    cases he
    exact hs
  | turn h _ ih => exact ih (hs.turn h) he
  | exit _ _ => cases he

theorem not_mem_of_spent (hg : r.ops[i]? = some g)
    (hmarks : g.op.provides ≠ [] ∨ g.op.completionFlags ≠ []) (hs : r.Spent s i g) : .fire i ∉ ts := by
  induction h with
  | stop s => exact not_mem_nil
  | turn h _ ih =>
    intro hmem
    rcases mem_cons.1 hmem with rfl | hmem
    · rcases turn_eq_some.1 h with ⟨k,g',ht,henabled,-⟩ | ⟨k,g',ht,-⟩
      · cases ht
        obtain rfl : g = g' := Option.some.inj (hg.symm.trans henabled.1)
        exact hs.not_enabled hmarks henabled
      · cases ht
    · exact ih (hs.turn h) hmem
  | exit henabled _ =>
    intro hmem
    cases mem_singleton.1 hmem
    obtain rfl := Option.some.inj (hg.symm.trans henabled.1)
    exact hs.not_enabled hmarks henabled

theorem count_fire_le_one (hordered : r.Ordered mixed) (hg : r.ops[i]? = some g)
    (hplain : g.op.startsChild = false) : ts.count (.fire i) ≤ 1 := by
  induction h with
  | stop s => exact Nat.zero_le 1
  | @turn _ _ _ t _ _ h hrest =>
    by_cases ht : t = .fire i
    · subst ht
      cases hexit : g.op.endsActivation with
      | true => exact absurd h (not_fire_of_exit hg hexit)
      | false =>
        have hmarks := hordered.shape.marks (mem_of_getElem? hg) hexit
        have hnot := hrest.not_mem_of_spent hg hmarks (spent_of_fire h hg hplain)
        rw [count_cons_self,count_eq_zero.2 hnot]
    · rwa [count_cons_of_ne ht]
  | exit _ _ =>
    refine count_le_length.trans ?_
    exact Nat.le_refl 1

theorem not_enabled_of_back (hordered : r.Ordered mixed) (hchild : g.op.startsChild = true)
    (hback : .back i ∈ ts) (he : e = some s') : ¬r.Enabled s' i g := by
  intro henabled
  have hg := henabled.1
  induction h with
  | stop s => cases hback
  | turn h hrest ih =>
    rcases mem_cons.1 hback with rfl | hback
    · have hmarks := hordered.shape.marks (mem_of_getElem? hg) (goes_of_startsChild hchild)
      exact (hrest.spent (spent_of_back h hg) he).not_enabled hmarks henabled
    · exact ih hback he
  | exit _ _ => cases he

end

end Run

/-- Only calls are under way, and no branch has gone both ways. -/
structure OneWay (r : Routine) (s : Stage) : Prop where
  children : ∀ i ∈ s.children, ∀ g, r.ops[i]? = some g → g.op.startsChild = true
  single : ∀ g ∈ r.ops, ∀ test a b, g.op = .branch test a b → ¬(a ∈ s.flags ∧ b ∈ s.flags)

theorem OneWay.complete (h : r.OneWay s) (hordered : r.Ordered mixed) (hg : r.ops[i]? = some g)
    (hunset : g.op.isBranch = true → ∀ c ∈ g.op.completionFlags, c ∉ s.flags) :
    r.OneWay (r.complete o s i g.op) := by
  refine ⟨h.children, ?_⟩
  intro k hk test a b hop hboth
  obtain ⟨j,hj⟩ := mem_iff_getElem?.1 hk
  have htargets : k.op.completionFlags = [a, b] := by simp [hop,Op.completionFlags]
  have hne : a ≠ b := by
    have hnodup := (nodup_flatMap.1 hordered.fresh.nodup).1 k hk
    simpa [htargets] using hnodup
  -- a target that has just been set belongs to the operation at `i`
  have hown : ∀ c ∈ k.op.completionFlags, c ∈ g.op.raises (o i) → g = k := by
    intro c hc hraised
    obtain rfl := position_eq hordered.fresh.nodup hj hg hc (Op.raises_subset _ _ hraised)
    exact Option.some.inj (hg.symm.trans hj)
  have hraises : k.op.raises (o i) = [if o i then a else b] := by rw [hop,Op.raises]
  obtain ⟨ha,hb⟩ := hboth
  rcases mem_append.1 ha with ha | ha
  · obtain rfl := hown a (by simp [htargets]) ha
    rcases mem_append.1 hb with hb | hb
    · rw [hraises,mem_singleton] at ha hb
      exact hne (ha.trans hb.symm)
    · exact hunset (by simp [hop,Op.isBranch]) b (by simp [htargets]) hb
  · rcases mem_append.1 hb with hb | hb
    · obtain rfl := hown b (by simp [htargets]) hb
      exact hunset (by simp [hop,Op.isBranch]) a (by simp [htargets]) ha
    · exact h.single k hk test a b hop ⟨ha, hb⟩

theorem OneWay.turn (h : r.OneWay s) (hordered : r.Ordered mixed) (ht : r.turn o s t = some s') :
    r.OneWay s' := by
  rcases turn_eq_some.1 ht with ⟨i,g,-,henabled,-,rfl⟩ | ⟨i,g,-,hi,hg,rfl⟩
  · unfold launch
    split
    · rename_i hchild
      refine ⟨fun k hk g' hg' => ?_, h.single⟩
      rcases mem_insert_iff.1 hk with rfl | hk
      · rwa [← Option.some.inj (henabled.1.symm.trans hg')]
      · exact h.children k hk g' hg'
    · exact h.complete hordered henabled.1 fun _ => (enabled_iff.1 henabled).2.2.2
  · have hrest : r.OneWay { s with children := s.children.filter (· != i) } :=
      ⟨fun k hk => h.children k (mem_of_mem_filter hk), h.single⟩
    refine hrest.complete hordered hg fun hbranch => ?_
    have hchild := h.children i hi g hg
    cases hop : g.op <;> simp_all [Op.isBranch,Op.startsChild]

theorem oneWay_opening (hordered : r.Ordered mixed) (known : List Register) :
    r.OneWay (r.opening known) := by
  refine ⟨nofun, fun g hg test a b hop hboth => ?_⟩
  have hbound := hordered.fresh.bound a (mem_flatMap.2 ⟨g, hg, by simp [hop,Op.completionFlags]⟩)
  rw [mem_singleton.1 hboth.1] at hbound
  exact absurd hbound.1 (by decide)

theorem Run.oneWay (h : r.Run s ts e) (hordered : r.Ordered mixed) (hs : r.OneWay s) (he : e = some s') :
    r.OneWay s' := by
  induction h with
  | stop s =>
    cases he
    exact hs
  | turn h _ ih => exact ih (hs.turn hordered h) he
  | exit _ _ => cases he

end Routine

/-- However often an activation is polled: all operations but calls in a child fire once at most, a call
that has come back is not made again, and no branch goes both ways. -/
theorem polling_repeats_nothing {table : SignatureTable} {d : Decl} {body : Block}
    {log : List Event} {l : Lowered} {r : Routine} (h : lowerFunction table d body log = .ok l)
    (hr : r ∈ l.routine :: l.closures) {known : List Register} {ts : List Routine.Turn}
    {e : Option Stage} (hrun : r.Run (r.opening known) ts e) :
    (∀ i g, r.ops[i]? = some g → g.op.startsChild = false → ts.count (.fire i) ≤ 1) ∧
      ∀ s, e = some s →
        (∀ i g, g.op.startsChild = true → .back i ∈ ts → ¬r.Enabled s i g) ∧
          ∀ g ∈ r.ops, ∀ test a b, g.op = .branch test a b → ¬(a ∈ s.flags ∧ b ∈ s.flags) := by
  have hordered : r.Ordered True :=
    ordered_of_lowerFunction h ((mem_cons.1 hr).symm.imp_right fun hr => ⟨hr, fun _ => trivial⟩)
  refine ⟨fun i g hg hplain => hrun.count_fire_le_one hordered hg hplain,
    fun s hs => ⟨fun i g hchild hback => ?_, ?_⟩⟩
  · exact hrun.not_enabled_of_back hordered hchild hback hs
  · exact (hrun.oneWay hordered (Routine.oneWay_opening hordered known) hs).single

/-- `func tare(c: Boolean): Integer` -/
def tare : Decl where
  span := .nowhere
  name := bare "tare"
  isSync := false
  isNative := false
  params := [⟨bare "c", bare (.owned .boolean)⟩]
  returns := [bare (.owned .integer)]
  body := none

/-- `let n = weigh() if c { return n } else { return 0 }` -/
def tareBody : Block where
  span := .nowhere
  stmts :=
    [.bind .nowhere [bare "n"] (.call .nowhere (bare "weigh") []),
      .branch .nowhere (.name .nowhere "c") ⟨.nowhere, [.ret .nowhere (some (.name .nowhere "n"))]⟩
        ⟨.nowhere, [.ret .nowhere (some (.integer .nowhere 0))]⟩]

def tared : Lowered :=
  match lowerFunction scaleTable tare tareBody [] with
  | .ok l => l
  | .error halt => ⟨.native tare.name.node false [] [], [], halt.log⟩

theorem lowerFunction_tare : lowerFunction scaleTable tare tareBody [] = .ok tared := by cbv

/-- The scale is asked twice before it answers, and then no more. -/
theorem tare_repeats_nothing :
    tared.routine.Run (tared.routine.opening [0]) [.fire 0, .fire 1, .fire 0, .back 0]
      (some ⟨[1, 0], [1, 0], []⟩) ∧
      ([.fire 0, .fire 1, .fire 0, .back 0] : List Routine.Turn).count (.fire 1) ≤ 1 ∧
      ¬tared.routine.Enabled ⟨[1, 0], [1, 0], []⟩ 0 ⟨0, .callAsync "weigh" [] [1] 0 none⟩ ∧
      ¬(1 ∈ [1, 0] ∧ 2 ∈ [1, 0]) := by
  have hrun : tared.routine.Run (tared.routine.opening [0]) [.fire 0, .fire 1, .fire 0, .back 0]
      (some ⟨[1, 0], [1, 0], []⟩) := @Routine.run_of_turns _ (fun _ => true) _ _ _ (by decide +kernel)
  have hops : tared.routine.ops[1]? = some ⟨0, .branch 0 1 2⟩ := by decide +kernel
  obtain ⟨hfires,hstage⟩ := polling_repeats_nothing lowerFunction_tare mem_cons_self hrun
  obtain ⟨hcalls,hbranches⟩ := hstage _ rfl
  exact ⟨hrun, hfires 1 _ hops rfl, hcalls 0 _ rfl (by decide),
    hbranches _ (mem_of_getElem? hops) 0 1 2 rfl⟩

end Polled
