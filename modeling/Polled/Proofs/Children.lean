import Polled.Proofs.Exits

/-!
Calls that are under way when an activation ends.

An exit waits for its condition and for the values that it hands on, and for nothing else. Where no exit
outruns a call, every activation ends alone (`ends_alone`).
-/

namespace Polled

open Lower List

variable {mixed : Prop}

namespace Routine

variable (r : Routine) (o : Outcomes)

/-- What can come about while none of the operations at `stop` has been completed. -/
inductive Comes (stop : Nat → Prop) : Fact → Prop
  | initial {q : Fact} (h : r.Initial q) : Comes stop q
  | step {q : Fact} {k : Nat} {g : GuardedOp} (hg : r.ops[k]? = some g) (hk : ¬stop k)
      (hwaits : ∀ w ∈ r.waits g, Comes stop w) (hq : q ∈ r.yields o k g.op) : Comes stop q

/-- The exit at `j` does not wait for the call at `i`. -/
def Outruns (i j : Nat) : Prop :=
  ∃ g h, r.ops[i]? = some g ∧ g.op.startsChild = true ∧ r.ops[j]? = some h ∧ h.op.endsActivation = true ∧
    (∀ w ∈ r.waits g, r.Comes o (· = i) w) ∧ ∀ w ∈ r.waits h, r.Comes o (· = i) w

/-- No call is under way where the activation can end. -/
def EndsAlone : Prop :=
  ∀ s j g, r.Reaches o s → r.Enabled s j g → g.op.endsActivation = true → s.children = []

/-- Operations that are ever open write different slots, and none of them the slot of a parameter. -/
structure WritesOnce : Prop where
  params : ∀ k < r.paramCount, ∀ (i : Nat) (g : GuardedOp), r.ops[i]? = some g → r.Raised o g.condition →
    r.slot k ∉ g.op.provides.map r.slot
  single : ∀ (i j : Nat) (g h : GuardedOp) (x : Register), r.ops[i]? = some g → r.ops[j]? = some h →
    r.Raised o g.condition → r.Raised o h.condition → x ∈ g.op.provides.map r.slot →
    x ∈ h.op.provides.map r.slot → i = j

variable {r o} {s s' : Stage} {i j k : Nat} {g h : GuardedOp} {q : Fact} {stop : Nat → Prop}

theorem goes_of_startsChild (h : g.op.startsChild = true) : g.op.endsActivation = false := by
  cases hop : g.op <;> simp_all [Op.startsChild,Op.endsActivation]

theorem not_enabled_of_yields (hmarks : g.op.provides ≠ [] ∨ g.op.completionFlags ≠ [])
    (hyields : ∀ q ∈ r.yields o i g.op, s.Has q) : ¬r.Enabled s i g := by
  rw [enabled_iff]
  rintro ⟨-,-,hprovides,hflags⟩
  rcases hmarks with hmarks | hmarks
  · obtain ⟨x,hx⟩ := exists_mem_of_ne_nil _ hmarks
    have hx : r.slot x ∈ g.op.provides.map r.slot := mem_map_of_mem hx
    exact hprovides _ hx (hyields (.ready (r.slot x)) (ready_mem_yields.2 hx))
  · obtain ⟨c,hc⟩ := exists_mem_of_ne_nil _ (Op.raises_ne_nil (o i) hmarks)
    exact hflags c (Op.raises_subset _ _ hc) (hyields (.raised c) (raised_mem_yields.2 hc))

/-- As long as the call at `i` has not come back, all that is there has come about without it. -/
def Awaits (r : Routine) (o : Outcomes) (i : Nat) (g : GuardedOp) (s : Stage) : Prop :=
  ((∀ q, s.Has q → r.Comes o (· = i) q) ∧ ∀ k ∈ s.children, ∀ h, r.ops[k]? = some h → ∀ w ∈ r.waits h,
    r.Comes o (· = i) w) ∨
    i ∉ s.children ∧ ∀ q ∈ r.yields o i g.op, s.Has q

theorem Awaits.move (hs : Awaits r o i g s) (hg : r.ops[i]? = some g) (hchild : g.op.startsChild = true)
    (hmarks : g.op.provides ≠ [] ∨ g.op.completionFlags ≠ []) (hmove : r.Move o s s') :
    Awaits r o i g s' := by
  have hcomes : ∀ {k : Nat} {h : GuardedOp} {s : Stage}, (∀ q, s.Has q → r.Comes o (· = i) q) → k ≠ i →
    r.ops[k]? = some h →
      (∀ w ∈ r.waits h, r.Comes o (· = i) w) → ∀ q, (r.complete o s k h.op).Has q →
      r.Comes o (· = i) q := by
    intro k h s hall hk hh hwaits q hq
    exact (has_complete.1 hq).elim (.step hh hk hwaits) (hall q)
  rcases move_iff.1 hmove with ⟨k,h,henabled,-,rfl⟩ | ⟨k,h,hk,hh,rfl⟩
  · obtain ⟨hh,hwaits,-⟩ := enabled_iff.1 henabled
    rcases hs with ⟨hall,hchildren⟩ | ⟨hdone,hyields⟩
    · have hwaits : ∀ w ∈ r.waits h, r.Comes o (· = i) w := fun w hw => hall w (hwaits w hw)
      unfold launch
      split
      · refine .inl ⟨hall, fun k' hk' h' hh' => ?_⟩
        rcases mem_insert_iff.1 hk' with rfl | hk'
        · obtain rfl : h = h' := Option.some.inj (hh.symm.trans hh')
          exact hwaits
        · exact hchildren k' hk' h' hh'
      · rename_i hsync
        have hk : k ≠ i := by
          rintro rfl
          obtain rfl : g = h := Option.some.inj (hg.symm.trans hh)
          exact hsync hchild
        exact .inl ⟨hcomes hall hk hh hwaits, hchildren⟩
    · have hk : k ≠ i := by
        rintro rfl
        obtain rfl : g = h := Option.some.inj (hg.symm.trans hh)
        exact not_enabled_of_yields hmarks hyields henabled
      unfold launch
      split
      · exact .inr ⟨by simp [hdone,hk.symm], hyields⟩
      · exact .inr ⟨hdone, fun q hq => has_complete.2 (.inr (hyields q hq))⟩
  · rcases hs with ⟨hall,hchildren⟩ | ⟨hdone,hyields⟩
    · by_cases heq : k = i
      · obtain rfl := heq
        obtain rfl : g = h := Option.some.inj (hg.symm.trans hh)
        exact .inr ⟨by simp [deliver,complete], fun q hq => has_complete.2 (.inl hq)⟩
      · refine .inl ⟨?_, fun k' hk' => hchildren k' (mem_of_mem_filter hk')⟩
        exact @hcomes k h { s with children := s.children.filter (· != k) } hall heq hh
          (hchildren k hk h hh)
    · refine .inr ⟨fun hi => hdone (mem_of_mem_filter hi), fun q hq => has_complete.2
        (.inr (hyields q hq))⟩

theorem Reaches.awaits (hs : r.Reaches o s) (hg : r.ops[i]? = some g) (hchild : g.op.startsChild = true)
    (hmarks : g.op.provides ≠ [] ∨ g.op.completionFlags ≠ []) : Awaits r o i g s := by
  obtain ⟨known,hknown,hmoves⟩ := hs
  induction hmoves with
  | refl =>
    refine .inl ⟨fun q hq => .initial ?_, fun k hk => absurd hk not_mem_nil⟩
    exact ((has_opening known).1 hq).imp_left fun ⟨k, hk, heq⟩ => ⟨k, hknown k hk, heq⟩
  | tail _ hmove ih => exact ih.move hg hchild hmarks hmove

theorem Reaches.outruns (hordered : r.Ordered mixed) (hs : r.Reaches o s) (henabled : r.Enabled s j h)
    (hexit : h.op.endsActivation = true) (hi : i ∈ s.children) : r.Outruns o i j := by
  obtain ⟨g,hg,hchild,-⟩ := hs.accounted.children i hi
  have hmarks := hordered.shape.marks (mem_of_getElem? hg) (goes_of_startsChild hchild)
  rcases hs.awaits hg hchild hmarks with ⟨hall,hchildren⟩ | ⟨hdone,-⟩
  · obtain ⟨hh,hwaits,-⟩ := enabled_iff.1 henabled
    exact ⟨g, h, hg, hchild, hh, hexit, hchildren i hi g hg, fun w hw => hall w (hwaits w hw)⟩
  · exact absurd hi hdone

theorem Sourced.enabled (hs : r.Sourced o stop s) (hreached : r.Reaches o s) (hordered : r.Ordered mixed)
    (honce : r.WritesOnce o) (hg : r.ops[k]? = some g) (hwaits : ∀ w ∈ r.waits g, s.Has w)
    (hleft : ¬stop k → ∃ q ∈ r.yields o k g.op, ¬s.Has q) : r.Enabled s k g := by
  have hopen : r.Raised o g.condition := ⟨s, hreached, hwaits _ mem_cons_self⟩
  have hother : ∀ {k' : Nat}, ¬stop k' → (∀ q ∈ r.yields o k' g.op, s.Has q) → k ≠ k' := by
    rintro k' hk' hall rfl
    obtain ⟨q,hq,hnot⟩ := hleft hk'
    exact hnot (hall q hq)
  refine enabled_iff.2 ⟨hg, hwaits, fun x hx hready => ?_, fun c hc hraised => ?_⟩
  · rcases hs (.ready x) hready with (⟨n,hn,heq⟩ | heq) | ⟨k',g',hg',hk',hopen',hq,hall⟩
    · cases heq
      exact honce.params n hn k g hg hopen hx
    · cases heq
    · obtain rfl := honce.single k k' g g' x hg hg' hopen hopen' hx (ready_mem_yields.1 hq)
      obtain rfl : g = g' := Option.some.inj (hg.symm.trans hg')
      exact hother hk' hall rfl
  · rcases hs (.raised c) hraised with (⟨n,_,heq⟩ | heq) | ⟨_,g',hg',hk',_,hq,hall⟩
    · cases heq
    · cases heq
      exact absurd (hordered.fresh.bound _ (mem_flatMap.2 ⟨g, mem_of_getElem? hg, hc⟩)).1 (by decide)
    · have hc' := Op.raises_subset _ _ (raised_mem_yields.1 hq)
      obtain rfl := position_eq hordered.fresh.nodup hg hg' hc hc'
      obtain rfl : g = g' := Option.some.inj (hg.symm.trans hg')
      exact hother hk' hall rfl

/-- A stage at which no call is under way and none of the operations at `stop` has been completed. -/
structure Clear (r : Routine) (o : Outcomes) (stop : Nat → Prop) (s : Stage) : Prop where
  reached : r.Reaches o s
  idle : s.children = []
  initial : ∀ q, r.Initial q → s.Has q
  sources : r.Sourced o stop s

theorem clear_opening (r : Routine) (o : Outcomes) (stop : Nat → Prop) :
    Clear r o stop (r.opening (List.range r.paramCount)) where
  reached := ⟨_, fun _ => mem_range.1, .refl⟩
  idle := rfl
  initial _ hq := (has_opening _).2 (hq.imp_left fun ⟨k, hk, heq⟩ => ⟨k, mem_range.2 hk, heq⟩)
  sources := sourced_opening _ fun _ => mem_range.1

theorem Clear.fire (hs : Clear r o stop s) (henabled : r.Enabled s k g)
    (hgoes : g.op.endsActivation = false) (hk : ¬stop k) : Clear r o stop (r.complete o s k g.op) := by
  have hopen : r.Raised o g.condition := ⟨s, hs.reached, henabled.condition⟩
  have hfire := hs.reached.move (move_iff.2 (.inl ⟨k, g, henabled, hgoes, rfl⟩))
  have hreached : r.Reaches o (r.complete o s k g.op) := by
    unfold launch at hfire
    split at hfire
    · have hback := hfire.move (move_iff.2 (.inr ⟨k, g, mem_insert_self, henabled.1, rfl⟩))
      have hidle : { s with children := (s.children.insert k).filter (· != k) } = s := by
        obtain ⟨_,_,children⟩ := s
        obtain rfl : children = [] := hs.idle
        simp
      rw [deliver,hidle] at hback
      exact hback
    · exact hfire
  exact ⟨hreached, hs.idle, fun q hq => has_complete.2 (.inr (hs.initial q hq)),
    hs.sources.complete henabled.1 hk hopen⟩

/-- From any clear stage there is a way to another that has the facts as well. -/
def Attainable (r : Routine) (o : Outcomes) (stop : Nat → Prop) (qs : List Fact) : Prop :=
  ∀ s, Clear r o stop s → ∃ s', Clear r o stop s' ∧ (∀ q, s.Has q → s'.Has q) ∧ ∀ q ∈ qs, s'.Has q

theorem attainable_of_forall {qs : List Fact} (h : ∀ q ∈ qs, Attainable r o stop [q]) :
    Attainable r o stop qs := by
  intro s hs
  induction qs generalizing s with
  | nil => exact ⟨s, hs, fun _ hq => hq, by simp⟩
  | cons q qs ih =>
    obtain ⟨s₁,hs₁,hkeeps,hq⟩ := h q mem_cons_self s hs
    obtain ⟨s₂,hs₂,hkeeps',hqs⟩ := ih (fun q hq => h q (mem_cons_of_mem _ hq)) s₁ hs₁
    refine ⟨s₂, hs₂, fun p hp => hkeeps' p (hkeeps p hp), fun p hp => ?_⟩
    rcases mem_cons.1 hp with rfl | hp
    · exact hkeeps' p (hq p (mem_singleton_self p))
    · exact hqs p hp

theorem goes_of_yields (h : q ∈ r.yields o k g.op) : g.op.endsActivation = false := by
  refine Bool.eq_false_iff.2 fun hexit => ?_
  obtain ⟨hprovides,hflags⟩ := Op.silent_of_exit hexit
  have hraises := subset_nil.1 (hflags ▸ Op.raises_subset (o k) g.op)
  simp [yields,hprovides,hraises] at h

theorem Comes.attainable (h : r.Comes o stop q) (hordered : r.Ordered mixed) (honce : r.WritesOnce o) :
    Attainable r o stop [q] := by
  induction h with
  | @initial q hq =>
    refine fun s hs => ⟨s, hs, fun _ hp => hp, fun p hp => ?_⟩
    rw [mem_singleton.1 hp]
    exact hs.initial q hq
  | @step q k g hg hk _ hq ih =>
    intro s hs
    obtain ⟨s₁,hs₁,hkeeps,hwaits⟩ := attainable_of_forall ih s hs
    by_cases hall : ∀ q ∈ r.yields o k g.op, s₁.Has q
    · exact ⟨s₁, hs₁, hkeeps, fun p hp => hall p (mem_singleton.1 hp ▸ hq)⟩
    · have henabled := hs₁.sources.enabled hs₁.reached hordered honce hg hwaits fun _ => by
        simpa using hall
      refine ⟨_, hs₁.fire henabled (goes_of_yields hq) hk, fun p hp => has_complete.2
        (.inr (hkeeps p hp)), fun p hp => ?_⟩
      rw [mem_singleton.1 hp]
      exact has_complete.2 (.inl hq)

theorem Outruns.not_endsAlone (h : r.Outruns o i j) (hordered : r.Ordered mixed)
    (honce : r.WritesOnce o) : ¬r.EndsAlone o := by
  obtain ⟨g,k,hg,hchild,hk,hexit,hcall,hwaits⟩ := h
  have hall : ∀ w ∈ r.waits g ++ r.waits k, Attainable r o (· = i) [w] := fun w hw =>
    ((mem_append.1 hw).elim (hcall w) (hwaits w)).attainable hordered honce
  obtain ⟨s,hs,-,hhas⟩ := attainable_of_forall hall _ (clear_opening r o _)
  have hcalled := hs.sources.enabled hs.reached hordered honce hg
    (fun w hw => hhas w (mem_append_left _ hw))
    fun hne => absurd rfl hne
  have hlaunched := hs.reached.move (move_iff.2 (.inl ⟨i, g, hcalled, goes_of_startsChild hchild, rfl⟩))
  rw [launch,if_pos hchild] at hlaunched
  have hends : r.Enabled { s with children := s.children.insert i } j k :=
    enabled_of_exit hk hexit fun w hw => hhas w (mem_append_right _ hw)
  intro halone
  have hnone := halone _ j k hlaunched hends hexit
  exact absurd (mem_insert_self : i ∈ s.children.insert i) (by simp_all)

end Routine

/-- Activations end alone, unless an exit outruns a call. If slots are written once, they do not if one
does. -/
theorem ends_alone {table : SignatureTable} {d : Decl} {body : Block} {log : List Event}
    {l : Lowered} {r : Routine} (h : lowerFunction table d body log = .ok l)
    (hr : r ∈ l.routine :: l.closures) (o : Outcomes) :
    ((∀ i j, ¬r.Outruns o i j) → r.EndsAlone o) ∧
      (r.WritesOnce o → r.EndsAlone o → ∀ i j, ¬r.Outruns o i j) := by
  have hordered : r.Ordered True :=
    ordered_of_lowerFunction h ((mem_cons.1 hr).symm.imp_right fun hr => ⟨hr, fun _ => trivial⟩)
  refine ⟨fun hnone s j k hs henabled hexit => ?_, fun honce halone i j houtruns => ?_⟩
  · refine eq_nil_iff_forall_not_mem.2 fun i hi => ?_
    exact hnone i j (hs.outruns hordered henabled hexit hi)
  · exact houtruns.not_endsAlone hordered honce halone

/-- `native func weigh(): Integer` and `native func notify(): ()` -/
def scaleTable : SignatureTable :=
  ⟨[⟨"weigh", "main", false, true, [], [.owned .integer], .nowhere⟩,
    ⟨"notify", "main", false, true, [], [], .nowhere⟩]⟩

/-- `func scale(): Integer` -/
def scale : Decl where
  span := .nowhere
  name := bare "scale"
  isSync := false
  isNative := false
  params := []
  returns := [bare (.owned .integer)]
  body := none

/-- `return weigh()` -/
def scaleBody : Block where
  span := .nowhere
  stmts := [.ret .nowhere (some (.call .nowhere (bare "weigh") []))]

def scaled : Lowered :=
  match lowerFunction scaleTable scale scaleBody [] with
  | .ok l => l
  | .error halt => ⟨.native scale.name.node false [] [], [], halt.log⟩

theorem lowerFunction_scale : lowerFunction scaleTable scale scaleBody [] = .ok scaled := by cbv

theorem scale_ends_alone :
    (∀ i j, ¬scaled.routine.Outruns (fun _ => true) i j) ∧ scaled.routine.EndsAlone fun _ => true := by
  have hops : scaled.routine.ops = [⟨0, .callAsync "weigh" [] [0] 0 none⟩, ⟨0, .ret [0] []⟩] := by
    decide +kernel
  have hcomes : ∀ q, scaled.routine.Comes (fun _ => true) (· = 0) q → q = .raised .entry := by
    intro q hq
    cases hq with
    | initial hq =>
      refine hq.resolve_left ?_
      rintro ⟨k,hk,-⟩
      exact absurd hk (Nat.not_lt_zero k)
    | @step _ k _ hg hk _ hq =>
      rw [hops] at hg
      match k, hk with
      | 1, _ =>
        cases hg
        cases hq
      | k + 2, _ => cases hg
  have hnone : ∀ i j, ¬scaled.routine.Outruns (fun _ => true) i j := by
    rintro i j ⟨g,h,hg,hchild,hh,hexit,-,hwaits⟩
    rw [hops] at hg hh
    match i, j with
    | 0, 1 =>
      cases hh
      exact absurd (hcomes _ (hwaits _ (mem_cons_of_mem _ mem_cons_self))) (by simp)
    | 0, 0 =>
      cases hh
      cases hexit
    | 1, _ =>
      cases hg
      cases hchild
    | _ + 2, _ => cases hg
    | 0, _ + 2 => cases hh
  exact ⟨hnone, (ends_alone lowerFunction_scale mem_cons_self _).1 hnone⟩

/-- `func leave(): ()` -/
def leave : Decl where
  span := .nowhere
  name := bare "leave"
  isSync := false
  isNative := false
  params := []
  returns := []
  body := none

/-- `notify() return` -/
def leaveBody : Block where
  span := .nowhere
  stmts := [.run .nowhere (.call .nowhere (bare "notify") []), .ret .nowhere none]

def left : Lowered :=
  match lowerFunction scaleTable leave leaveBody [] with
  | .ok l => l
  | .error halt => ⟨.native leave.name.node false [] [], [], halt.log⟩

theorem lowerFunction_leave : lowerFunction scaleTable leave leaveBody [] = .ok left := by cbv

/-- No exit waits for a call without results. -/
theorem child_outlives : ¬∀ table d body log l, lowerFunction table d body log = .ok l →
    ∀ r ∈ l.routine :: l.closures, ∀ o, r.EndsAlone o := by
  intro hall
  have hunder : left.routine.Reaches (fun _ => true) ⟨[], [0], [0]⟩ :=
    Routine.reaches_of_turns [] [.fire 0] (by decide) (by decide +kernel)
  have hnone := hall _ _ _ _ _ lowerFunction_leave _ mem_cons_self _ _ 1 ⟨0, .ret [] []⟩ hunder
    ⟨by decide +kernel, by decide +kernel⟩ rfl
  cases hnone

end Polled
