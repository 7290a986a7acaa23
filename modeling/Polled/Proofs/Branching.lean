import Polled.Proofs.Settling

/-!
Branches along all paths.

The walks of one arm pass by the operations of the other. Behind the arms a walk goes on with the names
of its arm, or with those that both arms have been joined under.
-/

namespace Polled

open Lower Passage List

variable {r : Register} {c : Condition} {T line : List Op} {f : Frame} {span : Span} {flow : Flow}
  {e d₀ : Draft}
variable {xs rebound : List String} {b : Bool} {apart : List String → Prop}

namespace Draft

variable {d e m d' : Draft} {ops ops' : List GuardedOp}

/-- Where the first arm of a branch begins. -/
def fork (d : Draft) (test : Register) : Draft :=
  { d.tick.tick.emit d.current
    (.branch test d.control.conditionCount (d.control.conditionCount + 1)) with
    current := d.control.conditionCount }

/-- Goes on with the names and the ownership of another draft. -/
def resume (d m : Draft) : Draft :=
  { d with scope := m.scope, registers := d.registers.withLive m.registers.liveness }

def under (d : Draft) (c : Condition) : Draft := { d with current := c }

theorem isLive_resume (hr : r < d.size) : (d.resume m).registers.isLive r = m.registers.isLive r := by
  refine Bool.eq_iff_iff.2 ((d.registers.isLive_withLive _ r).trans ?_)
  rw [m.registers.getD_liveness]
  exact ⟨And.right, fun h => ⟨hr, h⟩⟩

theorem Valid.fork {test : Register} (hd : d.Valid) : (d.fork test).Valid := ⟨hd.sound, hd.sorted⟩

theorem Extends.arm (h : d.Extends m ops) (h' : (m.under c).Extends d' ops') (hc : d.count ≤ c) :
    d.Extends (d'.under d.current) (ops ++ ops') := by
  have hrest : m.Extends { d' with current := m.current, ops := m.ops } [] :=
    { h' with ops_eq := (append_nil _).symm, under := by simp, current := rfl }
  have hall := h.trans hrest
  refine { hall with ops_eq := ?_, under := ?_, current := rfl }
  · show d'.ops = _
    rw [h'.ops_eq]
    show m.ops ++ ops' = _
    rw [h.ops_eq,append_assoc]
  · intro g hg
    rcases mem_append.1 hg with hg | hg
    · exact h.under g hg
    · rcases h'.under g hg with hg | hg
      · exact .inr (by rw [hg]; exact hc)
      · exact .inr (h.count_le.trans hg)

theorem Extends.resume (h : d.Extends e ops) (hm : d.Extends m ops') : d.Extends (e.resume m) ops := by
  have hlive : ∀ r, r < d.size → (e.resume m).registers.isLive r = m.registers.isLive r :=
    fun r hr => isLive_resume (hr.trans_le h.grows.size_le)
  have hlayout : (e.resume m).registers.layout = e.registers.layout := e.registers.layout_withLive _
  refine { h with
    wf := ?_, grows := ?_, live_mono := ?_, live_group := ?_, sorted := hm.sorted, origin := hm.origin }
  · rw [hlayout]
    exact h.wf
  · rw [hlayout]
    exact h.grows
  · intro r hr hl
    rw [hlive r hr] at hl
    exact hm.live_mono r hr hl
  · intro r t hr ht hrt hl
    rw [hlive r hr] at hl
    rw [hlive t ht]
    exact hm.live_group r t hr ht hrt hl

theorem along_resume {H P : List Register} (hgrows : m.registers.layout.Grows e.registers.layout) :
    (e.resume m).along T H P = { m.along T H P with layout := e.registers.layout } := by
  have howned : (e.resume m).registers.owns (e.resume m).registers.isLive =
      m.registers.owns m.registers.isLive := by
    funext r
    have hlive : (e.resume m).registers.isLive r = m.registers.isLive r := by
      rcases lt_or_ge r e.size with hr | hr
      · exact isLive_resume hr
      · rw [Registers.isLive_of_size_le _ (hgrows.size_le.trans hr)]
        exact Registers.isLive_of_size_le _ (by rwa [Draft.resume,Registers.size_withLive])
    rw [Registers.owns,Registers.owns,hlive]
    refine propext (and_congr_right fun hr => ?_)
    have hkind : (e.resume m).registers.kind r = m.registers.kind r :=
      (e.registers.kind_withLive _ r).trans (hgrows.kind_old r (m.registers.lt_size_of_isLive hr))
    rw [hkind]
  rw [along,howned]
  rw [show (e.resume m).registers.layout = e.registers.layout from e.registers.layout_withLive _]
  rfl

theorem step_resume {callees : Callees} {strict : Prop} {floor : Nat} {T : List Op}
    (hgrows : m.registers.layout.Grows e.registers.layout) (hwf : e.registers.layout.WellFormed) :
    Step callees strict floor (m.along T [] []) ((e.resume m).along T [] []) := by
  rw [along_resume hgrows]
  exact .elsewhere hgrows hwf

theorem Valid.resume {c : Condition} (hm : m.Valid)
    (hgrows : m.registers.layout.Grows e.registers.layout) (hwf : e.registers.layout.WellFormed) :
    ((e.resume m).under c).Valid :=
  ⟨(@step_resume e m (fun _ => none) False 0 [] hgrows hwf).sound hm.sound, hm.sorted⟩

/-- How a branch ends, by what its arms do. -/
def Behind (f : Frame) (span : Span) (d dt df d' : Draft) : Flow → Flow → Flow → Prop
  | .returns, .returns, flow => flow = .returns ∧ d' = df.under d.current
  | .returns, .continues, flow => flow = .continues ∧ d' = df.under d.current
  | .continues, .returns, flow => flow = .continues ∧ d' = (df.under d.current).resume dt
  | .continues, .continues, flow => flow = .continues ∧
      mergeArms f span d.scope d.registers.size
        ⟨d.control.conditionCount, dt.scope, dt.registers.liveness, []⟩
        ⟨d.control.conditionCount + 1, df.scope, df.registers.liveness, []⟩
          (df.under d.current) = .ok ((), d')

theorem Behind.flow_iff {dt df : Draft} {flowT flowF : Flow}
    (h : Behind f span d dt df d' flowT flowF flow) :
    flow = .returns ↔ flowT = .returns ∧ flowF = .returns := by
  cases flowT <;> cases flowF <;> simp_all [Behind]

theorem branchOn_eq_ok {test : Register} {onTrue onFalse : Lower Flow}
    (h : branchOn f span test onTrue onFalse d = .ok (flow, d')) :
    ∃ flowT flowF dt df, onTrue (d.fork test) = .ok (flowT, dt) ∧
      onFalse ((dt.resume d).under (d.count + 1)) = .ok (flowF, df) ∧
      Behind f span d dt df d' flowT flowF flow := by
  simp only [branchOn,arm,resumeFrom,bind_eq_ok,condition_eq_ok,push_eq_ok,get_eq_ok,modify_eq_ok,
    pure_eq_ok] at h
  obtain ⟨_,_,⟨rfl,rfl⟩,_,_,⟨rfl,rfl⟩,_,_,rfl,_,_,⟨rfl,rfl⟩,⟨flowT,_⟩,e₁,
    ⟨_,_,rfl,_,_,hT,_,_,⟨rfl,rfl⟩,harmT,rfl⟩,_,_,rfl,⟨flowF,_⟩,e₂,
    ⟨_,_,rfl,_,_,hF,_,_,⟨rfl,rfl⟩,harmF,rfl⟩,_,_,rfl,h⟩ := h
  cases harmT
  cases harmF
  refine ⟨flowT, flowF, e₁, e₂, hT, hF, ?_⟩
  cases flowT with
  | returns =>
    cases flowF with
    | returns => exact (pure_eq_ok _ _).1 h
    | continues => exact (pure_eq_ok _ _).1 h
  | continues =>
    cases flowF with
    | returns =>
      simp only [bind_eq_ok,modify_eq_ok,pure_eq_ok] at h
      obtain ⟨_,_,rfl,rfl,rfl⟩ := h
      exact ⟨rfl, rfl⟩
    | continues =>
      simp only [bind_eq_ok,pure_eq_ok] at h
      obtain ⟨_,_,hmerge,rfl,rfl⟩ := h
      exact ⟨rfl, hmerge⟩

end Draft

def Walk.taking (w : Walk) (c : Condition) : Walk := ⟨c :: w.chosen, w.trace, false⟩

namespace Draft

variable {d d' dt df : Draft} {callees : Callees} {strict : Prop} {test : Register}
  {flow flowT flowF : Flow}
variable {ops opsT opsF : List GuardedOp} {w v : Walk}

def armCondition (d : Draft) : Bool → Condition
  | true => d.control.conditionCount
  | false => d.control.conditionCount + 1

/-- The operation that chooses an arm. -/
abbrev split (d : Draft) (test : Register) : Op :=
  .branch test (d.armCondition true) (d.armCondition false)

/-- Where the second arm begins. -/
abbrev second (d dt : Draft) : Draft := (dt.resume d).under (d.armCondition false)

/-- What becomes of the walks on either side of a branch. -/
structure Parts (callees : Callees) (strict : Prop) (d d' : Draft) (flow : Flow) (ops : List GuardedOp) :
    Prop where
  targets : Chooses (d.control.conditionCount + 2) d'.control.conditionCount ops
  walks : ∀ w : Walk, w.Active d → (d.along w.trace [] []).Sound →
    ∀ b, ∀ v ∈ (w.taking (d.armCondition b)).through ops,
    Reaches callees strict d d' flow w v
  goes : flow = .continues → ∀ w : Walk, w.Active d → (d.along w.trace [] []).Sound →
    ∃ b, ∃ v ∈ (w.taking (d.armCondition b)).through ops, v.ended = false

/-- Both arms of a branch, lowered one after the other. -/
structure Arms (callees : Callees) (strict : Prop) (d : Draft) (test : Register) (dt df : Draft)
    (flowT flowF : Flow) (opsT opsF : List GuardedOp) : Prop where
  valid : d.Valid
  onTrue : Advances callees strict (d.fork test) dt flowT opsT
  onFalse : Advances callees strict ((dt.resume d).under (d.armCondition false)) df flowF opsF

namespace Arms

variable (h : Arms callees strict d test dt df flowT flowF opsT opsF)

include h

theorem extends_true : d.Extends (dt.under d.current) ([⟨d.current, d.split test⟩] ++ opsT) := by
  have htick : d.Extends d.tick.tick [] :=
    .of_registers_scope h.valid.sound.wf h.valid.sorted rfl rfl rfl rfl (Nat.le_add_right _ 2) le_rfl
      prefix_rfl
  have hvalid : d.tick.tick.Valid := ⟨h.valid.sound, h.valid.sorted⟩
  have hemit := htick.trans
    (extends_emit hvalid (d.split test) (.inl rfl))
  exact hemit.arm h.onTrue.extend le_rfl

theorem extends_false : d.Extends (df.under d.current) ([⟨d.current, d.split test⟩] ++ opsT ++ opsF) :=
  (h.extends_true.resume (.refl h.valid.sound.wf h.valid.sorted)).arm h.onFalse.extend (Nat.le_succ _)

theorem grows_true : d.registers.layout.Grows dt.registers.layout := h.onTrue.extend.grows

theorem grows : dt.registers.layout.Grows df.registers.layout := by
  have hgrows := h.onFalse.extend.grows
  rwa [show (d.second dt).registers.layout = dt.registers.layout from
    dt.registers.layout_withLive _] at hgrows

theorem count_le : d.armCondition false < dt.count ∧ dt.count ≤ df.count :=
  ⟨h.onTrue.extend.count_le, h.onFalse.extend.count_le⟩

omit h in
theorem active_true (hw : w.Active d) : (w.taking (d.armCondition true)).Active (d.fork test) where
  goes := rfl
  current := mem_cons_self
  bound c hc := by
    rcases mem_cons.1 hc with rfl | hc
    · exact Nat.lt_succ_of_lt (Nat.lt_add_one _)
    · exact Nat.lt_succ_of_lt (Nat.lt_succ_of_lt (hw.bound c hc))

theorem active_false (hw : w.Active d) : (w.taking (d.armCondition false)).Active (d.second dt) where
  goes := rfl
  current := mem_cons_self
  bound c hc := by
    rcases mem_cons.1 hc with rfl | hc
    · exact h.count_le.1
    · exact (Nat.lt_succ_of_lt (hw.bound c hc)).trans h.count_le.1

theorem targets : Chooses (d.count + 2) df.count (opsT ++ opsF) :=
  h.onTrue.targets.append h.onFalse.targets

section

variable (hw : w.Active d) (hv : v ∈ (w.taking (d.armCondition true)).through opsT)

include hw hv

theorem chosen_true (hc : c ∈ v.chosen) : c < dt.count ∧ c ≠ d.armCondition false := by
  rcases (Walk.chosen_of_through hv).2 c hc with hc | ⟨g,hg,hc⟩
  · rcases mem_cons.1 hc with rfl | hc
    · exact ⟨Nat.lt_of_succ_lt h.count_le.1, (Nat.lt_add_one _).ne⟩
    · have hlt := Nat.lt_succ_of_lt (hw.bound c hc)
      exact ⟨hlt.trans h.count_le.1, hlt.ne⟩
  · obtain ⟨hlo,hhi⟩ := h.onTrue.targets.bound g hg c hc
    exact ⟨hhi, Nat.ne_of_gt hlo⟩

theorem through_true : v.through opsF = [v] := by
  refine Walk.through_of_passes fun g hg => .inr fun hg' => ?_
  obtain ⟨hlt,hne⟩ := h.chosen_true hw hv hg'
  rcases h.onFalse.extend.under g hg with hc | hc
  · exact hne hc
  · exact absurd hlt (not_lt.2 hc)

end

theorem through_false (hw : w.Active d) : (w.taking (d.armCondition false)).through (opsT ++ opsF) =
      (w.taking (d.armCondition false)).through opsF := by
  rw [Walk.through_append,Walk.through_of_passes fun g hg => .inr fun hg' => ?_,flatMap_singleton]
  rcases h.onTrue.extend.under g hg with hc | hc
  · rw [hc] at hg'
    rcases mem_cons.1 hg' with heq | hmem
    · exact absurd heq (Nat.lt_add_one _).ne
    · exact absurd (hw.bound _ hmem) (lt_irrefl _)
  · rcases mem_cons.1 hg' with heq | hmem
    · rw [heq] at hc
      exact absurd hc (Nat.not_le.2 (Nat.lt_add_one _))
    · exact absurd ((hw.bound _ hmem).trans_le (Nat.le_add_right _ 2)) (not_lt.2 hc)

theorem steps_resume (floor : Nat) (T : List Op) :
    Step callees strict floor (d.along T [] []) ((d.second dt).along T [] []) :=
  step_resume h.grows_true h.onTrue.extend.wf

/-- A walk that has taken one side of the branch goes through the arm on that side only. -/
theorem side (hw : w.Active d) (hv : v ∈ (w.taking (d.armCondition b)).through (opsT ++ opsF)) :
    v ∈ (w.taking (d.armCondition b)).through (bif b then opsT else opsF) ∧ d.armCondition b ∈ v.chosen ∧
      d.armCondition (!b) ∉ v.chosen := by
  cases b with
  | true =>
    obtain ⟨u,hu,hv⟩ := Walk.mem_through_append.1 hv
    rw [h.through_true hw hu,mem_singleton] at hv
    subst hv
    exact ⟨hu, (Walk.chosen_of_through hu).1 _ mem_cons_self, fun hc => (h.chosen_true hw hu hc).2 rfl⟩
  | false =>
    rw [h.through_false hw] at hv
    refine ⟨hv, (Walk.chosen_of_through hv).1 _ mem_cons_self, fun hc => ?_⟩
    rcases (Walk.chosen_of_through hv).2 _ hc with hc | ⟨g,hg,hc⟩
    · rcases mem_cons.1 hc with heq | hc
      · exact absurd heq (Nat.lt_add_one _).ne
      · exact absurd (hw.bound _ hc) (lt_irrefl _)
    · exact absurd (Nat.lt_of_succ_lt h.count_le.1) (not_lt.2 (h.onFalse.targets.bound g hg _ hc).1)

section

variable (hw : w.Active d) (hsound : (d.along w.trace [] []).Sound)

include hw hsound

theorem walks_true (hv : v ∈ (w.taking (d.armCondition true)).through (opsT ++ opsF)) :
    Reaches callees strict d dt flowT w v :=
  h.onTrue.walks _ (active_true hw) hsound v (h.side hw hv).1

theorem walks_false (hv : v ∈ (w.taking (d.armCondition false)).through (opsT ++ opsF)) :
    Reaches callees strict (d.second dt) df flowF w v :=
  h.onFalse.walks _ (h.active_false hw) ((@steps_resume _ _ _ _ _ _ _ _ _ _ h 0 w.trace).sound hsound) v
    (h.side hw hv).1

end

theorem reaches_false (hreach : Reaches callees strict (d.second dt) df flowF w v) :
    Reaches callees strict d df flowF w v := by
  have hle : d.size ≤ (d.second dt).registers.size := by
    have hsize : (d.second dt).registers.size = dt.size := dt.registers.size_withLive _
    rw [hsize]
    exact h.grows_true.size_le
  unfold Reaches at hreach ⊢
  split at hreach
  · rename_i hend
    rw [if_pos hend]
    exact .head (h.steps_resume _ _) (hreach.mono hle)
  · rename_i hend
    rw [if_neg hend]
    exact ⟨hreach.1, .head (h.steps_resume _ _) (hreach.2.mono hle)⟩

theorem goes_true (hflow : flowT = .continues) (hw : w.Active d)
    (hsound : (d.along w.trace [] []).Sound) :
    ∃ v ∈ (w.taking (d.armCondition true)).through (opsT ++ opsF), v.ended = false := by
  obtain ⟨v,hv,hgoes⟩ := h.onTrue.goes hflow _ (active_true hw) hsound
  refine ⟨v, Walk.mem_through_append.2 ⟨v, hv, ?_⟩, hgoes⟩
  rw [h.through_true hw hv]
  exact mem_singleton_self v

theorem goes_false (hflow : flowF = .continues) (hw : w.Active d)
    (hsound : (d.along w.trace [] []).Sound) :
    ∃ v ∈ (w.taking (d.armCondition false)).through (opsT ++ opsF), v.ended = false := by
  rw [h.through_false hw]
  exact h.onFalse.goes hflow _ (h.active_false hw)
    ((@steps_resume _ _ _ _ _ _ _ _ _ _ h 0 w.trace).sound hsound)

end Arms

theorem Reaches.ended {flow' : Flow} (h : Reaches callees strict d e flow w v) (hend : v.ended = true)
    (hgrows : e.registers.layout.Grows d'.registers.layout) (hwf : d'.registers.layout.WellFormed) :
    Reaches callees strict d d' flow' w v := by
  rw [Reaches,if_pos hend] at h ⊢
  exact h.tail (@Step.elsewhere callees strict d.size (e.registers.closed v.trace) _ hgrows hwf)

theorem Reaches.ended_of_returns (h : Reaches callees strict d e .returns w v) : v.ended = true := by
  by_contra hend
  rw [Reaches,if_neg hend] at h
  cases h.1

namespace Arms

theorem parts_of_returns (h : Arms callees strict d test dt df .returns flowF opsT opsF) :
    Parts callees strict d (df.under d.current) flowF (opsT ++ opsF) where
  targets := h.targets
  walks w hw hsound b v hv := by
    cases b with
    | true =>
      have hreach := h.walks_true hw hsound hv
      exact hreach.ended hreach.ended_of_returns h.grows h.onFalse.extend.wf
    | false => exact h.reaches_false (h.walks_false hw hsound hv)
  goes hflow w hw hsound := ⟨false, h.goes_false hflow hw hsound⟩

theorem parts_of_resume (h : Arms callees strict d test dt df .continues .returns opsT opsF) :
    Parts callees strict d ((df.under d.current).resume dt) .continues (opsT ++ opsF) where
  targets := h.targets
  walks w hw hsound b v hv := by
    have hlayout : ((df.under d.current).resume dt).registers.layout = df.registers.layout :=
      df.registers.layout_withLive _
    have hgrows : dt.registers.layout.Grows ((df.under d.current).resume dt).registers.layout := by
      rw [hlayout]
      exact h.grows
    have hwf : ((df.under d.current).resume dt).registers.layout.WellFormed := by
      rw [hlayout]
      exact h.onFalse.extend.wf
    cases b with
    | true =>
      have hreach := h.walks_true hw hsound hv
      by_cases hend : v.ended = true
      · exact hreach.ended hend hgrows hwf
      · rw [Reaches,if_neg hend] at hreach ⊢
        exact ⟨rfl, hreach.2.tail (step_resume h.grows h.onFalse.extend.wf)⟩
    | false =>
      have hreach := h.reaches_false (h.walks_false hw hsound hv)
      refine hreach.ended hreach.ended_of_returns ?_ hwf
      rw [hlayout]
      exact .refl h.onFalse.extend.wf
  goes _ w hw hsound := ⟨true, h.goes_true rfl hw hsound⟩

end Arms

theorem mergeArms_eq_ok {start : Scope} {before : Nat} {onTrue onFalse : Arm}
    (h : mergeArms f span start before onTrue onFalse d = .ok ((), d')) :
    ∃ merged arms e, joinNames f span before
        (orderedSet (start.names ++ onTrue.scope.names.filter onFalse.scope.contains))
        (onTrue, onFalse) .empty d = .ok ((merged, arms), e) ∧ d' = e.settle f before merged arms := by
  simp only [mergeArms,bind_eq_ok,get_eq_ok,modify_eq_ok,freeAllUnder_eq_ok] at h
  obtain ⟨⟨merged,arms⟩,e,hjoin,_,_,⟨rfl,rfl⟩,_,_,rfl,rfl⟩ := h
  exact ⟨merged, arms, _, hjoin, rfl⟩

theorem get?_of_armScope {scope : Scope} {x : String} (h : armScope scope .empty xs x = some r) :
    scope.get? x = some r := by
  by_cases hmem : x ∈ xs
  · simpa [armScope,hmem] using h
  · simp [armScope,hmem] at h

def ends (d dt df : Draft) : Arm × Arm :=
  (⟨d.armCondition true, dt.scope, dt.registers.liveness, []⟩,
    ⟨d.armCondition false, df.scope, df.registers.liveness, []⟩)

def owns (dt df : Draft) : Bool → Register → Prop
  | true => dt.registers.owns dt.registers.isLive
  | false => df.registers.owns df.registers.isLive

def between (d dt df : Draft) : Fork := ⟨d, dt.registers.size, df.registers.size⟩

/-- The walk stands where the joins begin, and has met nothing of the other arm. -/
def Enters (callees : Callees) (strict : Prop) (d : Draft) (lo hi : Nat) (s : Bank)
    (w v : Walk) : Prop :=
  Steps callees strict d.registers.size (d.along w.trace [] [])
      ((if v.ended then s.close else s).passage v.trace) ∧
    (if v.ended then s.close else s).Clean d.registers.size lo hi v.trace

namespace Arms

theorem steps_rescope {floor : Nat} (xs : List String) (he : (e.along T [] []).Sound)
    (hgrows : e.registers.layout.Grows df.registers.layout) (hwf : df.registers.layout.WellFormed) :
    Steps callees strict floor (e.along T [] [])
      (Bank.passage ⟨df.registers, .empty, e.registers.owns e.registers.isLive,
        armScope e.scope .empty xs⟩ T) := by
  refine .tail (.single (.elsewhere hgrows hwf)) ?_
  refine .rescope fun x r hx => ?_
  have hx := get?_of_armScope hx
  exact ⟨(he.lt_of_scope hx).trans_le hgrows.size_le, r, hx, rfl⟩

theorem touches_rescope (h : (Bank.passage ⟨df.registers, .empty, e.registers.owns e.registers.isLive,
      armScope e.scope .empty xs⟩ T).Touches r) :
    (e.along T [] []).Touches r := by
  rcases h with (ho | ⟨x,hx⟩ | hr) | hr
  · exact .inl (.inl ho)
  · exact .inl (.inr (.inl ⟨x, get?_of_armScope hx⟩))
  · exact .inl (.inr (.inr hr))
  · exact .inr hr

section

variable (h : Arms callees strict d test dt df flowT flowF opsT opsF)

include h

theorem clear_true (hr : r < dt.size) : Clear d.size dt.size df.size df.registers .empty r := by
  refine fun _ => .inr (.inr fun b hlo _ heq => ?_)
  have hle : dt.registers.resolve r ≤ r := h.onTrue.extend.wf.root_le r
  have hfresh : dt.size ≤ df.registers.resolve b := h.grows.root_fresh b hlo
  rw [heq,h.grows.resolve hr] at hfresh
  exact absurd (hle.trans_lt hr) (not_lt.2 hfresh)

theorem clear_false {s : Passage} (hsound : (d.along T [] []).Sound)
    (hlayout : s.layout = df.registers.layout)
    (hsteps : Steps callees strict dt.size ((d.second dt).along T [] []) s) (hr : s.Touches r) :
    Clear d.size d.size dt.size df.registers .empty r := by
  intro _
  have hstart := (@steps_resume _ _ _ _ _ _ _ _ _ _ h 0 T).sound hsound
  have hsize : dt.size ≤ ((d.second dt).along T [] []).layout.size :=
    (dt.registers.size_withLive _).symm.le
  have hgrows : d.registers.layout.Grows df.registers.layout := h.grows_true.trans h.grows
  rcases Steps.touches hsteps hstart hsize hr with ⟨t,ht,htr⟩ | hle
  · rw [hlayout] at htr
    have ht' : (d.along T [] []).Touches t := by
      rw [show (d.second dt).along T [] [] = (dt.resume d).along T [] [] from rfl,
        along_resume h.grows_true] at ht
      exact ht
    have hlt := hsound.bound t ht'
    refine .inl ?_
    show df.registers.layout.root r < d.size
    rw [← htr,hgrows.root_old t hlt]
    exact hsound.wf.root_lt hlt
  · rw [hlayout] at hle
    refine .inr (.inr fun b _ hhi heq => ?_)
    have hself : dt.registers.resolve b ≤ b := h.onTrue.extend.wf.root_le b
    have hle : dt.size ≤ df.registers.resolve r := hle
    rw [← heq,h.grows.resolve hhi] at hle
    exact absurd (hself.trans_lt hhi) (not_lt.2 hle)

theorem enters_true (hsound : (d.along w.trace [] []).Sound)
    (hreach : Reaches callees strict d dt flowT w v) (xs : List String) :
    Enters callees strict d dt.size df.size
      (banks df.registers .empty xs (ends d dt df) (owns dt df) true) w v := by
  have hwf := h.onFalse.extend.wf
  unfold Enters
  unfold Reaches at hreach
  cases hend : v.ended with
  | true =>
    simp only [hend,if_true] at hreach ⊢
    have hsteps := hreach.tail (@Step.elsewhere callees strict d.size (dt.registers.closed v.trace) _
      h.grows hwf)
    refine ⟨hsteps, Steps.sound hsteps hsound, fun r hr => h.clear_true ?_⟩
    exact (Steps.sound hreach hsound).bound r hr
  | false =>
    simp only [hend,Bool.false_eq_true,if_false] at hreach ⊢
    have hsteps := hreach.2.trans (steps_rescope xs (Steps.sound hreach.2 hsound) h.grows hwf)
    refine ⟨hsteps, Steps.sound hsteps hsound, fun r hr => h.clear_true ?_⟩
    exact (Steps.sound hreach.2 hsound).bound r (touches_rescope hr)

theorem enters_false (hsound : (d.along w.trace [] []).Sound)
    (hreach : Reaches callees strict (d.second dt) df flowF w v) (xs : List String) :
    Enters callees strict d d.size dt.size
      (banks df.registers .empty xs (ends d dt df) (owns dt df) false) w v := by
  have hwf := h.onFalse.extend.wf
  have hsize : (d.second dt).registers.size = dt.size := dt.registers.size_withLive _
  have hstart := @steps_resume _ _ _ _ _ _ _ _ _ _ h d.size w.trace
  unfold Enters
  unfold Reaches at hreach
  rw [hsize] at hreach
  cases hend : v.ended with
  | true =>
    simp only [hend,if_true] at hreach ⊢
    have hsteps : Steps callees strict d.size (d.along w.trace [] []) (df.registers.closed v.trace) :=
      .head hstart (hreach.mono h.grows_true.size_le)
    exact ⟨hsteps, Steps.sound hsteps hsound, fun r hr => h.clear_false hsound rfl hreach hr⟩
  | false =>
    simp only [hend,Bool.false_eq_true,if_false] at hreach ⊢
    have hsteps : Steps callees strict d.size (d.along w.trace [] []) (df.along v.trace [] []) :=
      .head hstart (hreach.2.mono h.grows_true.size_le)
    have hsteps' := hsteps.trans (steps_rescope xs (Steps.sound hsteps hsound) (.refl hwf) hwf)
    exact ⟨hsteps', Steps.sound hsteps' hsound, fun r hr => h.clear_false hsound rfl hreach.2
      (touches_rescope hr)⟩

end

variable (h : Arms callees strict d test dt df .continues .continues opsT opsF)
variable (hcurrent : d.current < d.control.conditionCount) (xs : List String)

include h hcurrent

theorem clean_true :
    (banks df.registers .empty xs (ends d dt df) (owns dt df) true).Clean d.size dt.size df.size [] := by
  obtain ⟨v,hv,hgoes⟩ := h.goes_true rfl (active_start hcurrent) h.valid.sound
  have henters := h.enters_true h.valid.sound (h.walks_true (active_start hcurrent) h.valid.sound hv) xs
  rw [Enters,hgoes] at henters
  exact henters.2.shorten

theorem clean_false :
    (banks df.registers .empty xs (ends d dt df) (owns dt df) false).Clean d.size d.size dt.size [] := by
  obtain ⟨v,hv,hgoes⟩ := h.goes_false rfl (active_start hcurrent) h.valid.sound
  have henters :=
    h.enters_false h.valid.sound (h.walks_false (active_start hcurrent) h.valid.sound hv) xs
  rw [Enters,hgoes] at henters
  exact henters.2.shorten

theorem shore_true :
    Shore (between d dt df) true df.registers .empty xs (ends d dt df).1 (owns dt df true) where
  clean := h.clean_true hcurrent xs
  flagged r _ := by
    simp only [owns,Registers.owns,ends,dt.registers.getD_liveness]
    refine and_congr_right fun hlive => ?_
    have hkind : df.registers.layout.kind r = dt.registers.kind r :=
      h.grows.kind_old r (dt.registers.lt_size_of_isLive hlive)
    rw [Layout.heap,hkind]
  known x r hx := h.extends_true.origin x r hx
  reach x r hx := by
    rcases lt_or_ge r d.size with hr | hr
    · rw [(h.grows_true.trans h.grows).resolve hr]
      exact .inl (h.valid.sound.wf.root_lt hr)
    · exact .inr ⟨hr,
        (h.onTrue.valid h.valid.fork (Nat.lt_succ_of_lt (Nat.lt_add_one _))).sound.lt_of_scope hx⟩
  mono r hr hlive := by
    simp only [ends,dt.registers.getD_liveness] at hlive
    exact h.extends_true.live_mono r hr hlive
  group r t hr ht hrt hlive hlive' := by
    simp only [ends,dt.registers.getD_liveness] at hlive ⊢
    exact h.extends_true.live_group r t hr ht hrt hlive hlive'
  own r hlive := by
    simp only [ends,dt.registers.getD_liveness] at hlive
    rcases lt_or_ge r d.size with hr | hr
    · exact .inl hr
    · exact .inr ⟨hr, dt.registers.lt_size_of_isLive hlive⟩

theorem shore_false :
    Shore (between d dt df) false df.registers .empty xs (ends d dt df).2 (owns dt df false) where
  clean := h.clean_false hcurrent xs
  flagged r _ := by
    simp only [owns,Registers.owns,ends,df.registers.getD_liveness]
    rfl
  known x r hx := h.extends_false.origin x r hx
  reach x r hx := by
    have hlt : r < df.size :=
      (h.onFalse.valid (h.valid.resume h.grows_true h.onTrue.extend.wf) h.count_le.1).sound.lt_of_scope
        hx
    rcases lt_or_ge r dt.size with hr | hr
    · refine .inl ?_
      rw [h.grows.resolve hr]
      rcases h.onFalse.extend.origin x r hx with hge | ⟨y,t,hy,htr⟩
      · rw [show (d.second dt).registers.size = dt.size from
          dt.registers.size_withLive _] at hge
        exact absurd hr (not_lt.2 hge)
      · have hy : d.scope.get? y = some t := hy
        have htr : dt.registers.resolve t = dt.registers.resolve r := by
          simpa only [under,resume,Registers.resolve_withLive] using htr
        have ht := h.valid.sound.lt_of_scope hy
        rw [← htr,h.grows_true.resolve ht]
        exact h.valid.sound.wf.root_lt ht
    · exact .inr ⟨hr, hlt⟩
  mono r hr hlive := by
    simp only [ends,df.registers.getD_liveness] at hlive
    exact h.extends_false.live_mono r hr hlive
  group r t hr ht hrt hlive hlive' := by
    simp only [ends,df.registers.getD_liveness] at hlive ⊢
    exact h.extends_false.live_group r t hr ht hrt hlive hlive'
  own r hlive := by
    simp only [ends,df.registers.getD_liveness] at hlive
    rcases lt_or_ge r dt.size with hr | hr
    · have hold := h.onFalse.extend.live_mono r (by rwa [under,resume,Registers.size_withLive]) hlive
      have hold : (dt.resume d).registers.isLive r = true := hold
      rw [isLive_resume hr] at hold
      exact .inl (d.registers.lt_size_of_isLive hold)
    · exact .inr ⟨hr, df.registers.lt_size_of_isLive hlive⟩

theorem seam : Seam (between d dt df) df.registers .empty xs (ends d dt df) (owns dt df) where
  wf := h.onFalse.extend.wf
  grows := h.grows_true.trans h.grows
  fin_le := le_rfl
  live r hr hlt := absurd hlt (not_lt.2 hr)
  named r hr hlt := absurd hlt (not_lt.2 hr)
  sorted := Scope.sorted_empty
  done y m hm := by simp at hm
  known y m hm := by simp at hm
  shore b := by
    cases b with
    | true => exact h.shore_true hcurrent xs
    | false => exact h.shore_false hcurrent xs

end Arms

theorem extends_settle {e m : Draft} {f : Frame} {u : Fork} {merged : Scope} {arms : Arm × Arm}
    {O : Bool → Register → Prop} {gs : List GuardedOp} (hseam : Seam u e.registers merged [] arms O)
    (hbefore : u.before ≤ u.fin)
    (hfin : arms.2.live.length = u.fin) (hext : u.start.Extends m ops)
    (he : e = { m with registers := e.registers, ops := m.ops ++ gs, log := e.log })
    (hgs : ∀ g ∈ gs, ∃ b, g.condition = conditions arms b)
    (hcond : ∀ b, u.start.count ≤ conditions arms b) :
    u.start.Extends (e.settle f u.before merged arms)
      (ops ++ gs ++ freeOps e.count
        (orphans e.registers (merged.reachable e.registers) u.before arms)) := by
  have hflag : ∀ r, r < u.before →
      ((e.registers.withLive ((List.range e.size).map
        (joinedFlag e.registers (merged.reachable e.registers) u.before arms))).isLive r = true ↔
      isOrphan e.registers (merged.reachable e.registers) arms r ≠ true ∧ ∃ b, keeps arms b r) := by
    intro r hr
    have hlt : r < e.size := hr.trans_le (hbefore.trans hseam.fin_le)
    rw [Registers.isLive_withLive,getD_eq_getElem?_getD,getElem?_map,getElem?_range hlt]
    simp only [Option.map_some,Option.getD_some,hlt,true_and,joinedFlag_iff _ hfin,
      if_neg (not_le.2 (hr.trans_le hbefore)),hr]
  have hjoined : u.start.Extends
      { e with
        registers := e.registers.withLive ((List.range e.size).map
          (joinedFlag e.registers (merged.reachable e.registers) u.before arms))
        scope := merged } (ops ++ gs) := by
    refine
      { ops_eq := ?_
        under := ?_
        current := ?_
        count_le := ?_
        loops_le := ?_
        closures := ?_
        wf := ?_
        grows := ?_
        live_mono := ?_
        live_group := ?_
        sorted := hseam.sorted
        origin := hseam.known }
    · show e.ops = _
      rw [he,← append_assoc,← hext.ops_eq]
    · intro g hg
      rcases mem_append.1 hg with hg | hg
      · exact hext.under g hg
      · obtain ⟨b,hb⟩ := hgs g hg
        exact .inr (hb ▸ hcond b)
    · show e.current = _
      rw [he]
      exact hext.current
    · show _ ≤ e.count
      rw [he]
      exact hext.count_le
    · show _ ≤ e.loopCount
      rw [he]
      exact hext.loops_le
    · show _ <+: e.closures
      rw [he]
      exact hext.closures
    · rw [Registers.layout_withLive]
      exact hseam.wf
    · rw [Registers.layout_withLive]
      exact hseam.grows
    · intro r hr hlive
      obtain ⟨-,b,hb⟩ := (hflag r hr).1 hlive
      exact hseam.isLive_of_keeps hr hb
    · intro r t hr ht hrt hlive hlive'
      obtain ⟨hno,b,hb⟩ := (hflag r hr).1 hlive
      have hroot := (hseam.grows.resolve_eq hr ht).2 hrt
      have hrlive := hseam.isLive_of_keeps hr hb
      have hiff : ∀ b, keeps arms b r ↔ keeps arms b t := fun b =>
        ⟨hseam.keeps_of_group hr ht hroot hlive', hseam.keeps_of_group ht hr hroot.symm hrlive⟩
      refine (hflag t ht).2 ⟨fun horphan => hno ?_, b, (hiff b).1 hb⟩
      rw [isOrphan_iff] at horphan ⊢
      rwa [hiff true,hiff false,hroot]
  refine hjoined.freeAll f ?_
  rintro ⟨g,c⟩ hp
  obtain ⟨r,b,-,-,rfl⟩ := (hseam.mem_orphans _ _ _).1 hp
  exact .inr (hcond b)

theorem through_taken {cond : Bool → Condition} {gs : List GuardedOp} (hend : v.ended = false)
    (hplain : ∀ g ∈ gs, (∃ b, g.condition = cond b) ∧ g.op.Inline)
    (hmem : cond b ∈ v.chosen) (hnot : cond (!b) ∉ v.chosen) :
    v.through gs =
      [⟨v.chosen, v.trace ++ (gs.filter (·.condition == cond b)).map (·.op), false⟩] := by
  rw [Walk.through_filter gs hend fun g hg => (hplain g hg).2]
  have hfilter : gs.filter (fun g => v.chosen.contains g.condition) =
      gs.filter (·.condition == cond b) := by
    refine filter_congr fun g hg => ?_
    obtain ⟨⟨b',hb'⟩,-⟩ := hplain g hg
    rw [hb']
    have hother : b' = b ∨ b' = !b := by cases b <;> cases b' <;> simp
    rcases hother with rfl | rfl
    · simp [hmem]
    · have hne : cond (!b) ≠ cond b := fun heq => hnot (heq ▸ hmem)
      simp [hnot,hne]
  rw [hfilter]

namespace Arms

theorem enters (h : Arms callees strict d test dt df flowT flowF opsT opsF) (hw : w.Active d)
    (hsound : (d.along w.trace [] []).Sound)
    (hv : v ∈ (w.taking (d.armCondition b)).through (opsT ++ opsF)) (xs : List String) :
    Enters callees strict d ((between d dt df).low !b) ((between d dt df).high !b)
      (banks df.registers .empty xs (ends d dt df) (owns dt df) b) w v := by
  cases b with
  | true => exact h.enters_true hsound (h.walks_true hw hsound hv) xs
  | false => exact h.enters_false hsound (h.walks_false hw hsound hv) xs

theorem parts_of_merge (h : Arms callees strict d test dt df .continues .continues opsT opsF)
    (hcurrent : d.current < d.count)
    (hmerge : mergeArms f span d.scope d.size (ends d dt df).1 (ends d dt df).2
      (df.under d.current) = .ok ((), d')) :
    ∃ gs, Parts callees strict d d' .continues (opsT ++ opsF ++ gs) ∧
      d.Extends d' ([⟨d.current, d.split test⟩] ++ opsT ++ opsF ++
        gs) := by
  obtain ⟨merged,arms,e,hjoin,rfl⟩ := mergeArms_eq_ok hmerge
  have hbefore : (between d dt df).before ≤ (between d dt df).fin := (h.grows_true.trans h.grows).size_le
  have hcond : conditions (ends d dt df) = d.armCondition := by
    funext b
    cases b <;> rfl
  have hne : d.armCondition true ≠ d.armCondition false := (Nat.lt_add_one _).ne
  obtain ⟨O,gs,hseam,hcross,he,hjoins⟩ :=
    @joinNames_seam callees strict (between d dt df) _ _ _ _ _ _ _ _ _ _
      hjoin (h.seam hcurrent _) hbefore h.valid.sound.wf (nodup_orderedSet _) (by rwa [hcond])
  have hfin : arms.2.live.length = (between d dt df).fin :=
    (hjoins.length false).trans df.registers.length_liveness
  have hconditions : conditions arms = d.armCondition := hjoins.condition.trans hcond
  rw [hcond] at hcross
  have hcount : df.count ≤
      (e.settle f d.size merged arms).count := by
    refine (Nat.le_of_eq ?_).trans e.count_le_settle
    show df.count = e.count
    rw [he]
    rfl
  generalize hfrees : freeOps e.count
    (orphans e.registers (merged.reachable e.registers) d.size arms) = frees
  have hplain : ∀ g ∈ gs ++ frees,
      (∃ b, g.condition = d.armCondition b) ∧ g.op.Inline := by
    intro g hg
    rcases mem_append.1 hg with hg | hg
    · exact hcross.plain g hg
    · rw [← hfrees] at hg
      obtain ⟨⟨⟨r,c⟩,k⟩,hp,rfl⟩ := mem_map.1 hg
      obtain ⟨-,b,-,-,hb⟩ := (hseam.mem_orphans _ _ _).1 (fst_mem_of_mem_zipIdx hp)
      exact ⟨⟨b, by rw [← hconditions]; exact hb⟩, rfl, rfl⟩
  have hlayout : (e.settle f d.size merged arms).registers.layout = e.registers.layout :=
    @layout_settle e (between d dt df) merged arms f
  refine ⟨gs ++ frees, ⟨?_, ?_, ?_⟩, ?_⟩
  · exact h.targets.append (chooses_of_plain hcount fun g hg => (hplain g hg).2.1)
  · intro w hw hsound b v hv
    obtain ⟨u,hu,hv⟩ := Walk.mem_through_append.1 hv
    obtain ⟨-,hmem,hnot⟩ := h.side hw hu
    obtain ⟨hsteps,hclean⟩ := h.enters hw hsound hu
      (orderedSet (d.scope.names ++ (ends d dt df).1.scope.names.filter (ends d dt df).2.scope.contains))
    cases hend : u.ended with
    | true =>
      obtain rfl := Walk.eq_of_ended hend hv
      rw [hend] at hsteps hclean
      obtain ⟨hover,-⟩ := hcross.aside b v.trace hclean
      rw [append_nil] at hover
      rw [Reaches,if_pos hend]
      have hclosed : (e.settle f d.size merged arms).registers.closed v.trace =
          (banks e.registers merged [] arms O b).close.passage v.trace := by
        rw [Registers.closed,hlayout]
        rfl
      rw [hclosed]
      exact hsteps.trans hover
    | false =>
      rw [through_taken hend hplain hmem hnot,mem_singleton] at hv
      subst hv
      rw [hend] at hsteps hclean
      obtain ⟨hover,hclean⟩ := hcross.own b u.trace hclean
      have hsettle := @Seam.steps_settle callees strict _ _ _ _ _ f _ _ hseam hfin
        h.valid.sound.wf hbefore (by rwa [hconditions]) hclean e.count
      rw [hconditions] at hsettle
      rw [Reaches,if_neg (by simp),filter_append,map_append,← hfrees,← append_assoc]
      exact ⟨rfl, (hsteps.trans hover).trans hsettle⟩
  · intro _ w hw hsound
    obtain ⟨u,hu,hend⟩ := h.goes_true rfl hw hsound
    obtain ⟨-,hmem,hnot⟩ := h.side hw hu
    have hthrough := through_taken hend hplain hmem hnot
    exact ⟨true, _, Walk.mem_through_append.2 ⟨u, hu, hthrough ▸ mem_singleton_self _⟩, rfl⟩
  · have hall := @extends_settle _ e _ f (between d dt df) _ _ _ _ hseam hbefore hfin h.extends_false he
      (fun g hg => by rw [hconditions]; exact (hcross.plain g hg).1)
      (fun b => by
        rw [hconditions]
        cases b
        · exact Nat.le_succ _
        · exact le_rfl)
    rw [append_assoc _ gs] at hall
    rw [← hfrees]
    exact hall

end Arms

theorem active_fork (line : List Op) (op : Op) (hw : w.Active d₀) (hcurrent : d.current = d₀.current)
    (hle : d₀.count ≤ d.count) :
    Walk.Active ⟨w.chosen, w.trace ++ line ++ [op], false⟩ d :=
  ⟨rfl, hcurrent ▸ hw.current, fun c hc => (hw.bound c hc).trans_le hle⟩

theorem mem_through_fork (hw : w.Active d₀) (hcurrent : d.current = d₀.current)
    (hplain : ∀ op ∈ line, op.Inline) :
    v ∈ w.through (line.map (GuardedOp.mk d₀.current) ++
        ([⟨d.current, d.split test⟩] ++ ops)) ↔
      ∃ b, v ∈ (Walk.taking ⟨w.chosen,
        w.trace ++ line ++ [d.split test], false⟩ (d.armCondition b)).through ops := by
  rw [hcurrent,Walk.mem_through_branch hw.goes hw.current hplain]
  refine ⟨fun h => h.elim (fun h => ⟨true, h⟩) fun h => ⟨false, h⟩, ?_⟩
  rintro ⟨b,h⟩
  cases b with
  | true => exact .inl h
  | false => exact .inr h

theorem Parts.advances (hparts : Parts callees strict d d' flow ops)
    (hline : Straight callees d₀ d [test] [] apart rebound line) (hapart : strict → apart [])
    (hext : d.Extends d' ([⟨d.current, d.split test⟩] ++ ops)) :
    Advances callees strict d₀ d' flow (line.map (GuardedOp.mk d₀.current) ++
      ([⟨d.current, d.split test⟩] ++ ops)) := by
  -- what a walk has done when it comes to the arms
  have hsteps : ∀ T, Steps callees strict d₀.size (d₀.along T [] [])
      (d.along (T ++ line ++ [d.split test]) [] []) :=
    fun T => hline.steps_branch (by simp) fun hs => ⟨(by simp [NamedBy] : d₀.NamedBy [] []), hapart hs⟩
  have hactive := fun (w : Walk) (hw : w.Active d₀) => active_fork line
    (d.split test) hw hline.extend.current hline.extend.count_le
  refine ⟨hline.extend.trans hext, ?_, ?_, ?_⟩
  · exact (chooses_line hline.extend.count_le hline.plain).append (hparts.targets.branch _ _)
  · intro w hw hsound v hv
    obtain ⟨b,hv⟩ := (mem_through_fork hw hline.extend.current hline.plain).1 hv
    have hreach := hparts.walks _ (hactive w hw) (Steps.sound (hsteps w.trace) hsound) b v hv
    exact hreach.behind (hsteps w.trace) hline.extend.grows.size_le
  · intro hflow w hw hsound
    obtain ⟨b,v,hv,hgoes⟩ := hparts.goes hflow _ (hactive w hw) (Steps.sound (hsteps w.trace) hsound)
    exact ⟨v, (mem_through_fork hw hline.extend.current hline.plain).2 ⟨b, hv⟩, hgoes⟩

theorem Arms.advances (h : Arms callees strict d test dt df flowT flowF opsT opsF)
    (hcurrent : d.current < d.count) (hline : Straight callees d₀ d [test] [] apart rebound line)
    (hapart : strict → apart []) (hbehind : Behind f span d dt df d' flowT flowF flow) :
    ∃ ops, Advances callees strict d₀ d' flow ops := by
  have hext := h.extends_false
  rw [append_assoc] at hext
  cases flowT with
  | returns =>
    have hparts := h.parts_of_returns
    cases flowF with
    | returns =>
      obtain ⟨rfl,rfl⟩ := hbehind
      exact ⟨_, hparts.advances hline hapart hext⟩
    | continues =>
      obtain ⟨rfl,rfl⟩ := hbehind
      exact ⟨_, hparts.advances hline hapart hext⟩
  | continues =>
    cases flowF with
    | returns =>
      obtain ⟨rfl,rfl⟩ := hbehind
      have hresumed := @Extends.resume _ _ (dt.under d.current) _ _ hext h.extends_true
      exact ⟨_, h.parts_of_resume.advances hline hapart hresumed⟩
    | continues =>
      obtain ⟨rfl,hmerge⟩ := hbehind
      obtain ⟨_,hparts,hext⟩ := h.parts_of_merge hcurrent hmerge
      rw [append_assoc,append_assoc,← append_assoc opsT] at hext
      exact ⟨_, hparts.advances hline hapart hext⟩

end Draft

end Polled
