import Polled.Proofs.Expressions

/-!
Statements along all paths.

`Draft.Advances` says what lowering a statement does to the walks that come by. Statements follow one
another by `Advances.seq`.
-/

namespace Polled

open Lower Passage List

variable {floor : Nat} {T line : List Op} {apart : List String → Prop} {rebound xs : List String}
variable {H P rs garbage : List Register} {span : Span}

/-- A walk that the operations under the current condition belong to. -/
structure Walk.Active (w : Walk) (d : Draft) : Prop where
  goes : w.ended = false
  current : d.current ∈ w.chosen
  bound : ∀ c ∈ w.chosen, c < d.control.conditionCount

/-- The conditions that operations choose between lie in a range. -/
structure Chooses (low high : Nat) (gs : List GuardedOp) : Prop where
  le : low ≤ high
  bound : ∀ g ∈ gs, ∀ c ∈ g.op.targets, low ≤ c ∧ c < high

section

variable {low mid high : Nat} {gs hs : List GuardedOp}

theorem chooses_of_plain (hle : low ≤ high) (h : ∀ g ∈ gs, g.op.isBranch = false) :
    Chooses low high gs := by
  refine ⟨hle, fun g hg c hc => ?_⟩
  simp [Op.targets_of_not_branch (h g hg)] at hc

theorem chooses_line {c : Condition} (hle : low ≤ high) (h : ∀ op ∈ line, op.Inline) :
    Chooses low high (line.map (GuardedOp.mk c)) :=
  chooses_of_plain hle (by simpa using fun op hop => (h op hop).1)

theorem Chooses.append (h : Chooses low mid gs) (h' : Chooses mid high hs) :
    Chooses low high (gs ++ hs) := by
  refine ⟨h.le.trans h'.le, fun g hg c hc => ?_⟩
  rcases mem_append.1 hg with hg | hg
  · exact ⟨(h.bound g hg c hc).1, (h.bound g hg c hc).2.trans_le h'.le⟩
  · exact ⟨h.le.trans (h'.bound g hg c hc).1, (h'.bound g hg c hc).2⟩

theorem Chooses.branch (h : Chooses (low + 2) high gs) (c : Condition) (t : Register) :
    Chooses low high ([⟨c, .branch t low (low + 1)⟩] ++ gs) :=
  .append ⟨Nat.le_add_right _ 2, by simp [Op.targets]⟩ h

end

def Registers.closed (f : Registers) (T : List Op) : Passage where
  layout := f.layout
  owned _ := False
  scope _ := none
  trace := T
  held := []
  pending := []

namespace Draft

def Reaches (callees : Callees) (strict : Prop) (d d' : Draft) (flow : Flow) (w v : Walk) : Prop :=
  if v.ended then
    Steps callees strict d.registers.size (d.along w.trace [] []) (d'.registers.closed v.trace)
  else
    flow = .continues ∧
      Steps callees strict d.registers.size (d.along w.trace [] []) (d'.along v.trace [] [])

structure Advances (callees : Callees) (strict : Prop) (d d' : Draft) (flow : Flow)
    (ops : List GuardedOp) : Prop where
  extend : d.Extends d' ops
  targets : Chooses d.control.conditionCount d'.control.conditionCount ops
  walks : ∀ w : Walk, w.Active d → (d.along w.trace [] []).Sound → ∀ v ∈ w.through ops,
    Reaches callees strict d d' flow w v
  goes : flow = .continues → ∀ w : Walk, w.Active d → (d.along w.trace [] []).Sound →
    ∃ v ∈ w.through ops, v.ended = false

variable {callees : Callees} {strict : Prop} {d e d' : Draft} {flow : Flow} {ops ops' : List GuardedOp}

theorem active_start (hcurrent : d.current < d.count) : Walk.Active ⟨[d.current], [], false⟩ d :=
  ⟨rfl, mem_singleton_self _, by simpa using hcurrent⟩

theorem Advances.valid (h : Advances callees strict d d' .continues ops) (hd : d.Valid)
    (hcurrent : d.current < d.count) : d'.Valid := by
  have hw := active_start hcurrent
  obtain ⟨v,hv,hgoes⟩ := h.goes rfl _ hw hd.sound
  have hreach := h.walks _ hw hd.sound v hv
  rw [Reaches,hgoes] at hreach
  exact .of_along (Steps.sound hreach.2 hd.sound) h.extend.sorted

theorem Advances.active {w v : Walk} (h : Advances callees strict d d' flow ops) (hw : w.Active d)
    (hv : v ∈ w.through ops) (hgoes : v.ended = false) : v.Active d' where
  goes := hgoes
  current := by
    rw [h.extend.current]
    exact (Walk.chosen_of_through hv).1 _ hw.current
  bound c hc := by
    rcases (Walk.chosen_of_through hv).2 c hc with hc | ⟨g,hg,hc⟩
    · exact (hw.bound c hc).trans_le h.targets.le
    · exact (h.targets.bound g hg c hc).2

theorem Reaches.behind {w u v : Walk} (h : Reaches callees strict e d' flow u v)
    (hsteps : Steps callees strict d.size (d.along w.trace [] []) (e.along u.trace [] []))
    (hfloor : d.size ≤ e.size) : Reaches callees strict d d' flow w v := by
  unfold Reaches at h ⊢
  split at h
  · rename_i hend
    rw [if_pos hend]
    exact hsteps.trans (h.mono hfloor)
  · rename_i hend
    rw [if_neg hend]
    exact ⟨h.1, hsteps.trans (h.2.mono hfloor)⟩

theorem Advances.seq (h : Advances callees strict d e .continues ops)
    (h' : Advances callees strict e d' flow ops') : Advances callees strict d d' flow (ops ++ ops') where
  extend := h.extend.trans h'.extend
  targets := h.targets.append h'.targets
  walks w hw hsound v hv := by
    obtain ⟨u,hu,hv⟩ := Walk.mem_through_append.1 hv
    have hreach := h.walks w hw hsound u hu
    cases hend : u.ended with
    | true =>
      obtain rfl := Walk.eq_of_ended hend hv
      simp only [Reaches,hend,if_true] at hreach ⊢
      exact hreach.tail
        (@Step.elsewhere _ _ _ (e.registers.closed v.trace) _ h'.extend.grows h'.extend.wf)
    | false =>
      simp only [Reaches,hend,Bool.false_eq_true,if_false,true_and] at hreach
      exact (h'.walks u (h.active hw hu hend) (Steps.sound hreach hsound) v hv).behind hreach
        h.extend.grows.size_le
  goes hflow w hw hsound := by
    obtain ⟨u,hu,hgoes⟩ := h.goes rfl w hw hsound
    have hreach := h.walks w hw hsound u hu
    simp only [Reaches,hgoes,Bool.false_eq_true,if_false,true_and] at hreach
    obtain ⟨v,hv,hvgoes⟩ := h'.goes hflow u (h.active hw hu hgoes) (Steps.sound hreach hsound)
    exact ⟨v, Walk.mem_through_append.2 ⟨u, hu, hv⟩, hvgoes⟩

theorem Advances.of_line {line : List Op} (hext : d.Extends d' (line.map (GuardedOp.mk d.current)))
    (hplain : ∀ op ∈ line, op.Inline)
    (hsteps : ∀ T, (d.along T [] []).Sound →
      Steps callees strict d.size (d.along T [] []) (d'.along (T ++ line) [] [])) :
    Advances callees strict d d' .continues (line.map (GuardedOp.mk d.current)) where
  extend := hext
  targets := chooses_line hext.count_le hplain
  walks w hw hsound v hv := by
    rw [Walk.through_plain line hw.goes hw.current hplain,mem_singleton] at hv
    subst hv
    exact ⟨rfl, hsteps w.trace hsound⟩
  goes _ w hw _ := ⟨_, by
    rw [Walk.through_plain line hw.goes hw.current hplain]
    exact mem_singleton_self _, rfl⟩

theorem Straight.steps_branch {t : Register} {a b : Condition}
    (h : Straight callees d e [t] [] apart rebound line) (hH : ∀ r ∈ H, r < d.size)
    (hstrict : strict → d.NamedBy H xs ∧ apart xs) :
    Steps callees strict floor (d.along T H P) (e.along (T ++ line ++ [.branch t a b]) H P) := by
  have hemit : Step callees strict floor (e.along (T ++ line) (t :: H) P)
      (e.along (T ++ line ++ [.branch t a b]) (t :: H) P) :=
    step_emit rfl rfl rfl (by simp [Op.reads,Op.needs]) (by simp [Op.provides])
  refine ((h.steps strict floor T H P xs hH hstrict).tail hemit).tail (step_drop fun r hr => ?_)
  exact mem_cons_of_mem t hr

theorem steps_giveNames (hd : d.Valid) (hrs : ∀ r ∈ rs, r ∈ H ∧ r < d.size) :
    Steps callees strict floor (d.along T H P) ((d.giveNames xs rs).along T H P) := by
  induction xs generalizing d rs with
  | nil => exact .refl
  | cons x xs ih =>
    cases rs with
    | nil => exact .refl
    | cons r rs =>
      obtain ⟨hr,hlt⟩ := hrs r mem_cons_self
      exact (steps_giveName hd hr).trans
        (ih (hd.giveName x hlt) fun t ht => hrs t (mem_cons_of_mem r ht))

theorem Extends.giveNames {xs : List String} {rs : List Register} (h : d.Extends e ops) (he : e.Valid)
    (hrs : ∀ r ∈ rs, d.Known r ∧ r < e.size) : d.Extends (e.giveNames xs rs) ops := by
  induction xs generalizing e rs with
  | nil => exact h
  | cons x xs ih =>
    cases rs with
    | nil => exact h
    | cons r rs =>
      obtain ⟨hr,hlt⟩ := hrs r mem_cons_self
      refine ih (h.rescope (sorted_giveName he.sorted x) fun y t hy => ?_) (he.giveName x hlt)
        fun t ht => hrs t (mem_cons_of_mem r ht)
      rcases (get?_giveName he.sorted).1 hy with ⟨-,rfl⟩ | ⟨-,hy,-⟩
      · exact hr
      · exact h.origin y t hy

section

variable {f : Frame} {value : Expr} (hcover : callees.Cover f.table) (hd : d.Valid)
variable (hapart : strict → value.apart f.table [] = true)

include hcover hd hapart

theorem advances_bind {names : List (Located String)}
    (h : Stmt.lower f (.bind span names value) d = .ok (flow, d')) :
    ∃ ops, Advances callees strict d d' flow ops := by
  simp only [Stmt.lower,bind_eq_ok,unless_eq_ok,bindNames_eq_ok,pure_eq_ok] at h
  obtain ⟨rs,e,hvalue,-,_,_,rfl,rfl,rfl⟩ := h
  obtain ⟨⟨_,hline⟩,-⟩ := Expr.straight hcover value hd hvalue
  have he := hline.valid hd
  have hrs : ∀ r ∈ rs, r < e.size := fun r hr => hline.lt_size hd hr
  refine ⟨_, .of_line (hline.extend.giveNames he fun r hr => ⟨hline.known r hr, hrs r hr⟩)
    hline.plain ?_⟩
  intro T _
  have hsteps := hline.steps strict d.size T [] [] [] (by simp)
    fun hs => ⟨by simp [NamedBy], hapart hs⟩
  refine (hsteps.trans (steps_giveNames he fun r hr => ⟨?_, hrs r hr⟩)).tail (step_drop (by simp))
  exact mem_append_left _ hr

theorem advances_run (h : Stmt.lower f (.run span value) d = .ok (flow, d')) :
    ∃ ops, Advances callees strict d d' flow ops := by
  simp only [Stmt.lower,bind_eq_ok,unless_eq_ok,pure_eq_ok] at h
  obtain ⟨_,e,hvalue,-,rfl,rfl⟩ := h
  obtain ⟨⟨_,hline⟩,-⟩ := Expr.straight hcover value hd hvalue
  refine ⟨_, .of_line hline.extend hline.plain fun T _ => ?_⟩
  have hsteps := hline.steps strict d.size T [] [] [] (by simp)
    fun hs => ⟨by simp [NamedBy], hapart hs⟩
  exact hsteps.tail (step_drop (by simp))

end

/-- What the walk sees of a sweep: every value without a name is freed. -/
theorem steps_sweep (hd : d.Valid) (f : Frame) {lost : List Register}
    (hlost : lost = d.registers.unreachable (d.scope.reachable d.registers)) :
    Steps callees strict floor (d.along T [] [])
      ((d.freeAll f (lost.map fun r => (r, d.current))).along
        (T ++ (lost.zipIdx d.count).map fun g => .free g.1 g.2) [] []) := by
  obtain ⟨hscope,-,-,-,-,hlayout,-⟩ := d.freeAll_spec f (lost.map fun r => (r, d.current))
  have hmem : ∀ g ∈ lost, (∃ r, d.registers.owns d.registers.isLive r ∧ d.registers.resolve r = g) ∧
      g ∉ d.scope.reachable d.registers := by
    intro g hg
    rw [hlost] at hg
    obtain ⟨⟨r,hlive,hheap,hr⟩,hn⟩ := (d.registers.mem_unreachable _ g).1 hg
    exact ⟨⟨r, ⟨hlive, hheap⟩, hr⟩, hn⟩
  have hroot : ∀ g ∈ lost, d.registers.resolve g = g := by
    intro g hg
    obtain ⟨⟨r,-,rfl⟩,-⟩ := hmem g hg
    exact hd.sound.wf.root_root r
  have hfrees := @steps_frees callees strict floor (d.along T [] []) (lost.zipIdx d.count)
    rfl rfl ?_ ?_
  · have howned : (d.freeAll f (lost.map fun r => (r, d.current))).registers.owns
        (d.freeAll f (lost.map fun r => (r, d.current))).registers.isLive =
        fun t => (d.along T [] []).owned t ∧ ∀ g ∈ lost.zipIdx d.count,
          d.registers.layout.root t ≠ d.registers.layout.root g.1 := by
      funext t
      refine propext
        ((d.owns_freeAll f _ t).trans (and_congr Iff.rfl ⟨fun h g hg => ?_, fun h p hp => ?_⟩))
      · exact h (g.1, d.current) (mem_map_of_mem (fst_mem_of_mem_zipIdx hg))
      · obtain ⟨r,hr,rfl⟩ := mem_map.1 hp
        obtain ⟨i,hi⟩ := mem_iff_getElem?.1 hr
        exact h (r, d.count + i) (mk_mem_zipIdx_iff_le_and_getElem?_sub.2 (by simpa using hi))
    simpa only [along,hlayout,hscope,howned] using hfrees
  · intro g hg
    have hg := fst_mem_of_mem_zipIdx hg
    obtain ⟨⟨r,hr,hrg⟩,hn⟩ := hmem g.1 hg
    refine ⟨?_, ⟨r, hr, hrg.trans (hroot g.1 hg).symm⟩, ?_⟩
    · rw [← hrg]
      exact hd.sound.wf.root_lt (hd.sound.lt_of_owned hr)
    · intro x u hx heq
      have heq : d.registers.resolve u = d.registers.resolve g.1 := heq
      rw [hroot g.1 hg] at heq
      exact hn ((hd.sorted.mem_reachable d.registers g.1).2 ⟨x, u, hx, heq⟩)
  · have hself : (lost.zipIdx d.count).map (fun g => d.registers.resolve g.1) = lost := calc
      _ = ((lost.zipIdx d.count).map Prod.fst).map d.registers.resolve := by
        rw [map_map]
        rfl
      _ = lost := by
        rw [zipIdx_map_fst]
        exact (map_congr_left hroot).trans (map_id' lost)
    have hnodup := d.registers.nodup_unreachable (d.scope.reachable d.registers)
    rw [← hlost,← hself] at hnodup
    exact hnodup

theorem advances_sweep {f : Frame} (hd : d.Valid) (h : sweep f d = .ok ((), d')) :
    ∃ ops, Advances callees strict d d' .continues ops := by
  rw [sweep_eq_ok] at h
  subst h
  generalize hlost : d.registers.unreachable (d.scope.reachable d.registers) = lost
  have hops : freeOps d.count (lost.map fun r => (r, d.current)) =
      ((lost.zipIdx d.count).map fun g => Op.free g.1 g.2).map
        (GuardedOp.mk d.current) := by
    simp only [freeOps,zipIdx_map,map_map]
    rfl
  have hext : d.Extends (d.freeAll f (lost.map fun r => (r, d.current))) _ :=
    (Extends.refl hd.sound.wf hd.sorted).freeAll f (by simp)
  rw [nil_append,hops] at hext
  refine ⟨_, .of_line hext ?_ fun T _ => steps_sweep hd f hlost.symm⟩
  intro op hop
  obtain ⟨g,-,rfl⟩ := mem_map.1 hop
  exact ⟨rfl, rfl⟩

theorem step_exit (hd : d.Valid) {op : Op} (hend : op.endsActivation = true)
    (hneeds : ∀ r ∈ op.needs, r ∈ H)
    (hgarbage : garbage = d.registers.unreachable (orderedSet (op.needs.map d.registers.resolve)))
    (hfrees : op.frees = garbage) :
    Step callees strict floor (d.along T H []) (d.registers.closed (T ++ [op])) := by
  have hmem : ∀ g, g ∈ op.frees ↔
      (∃ r, d.registers.owns d.registers.isLive r ∧ d.registers.resolve r = g) ∧
        g ∉ op.needs.map d.registers.resolve := by
    intro g
    rw [hfrees,hgarbage,d.registers.mem_unreachable,mem_orderedSet]
    simp only [Registers.owns,and_assoc]
  have hroot : ∀ g ∈ op.frees, d.registers.resolve g = g := by
    intro g hg
    obtain ⟨⟨r,-,rfl⟩,-⟩ := (hmem g).1 hg
    exact hd.sound.wf.root_root r
  refine .exit hend hneeds rfl ?_ ?_ ?_
  · intro g hg
    obtain ⟨⟨r,hr,hrg⟩,hn⟩ := (hmem g).1 hg
    refine ⟨?_, ⟨r, hr, hrg.trans (hroot g hg).symm⟩, ?_⟩
    · rw [← hrg]
      exact hd.sound.wf.root_lt (hd.sound.lt_of_owned hr)
    · intro t ht heq
      have heq : d.registers.resolve t = d.registers.resolve g := heq
      rw [hroot g hg] at heq
      exact hn (mem_map.2 ⟨t, ht, heq⟩)
  · have hself : op.frees.map d.registers.resolve = op.frees := (map_congr_left hroot).trans (map_id' _)
    show (op.frees.map d.registers.resolve).Nodup
    rw [hself,hfrees,hgarbage]
    exact d.registers.nodup_unreachable _
  · intro t ht
    by_cases hkept : d.registers.resolve t ∈ op.needs.map d.registers.resolve
    · obtain ⟨r,hr,heq⟩ := mem_map.1 hkept
      exact .inr ⟨r, hr, heq⟩
    · exact .inl ⟨d.registers.resolve t, (hmem _).2 ⟨⟨t, ht, rfl⟩, hkept⟩, hd.sound.wf.root_root t⟩

theorem advances_ret {kept : List Register} (hd : d.Valid)
    (hline : Straight callees d e rs [] apart rebound line) (hapart : strict → apart [])
    (hgarbage : garbage = e.registers.unreachable (orderedSet (rs.map e.registers.resolve))) :
    Advances callees strict d ((e.disownAll kept).emit (e.disownAll kept).current
      (.ret rs garbage)) .returns
        (line.map (GuardedOp.mk d.current) ++ [⟨d.current, .ret rs garbage⟩]) := by
  have he := hline.valid hd
  obtain ⟨hext,hd',hlayout⟩ := disownAll_spec he kept
  have hcurrent : (e.disownAll kept).current = d.current := hext.current.trans hline.extend.current
  refine ⟨?_, ?_, ?_, by simp⟩
  · have hall := (hline.extend.trans hext).trans
      (extends_emit hd' (.ret rs garbage) (.inl rfl))
    rw [hcurrent] at hall ⊢
    rwa [append_nil] at hall
  · exact (chooses_line hline.extend.count_le hline.plain).append
      (chooses_of_plain hext.count_le (by simp [Op.isBranch]))
  · intro w hw hsound v hv
    obtain ⟨u,hu,hv⟩ := Walk.mem_through_append.1 hv
    rw [Walk.through_plain line hw.goes hw.current hline.plain,mem_singleton] at hu
    subst hu
    have hnext : Walk.next ⟨w.chosen, w.trace ++ line, false⟩ ⟨d.current, .ret rs garbage⟩ = _ :=
      Walk.next_op rfl hw.current rfl
    simp only [Walk.through,hnext,flatMap_cons,flatMap_nil,append_nil,mem_singleton] at hv
    subst hv
    have hsteps := hline.steps strict d.size w.trace [] [] [] (by simp)
      fun hs => ⟨by simp [NamedBy], hapart hs⟩
    have hexit : Step callees strict d.size (e.along (w.trace ++ line) (rs ++ []) ([] ++ []))
        (e.registers.closed (w.trace ++ line ++ [.ret rs garbage])) :=
      step_exit he rfl (fun r hr => mem_append_left _ hr) hgarbage rfl
    have hclosed : (e.disownAll kept).registers.closed
        (w.trace ++ line ++ [.ret rs garbage]) =
        e.registers.closed (w.trace ++ line ++ [.ret rs garbage]) := by
      simp only [Registers.closed,hlayout]
    show Steps callees strict d.size _ ((e.disownAll kept).registers.closed _)
    rw [hclosed]
    exact hsteps.tail hexit

theorem advances_exit {f : Frame} {value : Option Expr} (hcover : callees.Cover f.table) (hd : d.Valid)
    (hapart : strict → ∀ e ∈ value, e.apart f.table [] = true)
    (h : lowerExit f span value d = .ok (flow, d')) :
    ∃ ops, Advances callees strict d d' flow ops := by
  obtain ⟨_,e,_,rfl,-,hvalues,-,-,hgarbage,rfl⟩ := lowerExit_eq_ok h
  cases value with
  | none =>
    obtain ⟨rfl,rfl⟩ := (pure_eq_ok _ _).1 hvalues
    exact ⟨_, advances_ret hd (.nil hd) (fun _ => trivial) hgarbage⟩
  | some value =>
    obtain ⟨⟨_,hline⟩,-⟩ := Expr.straight hcover value hd hvalues
    exact ⟨_, advances_ret hd hline (fun hs => hapart hs value rfl) hgarbage⟩

end Draft

end Polled
