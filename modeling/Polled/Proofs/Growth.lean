import Polled.Proofs.Standing

/-!
How a draft grows.

Lowering never regroups the registers that were there before, so a path that does not come by is hardly
concerned (`Passage.Step.elsewhere`).
-/

namespace Polled

open List

variable {l m : Layout} {r : Register} {d' : Draft}

theorem Layout.Grows.refl (hwf : l.WellFormed) : l.Grows l where
  size_le := le_rfl
  root_old _ _ := rfl
  kind_old _ _ := rfl
  root_fresh r hr := by rwa [hwf.root_new r hr]

theorem Layout.Grows.trans {n : Layout} (h : l.Grows m) (h' : m.Grows n) : l.Grows n where
  size_le := h.size_le.trans h'.size_le
  root_old r hr := by rw [h'.root_old r (hr.trans_le h.size_le),h.root_old r hr]
  kind_old r hr := by rw [h'.kind_old r (hr.trans_le h.size_le),h.kind_old r hr]
  root_fresh r hr := by
    rcases lt_or_ge r m.size with hlt | hge
    · rw [h'.root_old r hlt]
      exact h.root_fresh r hr
    · exact h.size_le.trans (h'.root_fresh r hge)

theorem Layout.Grows.resolve {R S : Registers} (h : R.layout.Grows S.layout) (hr : r < R.size) :
    S.resolve r = R.resolve r :=
  h.root_old r hr

theorem Layout.Grows.resolve_eq {R S : Registers} {t : Register} (h : R.layout.Grows S.layout)
    (hr : r < R.size) (ht : t < R.size) : S.resolve r = S.resolve t ↔ R.resolve r = R.resolve t := by
  rw [h.resolve hr,h.resolve ht]

theorem Layout.Grows.root_eq (h : l.Grows m) (hwf : l.WellFormed) {t : Register} (hr : r < l.size)
    (heq : m.root t = m.root r) : t < l.size ∧ l.root t = l.root r := by
  rw [h.root_old r hr] at heq
  have ht : t < l.size := by
    by_contra hge
    have hroot := h.root_fresh t (Nat.le_of_not_lt hge)
    rw [heq] at hroot
    exact absurd (hwf.root_lt hr) (not_lt.2 hroot)
  exact ⟨ht, (h.root_old t ht).symm.trans heq⟩

theorem Layout.Grows.reserve (hwf : l.WellFormed) (k : Kind) : l.Grows (l.reserve k) where
  size_le := Nat.le_succ _
  root_old _ _ := rfl
  kind_old r hr := by
    show Function.update l.kind l.size k r = l.kind r
    exact Function.update_of_ne hr.ne k l.kind
  root_fresh r hr := by
    show l.size ≤ l.root r
    rwa [hwf.root_new r hr]

namespace Draft

def Named (d : Draft) (r : Register) : Prop :=
  ∃ x t, d.scope.get? x = some t ∧ d.registers.resolve t = d.registers.resolve r

/-- A register that a later scope may hold: a new one, or one that has a name already. -/
def Known (d : Draft) (r : Register) : Prop := d.registers.size ≤ r ∨ d.Named r

structure Extends (d d' : Draft) (ops : List GuardedOp) : Prop where
  ops_eq : d'.ops = d.ops ++ ops
  under : ∀ g ∈ ops, g.condition = d.current ∨ d.control.conditionCount ≤ g.condition
  current : d'.current = d.current
  count_le : d.control.conditionCount ≤ d'.control.conditionCount
  loops_le : d.loopCount ≤ d'.loopCount
  closures : d.closures <+: d'.closures
  wf : d'.registers.layout.WellFormed
  grows : d.registers.layout.Grows d'.registers.layout
  live_mono : ∀ r, r < d.registers.size → d'.registers.isLive r = true → d.registers.isLive r = true
  live_group : ∀ r t, r < d.registers.size → t < d.registers.size →
    d.registers.resolve r = d.registers.resolve t → d'.registers.isLive r = true →
    d.registers.isLive t = true → d'.registers.isLive t = true
  sorted : d'.scope.Sorted
  origin : ∀ x r, d'.scope.get? x = some r → d.Known r

namespace Extends

variable {d e : Draft} {ops ops' : List GuardedOp}

theorem refl (hwf : d.registers.layout.WellFormed) (hsorted : d.scope.Sorted) : d.Extends d [] where
  ops_eq := (append_nil _).symm
  under := by simp
  current := rfl
  count_le := le_rfl
  loops_le := le_rfl
  closures := prefix_rfl
  wf := hwf
  grows := .refl hwf
  live_mono _ _ h := h
  live_group _ _ _ _ _ _ h := h
  sorted := hsorted
  origin x r hx := .inr ⟨x, r, hx, rfl⟩

section

variable (h : d.Extends e ops)

include h

theorem known (hr : e.Known r) : d.Known r := by
  rcases hr with hr | ⟨x,t,hx,htr⟩
  · exact .inl (h.grows.size_le.trans hr)
  · rcases lt_or_ge t d.size with ht | ht
    · rcases h.origin x t hx with hge | ⟨y,u,hy,hut⟩
      · exact absurd ht (not_lt.2 hge)
      · rcases lt_or_ge r d.size with hlt | hge
        · exact .inr ⟨y, u, hy, hut.trans ((h.grows.resolve_eq ht hlt).1 htr)⟩
        · exact .inl hge
    · have hroot : d.size ≤ e.registers.resolve t := h.grows.root_fresh t ht
      rw [htr] at hroot
      exact .inl (hroot.trans (h.wf.root_le r))

theorem trans (h' : e.Extends d' ops') : d.Extends d' (ops ++ ops') where
  ops_eq := by rw [h'.ops_eq,h.ops_eq,append_assoc]
  under g hg := by
    rcases mem_append.1 hg with hg | hg
    · exact h.under g hg
    · rcases h'.under g hg with hc | hc
      · exact .inl (hc.trans h.current)
      · exact .inr (h.count_le.trans hc)
  current := h'.current.trans h.current
  count_le := h.count_le.trans h'.count_le
  loops_le := h.loops_le.trans h'.loops_le
  closures := h.closures.trans h'.closures
  wf := h'.wf
  grows := h.grows.trans h'.grows
  live_mono r hr hlive :=
    h.live_mono r hr (h'.live_mono r (hr.trans_le h.grows.size_le) hlive)
  live_group r t hr ht hrt hlive hlive' := by
    have hre : r < e.size := hr.trans_le h.grows.size_le
    have hte : t < e.size := ht.trans_le h.grows.size_le
    have hmid := h.live_group r t hr ht hrt (h'.live_mono r hre hlive) hlive'
    exact h'.live_group r t hre hte ((h.grows.resolve_eq hr ht).2 hrt) hlive hmid
  sorted := h'.sorted
  origin x r hx := h.known (h'.origin x r hx)

theorem current_lt (hcurrent : d.current < d.count) : e.current < e.count := by
  rw [h.current]
  exact hcurrent.trans_le h.count_le

theorem rescope {scope : Scope} (hsorted : scope.Sorted)
    (horigin : ∀ x r, scope.get? x = some r → d.Known r) : d.Extends { e with scope } ops :=
  { h with sorted := hsorted, origin := horigin }

end

end Extends

section

variable {d : Draft} {r : Register}

theorem Extends.of_registers_scope (hwf : d.registers.layout.WellFormed) (hsorted : d.scope.Sorted)
    (hregs : d'.registers = d.registers) (hscope : d'.scope = d.scope) (hops : d'.ops = d.ops)
    (hcurrent : d'.current = d.current) (hcount : d.count ≤ d'.count)
    (hloops : d.loopCount ≤ d'.loopCount) (hclosures : d.closures <+: d'.closures) :
    d.Extends d' [] where
  ops_eq := by simp [hops]
  under := by simp
  current := hcurrent
  count_le := hcount
  loops_le := hloops
  closures := hclosures
  wf := by rwa [hregs]
  grows := by rw [hregs]; exact .refl hwf
  live_mono r _ h := by rwa [hregs] at h
  live_group _ _ _ _ _ _ h := by rwa [hregs]
  sorted := by rwa [hscope]
  origin x r hx := .inr ⟨x, r, by rwa [hscope] at hx, rfl⟩

theorem extends_tick (hd : d.Valid) : d.Extends d.tick [] :=
  .of_registers_scope hd.sound.wf hd.sorted rfl rfl rfl rfl (Nat.le_succ _) le_rfl prefix_rfl

theorem Extends.emit {e : Draft} {ops : List GuardedOp} (h : d.Extends e ops) {c : Condition} (op : Op)
    (hc : c = d.current ∨ d.count ≤ c) : d.Extends (e.emit c op) (ops ++ [⟨c, op⟩]) :=
  { h with
    ops_eq := by
      show e.ops ++ _ = _
      rw [h.ops_eq,append_assoc]
    under := fun g hg => by
      rcases mem_append.1 hg with hg | hg
      · exact h.under g hg
      · rwa [mem_singleton.1 hg] }

theorem extends_emit (hd : d.Valid) {c : Condition} (op : Op)
    (hc : c = d.current ∨ d.count ≤ c) : d.Extends (d.emit c op) [⟨c, op⟩] :=
  (Extends.refl hd.sound.wf hd.sorted).emit op hc

theorem extends_reserve (hd : d.Valid) (k : Kind) : d.Extends (d.reserve k) [] where
  ops_eq := (append_nil _).symm
  under := by simp
  current := rfl
  count_le := le_rfl
  loops_le := le_rfl
  closures := prefix_rfl
  wf := by
    rw [show (d.reserve k).registers.layout = _ from d.registers.layout_alloc k]
    exact hd.sound.wf.reserve k
  grows := by
    rw [show (d.reserve k).registers.layout = _ from d.registers.layout_alloc k]
    exact .reserve hd.sound.wf k
  live_mono r hr hlive := by
    rwa [show (d.reserve k).registers.isLive r = _ from d.registers.isLive_alloc k r,
      if_neg hr.ne] at hlive
  live_group r t hr ht _ _ hlive := by
    rwa [show (d.reserve k).registers.isLive t = _ from d.registers.isLive_alloc k t,
      if_neg ht.ne]
  sorted := hd.sorted
  origin x r hx := .inr ⟨x, r, hx, rfl⟩

theorem extends_release (hd : d.Valid) (hregs : d'.registers = d.registers.release r)
    (hsorted : d'.scope.Sorted) (hscope : ∀ x t, d'.scope.get? x = some t → d.scope.get? x = some t)
    (hops : d'.ops = d.ops) (hcurrent : d'.current = d.current) (hcontrol : d'.control = d.control)
    (hloops : d'.loopCount = d.loopCount) (hclosures : d'.closures = d.closures) : d.Extends d' [] where
  ops_eq := by simp [hops]
  under := by simp
  current := hcurrent
  count_le := by rw [hcontrol]
  loops_le := hloops.symm.le
  closures := hclosures ▸ prefix_rfl
  wf := by rw [hregs,Registers.layout_release]; exact hd.sound.wf
  grows := by rw [hregs,Registers.layout_release]; exact .refl hd.sound.wf
  live_mono t _ h := by
    rw [hregs] at h
    exact ((d.registers.isLive_release r t).1 h).1
  live_group t u _ _ htu hlive hlive' := by
    rw [hregs] at hlive ⊢
    have h := (d.registers.isLive_release r t).1 hlive
    exact (d.registers.isLive_release r u).2 ⟨hlive', htu ▸ h.2⟩
  sorted := hsorted
  origin x t hx := .inr ⟨x, t, hscope x t hx, rfl⟩

theorem extends_handOver (hd : d.Valid) : d.Extends (d.handOver r) [] :=
  extends_release hd rfl (hd.sorted.forget _ r)
    (fun x t hx => ((hd.sorted.get?_forget _ r x t).1 hx).1) rfl rfl rfl rfl rfl

theorem extends_disown (hd : d.Valid) : d.Extends (d.disown r) [] :=
  extends_release hd rfl hd.sorted (fun _ _ hx => hx) rfl rfl rfl rfl rfl

theorem exists_disownAll (d : Draft) (rs : List Register) :
    ∃ registers, d.disownAll rs = { d with registers } ∧ registers.layout = d.registers.layout := by
  induction rs generalizing d with
  | nil => exact ⟨_, rfl, rfl⟩
  | cons r rs ih =>
    obtain ⟨registers,heq,hlayout⟩ := ih (d.disown r)
    exact ⟨registers, heq, hlayout.trans (d.registers.layout_release r)⟩

theorem exists_giveNames (d : Draft) (xs : List String) (rs : List Register) :
    ∃ scope, d.giveNames xs rs = { d with scope } := by
  induction xs generalizing d rs with
  | nil => exact ⟨_, rfl⟩
  | cons x xs ih =>
    cases rs with
    | nil => exact ⟨_, rfl⟩
    | cons r rs => exact ih (d.giveName x r) rs

theorem disownAll_spec (hd : d.Valid) (rs : List Register) :
    d.Extends (d.disownAll rs) [] ∧ (d.disownAll rs).Valid ∧
      (d.disownAll rs).registers.layout = d.registers.layout := by
  induction rs generalizing d with
  | nil => exact ⟨.refl hd.sound.wf hd.sorted, hd, rfl⟩
  | cons r rs ih =>
    obtain ⟨hext,hvalid,hlayout⟩ := ih (hd.disown (r := r))
    exact ⟨(extends_disown hd).trans hext, hvalid, hlayout.trans (d.registers.layout_release r)⟩

section

variable (d : Draft) (f : Frame) (rs : List (Register × Condition))

theorem freeAll_spec : (d.freeAll f rs).scope = d.scope ∧ (d.freeAll f rs).current = d.current ∧
      (d.freeAll f rs).closures = d.closures ∧ (d.freeAll f rs).loopCount = d.loopCount ∧
      (d.freeAll f rs).ops = d.ops ++ freeOps d.count rs ∧
      (d.freeAll f rs).registers.layout = d.registers.layout ∧
      d.count ≤ (d.freeAll f rs).count := by
  induction rs generalizing d with
  | nil => simp [freeAll,freeOps]
  | cons p rs ih =>
    obtain ⟨r,c⟩ := p
    obtain ⟨h1,h2,h3,h4,h5,h6,h7⟩ := ih (d.free f c r)
    refine ⟨h1, h2, h3, h4, ?_, h6.trans (d.registers.layout_release r), (Nat.le_succ _).trans h7⟩
    rw [freeAll,h5]
    simp [free,disown,emit,logged,tick,Control.condition,freeOps]

theorem isLive_freeAll (t : Register) : (d.freeAll f rs).registers.isLive t = true ↔
      d.registers.isLive t = true ∧
        ∀ p ∈ rs, d.registers.resolve t ≠ d.registers.resolve p.1 := by
  induction rs generalizing d with
  | nil => simp [freeAll]
  | cons p rs ih =>
    obtain ⟨r,c⟩ := p
    have hrelease := d.registers.isLive_release r t
    rw [freeAll,ih]
    simp only [free,disown,emit,logged,tick,hrelease,Registers.resolve_release,forall_mem_cons,and_assoc]

theorem owns_freeAll (t : Register) :
    (d.freeAll f rs).registers.owns (d.freeAll f rs).registers.isLive t ↔
      d.registers.owns d.registers.isLive t ∧
        ∀ p ∈ rs, d.registers.resolve t ≠ d.registers.resolve p.1 := by
  obtain ⟨-,-,-,-,-,hlayout,-⟩ := d.freeAll_spec f rs
  have hkind : (d.freeAll f rs).registers.kind t = d.registers.kind t := by
    have h := congrArg (fun l => l.kind t) hlayout
    exact h
  simp only [Registers.owns,hkind,isLive_freeAll]
  tauto

end

theorem Extends.freeAll {e : Draft} {ops : List GuardedOp} (h : d.Extends e ops) (f : Frame)
    {rs : List (Register × Condition)} (hrs : ∀ p ∈ rs, p.2 = d.current ∨ d.count ≤ p.2) :
    d.Extends (e.freeAll f rs) (ops ++ freeOps e.count rs) := by
  obtain ⟨hscope,hcurrent,hclosures,hloops,hops,hlayout,hcount⟩ := e.freeAll_spec f rs
  have hunder : ∀ g ∈ freeOps e.count rs,
      g.condition = d.current ∨ d.count ≤ g.condition := by
    intro g hg
    obtain ⟨⟨p,k⟩,hp,rfl⟩ := mem_map.1 hg
    exact hrs p (fst_mem_of_mem_zipIdx hp)
  exact
    { ops_eq := by rw [hops,h.ops_eq,append_assoc]
      under := fun g hg => by
        rcases mem_append.1 hg with hg | hg
        · exact h.under g hg
        · exact hunder g hg
      current := hcurrent.trans h.current
      count_le := h.count_le.trans hcount
      loops_le := by rw [hloops]; exact h.loops_le
      closures := by rw [hclosures]; exact h.closures
      wf := by rw [hlayout]; exact h.wf
      grows := by rw [hlayout]; exact h.grows
      live_mono := fun r hr hlive => h.live_mono r hr ((e.isLive_freeAll f rs r).1 hlive).1
      live_group := fun r t hr ht hrt hlive hlive' => by
        obtain ⟨hr',hout⟩ := (e.isLive_freeAll f rs r).1 hlive
        refine (e.isLive_freeAll f rs t).2 ⟨h.live_group r t hr ht hrt hr' hlive', fun p hp => ?_⟩
        rw [h.grows.resolve ht,← hrt,← h.grows.resolve hr]
        exact hout p hp
      sorted := by rw [hscope]; exact h.sorted
      origin := by rw [hscope]; exact h.origin }

end

end Draft

end Polled
