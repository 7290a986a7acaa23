import Polled.Proofs.ClosureNames

/-!
Loops along all paths.

One arm gives the captured values to the closure and the other renames them. Both end with the same
names, and own the same.
-/

namespace Polled

open Lower Passage List

variable {e : Draft} {rs : List Register}

namespace Draft

/-- A captured value is renamed, and its name goes with it. -/
def hop (d : Draft) (skip : Condition) (c : Capture) (source dest : Register) : Draft :=
  ((d.emit skip (.rename source dest)).disown source).giveName c.name dest

/-- The arm that skips a loop, as a change of the draft. -/
def pass (d : Draft) (skip : Condition) : List (Capture × Register × Register) → Draft
  | [] => d
  | (c, source, dest) :: ts => (d.hop skip c source dest).pass skip ts

/-- Captured values that wait to go over to the results of a loop. -/
structure Hops (d : Draft) (ts : List (Capture × Register × Register)) : Prop where
  valid : d.Valid
  names : (ts.map (·.1.name)).Nodup
  dests : (ts.map (·.2.2)).Nodup
  sources : ∀ t ∈ ts, d.scope.get? t.1.name = some t.2.1
  kind : ∀ t ∈ ts, d.registers.kind t.2.1 = t.1.kind
  lt_size : ∀ t ∈ ts, t.2.2 < d.registers.size
  live : ∀ t ∈ ts, d.registers.isLive t.2.2 = true
  root : ∀ t ∈ ts, d.registers.resolve t.2.2 = t.2.2
  unnamed : ∀ t ∈ ts, ¬d.Named t.2.2

variable {callees : Callees} {strict : Prop} {floor : Nat} {d d' : Draft} {skip : Condition}
variable {c : Capture} {source dest : Register} {ts : List (Capture × Register × Register)}
variable {T : List Op} {H P : List Register}

theorem skipLoop_eq_ok (a : Unit) : skipLoop skip ts d = .ok (a, d') ↔ d' = d.pass skip ts := by
  induction ts generalizing d with
  | nil => exact (pure_eq_ok _ _).trans (by simp [pass])
  | cons t ts ih =>
    obtain ⟨c,_,_⟩ := t
    simp only [skipLoop,bind_eq_ok,pushUnder_eq_ok,release_eq_ok,bindName_eq_ok,pass,hop]
    constructor
    · rintro ⟨_,_,rfl,_,_,rfl,_,_,rfl,h⟩
      exact ih.1 h
    · exact fun h => ⟨(), _, rfl, (), _, rfl, (), _, rfl, ih.2 h⟩

theorem still_pass (d : Draft) (skip : Condition) (ts : List (Capture × Register × Register)) :
    d.Still (d.pass skip ts) := by
  induction ts generalizing d with
  | nil => exact ⟨rfl, rfl⟩
  | cons t ts ih => exact ih (d.hop skip t.1 t.2.1 t.2.2)

theorem Hops.of_eq (h : Hops d ts) (hregisters : e.registers = d.registers)
    (hscope : e.scope = d.scope) : Hops e ts := by
  obtain ⟨_,_,_,_,_,_,_,_⟩ := e
  cases hregisters
  cases hscope
  exact ⟨⟨h.valid.sound, h.valid.sorted⟩, h.names, h.dests, h.sources, h.kind, h.lt_size, h.live,
    h.root, h.unnamed⟩

theorem Hops.apart (h : Hops d ts) {t t' : Capture × Register × Register} (ht : t ∈ ts) (ht' : t' ∈ ts) :
    d.registers.resolve t.2.2 ≠ d.registers.resolve t'.2.1 :=
  fun heq => h.unnamed t ht ⟨t'.1.name, t'.2.1, h.sources t' ht', heq.symm⟩

section

variable (h : Hops d ((c, source, dest) :: ts))

include h

theorem Hops.get?_hop (y : String) (t : Register) : (d.hop skip c source dest).scope.get? y = some t ↔
      y = c.name ∧ t = dest ∨ y ≠ c.name ∧ d.scope.get? y = some t := by
  have hemit : (d.emit skip (.rename source dest)).Valid := ⟨h.valid.sound, h.valid.sorted⟩
  rw [hop,get?_giveName hemit.disown.sorted]
  refine or_congr_right (and_congr_right fun _ => and_iff_left_of_imp fun hy _ heq => ?_)
  refine h.unnamed _ mem_cons_self ⟨y, t, hy, ?_⟩
  simpa [disown,emit] using heq

theorem Hops.next : Hops (d.hop skip c source dest) ts := by
  have hnames := nodup_cons.1 h.names
  have hdests := nodup_cons.1 h.dests
  have hmem : ∀ t ∈ ts, t ∈ (c, source, dest) :: ts := fun t ht => mem_cons_of_mem _ ht
  have hhead : (c, source, dest) ∈ (c, source, dest) :: ts := mem_cons_self
  have hemit : (d.emit skip (.rename source dest)).Valid := ⟨h.valid.sound, h.valid.sorted⟩
  have hsize : (d.registers.release source).size = d.registers.size := d.registers.size_release source
  refine ⟨?_, hnames.2, hdests.2, ?_, ?_, ?_, ?_, ?_, ?_⟩
  · refine Valid.giveName hemit.disown c.name ?_
    exact (h.lt_size _ hhead).trans_eq hsize.symm
  · intro t ht
    refine (h.get?_hop _ _).2
      (.inr ⟨fun heq => hnames.1 (mem_map.2 ⟨t, ht, heq⟩), h.sources t (hmem t ht)⟩)
  · intro t ht
    exact (d.registers.kind_release _ _).trans (h.kind t (hmem t ht))
  · intro t ht
    exact hsize.symm ▸ h.lt_size t (hmem t ht)
  · intro t ht
    exact (d.registers.isLive_release _ _).2 ⟨h.live t (hmem t ht), h.apart (hmem t ht) hhead⟩
  · intro t ht
    exact (d.registers.resolve_release _ _).trans (h.root t (hmem t ht))
  · rintro t ht ⟨y,u,hy,hut⟩
    have hroots : d.registers.resolve u = d.registers.resolve t.2.2 := by
      simpa [hop,giveName,disown,emit] using hut
    rcases (h.get?_hop y u).1 hy with ⟨-,hu⟩ | ⟨-,hy⟩
    · rw [hu,h.root t (hmem t ht),h.root _ hhead] at hroots
      exact hdests.1 (mem_map.2 ⟨t, ht, hroots.symm⟩)
    · exact h.unnamed t (hmem t ht) ⟨y, u, hy, hroots⟩

omit h in
theorem Valid.handOver (hd : d.Valid) {r : Register} (hr : r < d.size)
    (hheap : d.registers.layout.heap r) :
    (d.handOver r).Valid := by
  have hstep := @step_take (fun _ => none) False 0 d [] [] [] r hd.sorted hheap (fun h => h.elim)
  exact .of_along (hstep.sound (hd.along (by simp) (by simpa using hr) (by simp))) (hd.sorted.forget _ _)

theorem along_hop_of_heap (hheap : d.registers.layout.heap source) :
    ((d.handOver source).giveName c.name dest).along T H P = (d.hop skip c source dest).along T H P := by
  have hx := h.sources _ mem_cons_self
  have hscope : ((d.handOver source).giveName c.name dest).scope.get? =
      (d.hop skip c source dest).scope.get? := by
    funext y
    refine Option.ext fun t => ?_
    rw [h.get?_hop,get?_giveName (h.valid.sorted.forget _ _)]
    refine or_congr_right (and_congr_right fun hy => ?_)
    rw [show (d.handOver source).scope.get? y = some t ↔ _ from h.valid.sorted.get?_forget _ _ _ _]
    refine ⟨fun hall => hall.1.1, fun hyt => ⟨⟨hyt, fun heq => ?_⟩, fun _ heq => ?_⟩⟩
    · have heq : d.registers.resolve t = d.registers.resolve source := by simpa using heq
      exact hy (h.valid.sound.single c.name y source t hx hyt hheap heq.symm).symm
    · refine h.unnamed _ mem_cons_self ⟨y, t, hyt, ?_⟩
      simpa [handOver] using heq
  rw [along,along,hscope]
  rfl

theorem along_hop_of_not_heap (hheap : ¬d.registers.layout.heap source) :
    (d.giveName c.name dest).along T H P = (d.hop skip c source dest).along T H P := by
  have hscope : (d.giveName c.name dest).scope.get? = (d.hop skip c source dest).scope.get? := by
    funext y
    refine Option.ext fun t => ?_
    rw [h.get?_hop,get?_giveName h.valid.sorted]
    refine or_congr_right (and_congr_right fun _ => and_iff_left_of_imp fun hy _ heq => ?_)
    exact h.unnamed _ mem_cons_self ⟨y, t, hy, heq⟩
  have howned : (d.giveName c.name dest).registers.owns (d.giveName c.name dest).registers.isLive =
      (d.hop skip c source dest).registers.owns (d.hop skip c source dest).registers.isLive :=
    (owns_release_of_not_heap h.valid.sound.wf hheap).symm
  have hlayout : (d.hop skip c source dest).registers.layout = d.registers.layout :=
    d.registers.layout_release source
  rw [along,along,hscope,howned,hlayout]
  rfl

theorem Hops.steps_hop {owned : Bool} (howned : d.registers.layout.heap source → owned = true)
    (hdest : dest ∈ H) (halone : ∀ u ∈ H, d.registers.layout.heap u →
      d.registers.resolve u ≠ d.registers.resolve source) :
    Steps callees strict floor (d.along T H P)
      ((d.hop skip c source dest).along T (d.registers.lent [(source, owned)] ++ H)
        (d.registers.given [(source, owned)] ++ P)) := by
  have hx := h.sources _ mem_cons_self
  have hlt : source < d.size := h.valid.sound.lt_of_scope hx
  refine .head (step_pick hx) ?_
  by_cases hheap : d.registers.layout.heap source
  · have hk : (d.registers.kind source).ownsHeap = true := hheap
    simp only [Registers.lent,Registers.given,filter_cons,howned hheap,hk,filter_nil]
    rw [← along_hop_of_heap h hheap]
    refine .head (step_take h.valid.sorted hheap fun _ u hu heq => ?_)
      (steps_giveName (h.valid.handOver hlt hheap) hdest)
    exact halone u hu (Passage.heap_of_root_eq h.valid.sound heq.symm hheap) heq
  · have hk : (d.registers.kind source).ownsHeap = false := Bool.eq_false_iff.2 hheap
    simp only [Registers.lent,Registers.given,filter_cons,hk,Bool.and_false,filter_nil]
    rw [← along_hop_of_not_heap h hheap]
    exact steps_giveName h.valid (mem_cons_of_mem _ hdest)

end

theorem kind_hop (t : Register) : (d.hop skip c source dest).registers.kind t = d.registers.kind t :=
  d.registers.kind_release _ _

theorem Hops.steps_skip (h : Hops d ts) : Steps callees strict floor (d.along T (ts.map (·.2.2)) P)
      ((d.pass skip ts).along (T ++ ts.map fun t => .rename t.2.1 t.2.2) [] P) := by
  induction ts generalizing d T with
  | nil =>
    rw [map_nil,map_nil,append_nil]
    exact .refl
  | cons t ts ih =>
    obtain ⟨c,source,dest⟩ := t
    have hhop := @Hops.steps_hop callees strict floor d skip c source dest ts T
      (dest :: ts.map (·.2.2)) P h true (fun _ => rfl) mem_cons_self fun u hu _ => ?_
    · have hemit : Step callees strict floor
          ((d.hop skip c source dest).along T
            (d.registers.lent [(source, true)] ++ dest :: ts.map (·.2.2))
            (d.registers.given [(source, true)] ++ P))
          ((d.hop skip c source dest).along (T ++ [.rename source dest])
            (d.registers.lent [(source, true)] ++ dest :: ts.map (·.2.2)) P) := by
        refine step_pass rfl rfl rfl rfl (fun r hr => ?_)
          (Registers.given_congr fun p _ => kind_hop p.1) ?_
        · rw [Registers.lent_congr fun p _ => kind_hop p.1] at hr
          exact mem_append_left _ hr
        · intro r hr
          obtain rfl := mem_singleton.1 hr
          refine ⟨mem_append_right _ mem_cons_self, (d.registers.isLive_release _ _).2 ?_⟩
          exact ⟨h.live _ mem_cons_self, h.apart mem_cons_self mem_cons_self⟩
      refine (hhop.tail hemit).trans
        (.head (@step_drop _ _ _ _ _ _ _ (ts.map (·.2.2)) fun r hr => ?_) ?_)
      · exact mem_append_right _ (mem_cons_of_mem _ hr)
      · have hrest := @ih (d.hop skip c source dest) (T ++ [.rename source dest]) h.next
        rwa [append_assoc] at hrest
    · obtain ⟨t,ht,rfl⟩ := mem_map.1 (show u ∈ List.map (·.2.2) ((c, source, dest) :: ts) from hu)
      exact h.apart ht mem_cons_self

/-- What the closure of a loop is called with. -/
def entries (ts : List (Capture × Register × Register)) : List (Register × Bool) :=
  ts.map fun t => (t.2.1, !t.1.kind.borrowed)

theorem Hops.steps_enter (h : Hops d ts) (hdest : ∀ t ∈ ts, t.2.2 ∈ H)
    (halone : ∀ u ∈ H, d.registers.layout.heap u →
      ∀ t ∈ ts, d.registers.resolve u ≠ d.registers.resolve t.2.1) :
    Steps callees strict floor (d.along T H P)
      ((d.pass skip ts).along T (d.registers.lent (entries ts) ++ H)
        (d.registers.given (entries ts) ++ P)) := by
  induction ts generalizing d H P with
  | nil => exact .refl
  | cons t ts ih =>
    obtain ⟨c,source,dest⟩ := t
    have hkind : d.registers.kind source = c.kind := h.kind _ mem_cons_self
    have howned : d.registers.layout.heap source → (!c.kind.borrowed) = true := by
      intro hheap
      have hheap : (d.registers.kind source).ownsHeap = true := hheap
      rw [hkind,Kind.ownsHeap] at hheap
      simp_all
    have hhop := @Hops.steps_hop callees strict floor d skip c source dest ts T H P h _ howned
      (hdest _ mem_cons_self) fun u hu hheap => halone u hu hheap _ mem_cons_self
    have hrest := @ih (d.hop skip c source dest) (d.registers.lent [(source, !c.kind.borrowed)] ++ H)
      (d.registers.given [(source, !c.kind.borrowed)] ++ P) h.next
      (fun t ht => mem_append_right _ (hdest t (mem_cons_of_mem _ ht))) fun u hu hheap t ht => ?_
    · rw [Registers.lent_congr fun p _ => kind_hop p.1,Registers.given_congr fun p _ =>
        kind_hop p.1] at hrest
      refine (hhop.trans hrest).trans (.tail (.single (step_drop fun r hr => ?_)) (.arrange ?_))
      · show r ∈ _ ++ (_ ++ _)
        rw [show entries ((c, source, dest) :: ts) = (source, !c.kind.borrowed) :: entries ts from rfl,
          Registers.lent_cons] at hr
        simp only [mem_append] at hr ⊢
        tauto
      · show (d.registers.given ((source, !c.kind.borrowed) :: entries ts) ++ P).Perm (_ ++ (_ ++ P))
        rw [Registers.given_cons,← append_assoc]
        exact List.Perm.append_right P perm_append_comm
    · have hheap : d.registers.layout.heap u := by
        simpa [Layout.heap,Registers.layout,kind_hop] using hheap
      have hroots : d.registers.resolve u ≠ d.registers.resolve t.2.1 := by
        rcases mem_append.1 hu with hu | hu
        · obtain ⟨p,hp,rfl⟩ := mem_map.1 hu
          obtain ⟨hp,hlent⟩ := mem_filter.1 hp
          obtain rfl := mem_singleton.1 hp
          have hk : (d.registers.kind source).ownsHeap = true := hheap
          simp [howned hheap,hk] at hlent
        · exact halone u hu hheap t (mem_cons_of_mem _ ht)
      simpa [hop,giveName,disown,emit] using hroots

theorem pass_spec (h : Hops d ts) : (d.pass skip ts).registers.layout = d.registers.layout ∧
      (d.pass skip ts).control = d.control ∧
      ∀ r, (d.pass skip ts).registers.isLive r = true ↔ d.registers.isLive r = true ∧
        ∀ t ∈ ts, d.registers.resolve r ≠ d.registers.resolve t.2.1 := by
  induction ts generalizing d with
  | nil => simp [pass]
  | cons t ts ih =>
    obtain ⟨c,source,dest⟩ := t
    have hnext : Hops (d.hop skip c source dest) ts := h.next
    obtain ⟨hlayout,hcontrol,hlive⟩ := ih hnext
    have hhop : (d.hop skip c source dest).registers.resolve = d.registers.resolve :=
      funext (d.registers.resolve_release source)
    refine ⟨hlayout.trans (d.registers.layout_release source), hcontrol, fun r => (hlive r).trans ?_⟩
    rw [show (d.hop skip c source dest).registers.isLive r = true ↔
      _ from d.registers.isLive_release source r,hhop]
    simp only [forall_mem_cons,and_assoc]

theorem Hops.steps_call (h : Hops d ts) {callee : String} {slot : ChildSlot} {done : Option Condition}
    (hcallee : callees callee = some (ts.map (·.1.kind))) :
    Steps callees strict floor (d.along T (ts.map (·.2.2)) [])
      ((d.pass skip ts).along (T ++ [.callAsync callee (ts.map (·.2.1)) (ts.map (·.2.2)) slot done]) []
        []) := by
  obtain ⟨hlayout,-,hlive⟩ := @pass_spec d skip ts h
  have hkind : ∀ p ∈ entries ts, (d.pass skip ts).registers.kind p.1 = d.registers.kind p.1 :=
    fun p _ => congrArg (fun l => l.kind p.1) hlayout
  have henter := @Hops.steps_enter callees strict floor d skip ts T (ts.map (·.2.2)) [] h
    (fun t ht => mem_map_of_mem ht) fun u hu _ t ht => ?_
  · have hentries : ((ts.map (·.2.1)).zip (ts.map (·.1.kind))).map (fun p => (p.1, !p.2.borrowed)) =
        entries ts := by
      rw [zip_map',map_map]
      rfl
    refine (henter.tail (step_call (.inr ⟨slot, done, rfl⟩) hcallee hentries (by simp) ?_ ?_ ?_)).tail
      (step_drop (by simp))
    · intro r hr
      rw [Registers.lent_congr hkind] at hr
      exact mem_append_left _ hr
    · exact Registers.given_congr hkind
    · intro r hr
      obtain ⟨t,ht,rfl⟩ := mem_map.1 hr
      refine ⟨mem_append_right _ hr, (hlive _).2 ⟨h.live t ht, fun t' ht' => h.apart ht ht'⟩⟩
  · obtain ⟨_,ht',rfl⟩ := mem_map.1 hu
    exact h.apart ht' ht

theorem Extends.pass {d₀ : Draft} {ops : List GuardedOp} (hext : d₀.Extends d ops) (h : Hops d ts)
    (hskip : d₀.count ≤ skip) (hnew : ∀ t ∈ ts, d₀.registers.size ≤ t.2.2) :
    d₀.Extends (d.pass skip ts) (ops ++ ts.map fun t => ⟨skip, .rename t.2.1 t.2.2⟩) := by
  induction ts generalizing d ops with
  | nil =>
    rw [map_nil,append_nil]
    exact hext
  | cons t ts ih =>
    obtain ⟨c,source,dest⟩ := t
    have hemit : (d.emit skip (.rename source dest)).Valid := ⟨h.valid.sound, h.valid.sorted⟩
    have hdisown := (hext.emit (.rename source dest) (.inr hskip)).trans
        (extends_disown (r := source) hemit)
    rw [append_nil] at hdisown
    have hname := @Extends.giveNames _ _ _ [c.name] [dest] hdisown hemit.disown fun r hr => ?_
    · have hrest := ih hname h.next fun t ht => hnew t (mem_cons_of_mem _ ht)
      rwa [append_assoc] at hrest
    · obtain rfl := mem_singleton.1 hr
      refine ⟨.inl (hnew _ mem_cons_self), ?_⟩
      exact (h.lt_size _ mem_cons_self).trans_eq (d.registers.size_release source).symm

section

variable {kinds : List Kind} {count : Nat} {log : List Event} {new : List Routine} {r : Register}

theorem enclose_spec (hd : d.Valid) (hcount : d.loopCount ≤ count) :
    d.Extends (d.enclose kinds count log new) [] ∧ (d.enclose kinds count log new).Valid ∧
      (d.enclose kinds count log new).scope = d.scope ∧
      (d.enclose kinds count log new).control.conditionCount = d.control.conditionCount + 2 ∧
      ∀ T, Steps callees strict floor (d.along T [] [])
        ((d.enclose kinds count log new).along T (List.range' d.size kinds.length) []) := by
  have hd₁ : ({ d with loopCount := count } : Draft).Valid := ⟨hd.sound, hd.sorted⟩
  have hcounted : d.Extends { d with loopCount := count } [] :=
    .of_registers_scope hd.sound.wf hd.sorted rfl rfl rfl rfl le_rfl hcount prefix_rfl
  have hres : Straight callees { d with loopCount := count } _ _ [] _ [] [] := .reserveAll hd₁ kinds
  have hd₂ := hres.valid hd₁
  obtain ⟨_,heq,-⟩ := Draft.exists_reserveAll { d with loopCount := count } kinds
  rw [heq] at hres hd₂
  rw [Draft.enclose,heq]
  refine ⟨(hcounted.trans hres.extend).trans (.of_registers_scope hd₂.sound.wf hd₂.sorted rfl rfl rfl rfl
    (Nat.le_add_right _ 2) le_rfl (prefix_append _ _)), ⟨hd₂.sound, hd₂.sorted⟩, rfl, rfl, fun T => ?_⟩
  have hsteps := hres.steps strict floor T [] [] [] (by simp) fun _ => ⟨by simp [NamedBy], trivial⟩
  rw [append_nil,append_nil] at hsteps
  exact hsteps

theorem enclose_results (hd : d.Valid) (hr : r ∈ List.range' d.size kinds.length) :
    r < (d.enclose kinds count log new).size ∧
      (d.enclose kinds count log new).registers.isLive r = true ∧
      (d.enclose kinds count log new).registers.resolve r = r ∧
      ¬(d.enclose kinds count log new).Named r := by
  have hge : d.size ≤ r := (mem_range'_1.1 hr).1
  have hlive := Draft.isLive_reserveAll { d with loopCount := count } kinds hr
  have hlt := (mem_range'_1.1 hr).2
  have hsize := @Draft.size_reserveAll { d with loopCount := count } kinds
  obtain ⟨registers,heq,hresolve⟩ := Draft.exists_reserveAll { d with loopCount := count } kinds
  have hroot : registers.resolve r = r := by
    rw [hresolve]
    exact d.registers.resolve_of_size_le hge
  rw [heq] at hlive hsize
  rw [Draft.enclose,heq]
  refine ⟨hsize.symm ▸ hlt, hlive, hroot, ?_⟩
  rintro ⟨x,t,hx,htr⟩
  have htr : registers.resolve t = registers.resolve r := htr
  rw [hroot,hresolve] at htr
  have hlt : d.registers.resolve t < d.size := hd.sound.wf.root_lt (hd.sound.lt_of_scope hx)
  exact absurd (htr ▸ hlt : r < d.size) (not_lt.2 hge)

end

section

variable {names : List String} {captures : List Capture} {sources results : List Register}

theorem names_captures (d : Draft) (names : List String) :
    ((d.captures names).map (·.name)).Sublist names := by
  induction names with
  | nil => exact .slnil
  | cons x xs ih =>
    cases hx : d.scope.get? x with
    | none => simpa [captures,hx] using ih.cons x
    | some r => simpa [captures,hx] using ih.cons_cons x

theorem kind_captures (d : Draft) {u : Register} (hc : c ∈ d.captures names)
    (hu : d.scope.get? c.name = some u) :
    c.kind = d.registers.kind u := by
  obtain ⟨x,-,hx⟩ := mem_filterMap.1 hc
  obtain ⟨r,hr,rfl⟩ := Option.map_eq_some_iff.1 hx
  obtain rfl : r = u := Option.some.inj (hr.symm.trans hu)
  rfl

/-- The captured values with where they come from and where they go. -/
def crossing (captures : List Capture) (sources results : List Register) :
    List (Capture × Register × Register) :=
  captures.zip (sources.zip results)

/-- Where captured values arrive. -/
abbrev arrivals (d : Draft) (captures : List Capture) : List Register :=
  List.range' d.registers.size captures.length

abbrev crossed (d : Draft) (captures : List Capture) (sources : List Register) :
    List (Capture × Register × Register) :=
  crossing captures sources (d.arrivals captures)

theorem mem_crossing {t : Capture × Register × Register} (h : t ∈ crossing captures sources results) :
    ∃ i : Nat, captures[i]? = some t.1 ∧ sources[i]? = some t.2.1 ∧ results[i]? = some t.2.2 := by
  obtain ⟨i,hi⟩ := mem_iff_getElem?.1 h
  rw [crossing,getElem?_zip_eq_some,getElem?_zip_eq_some] at hi
  exact ⟨i, hi⟩

theorem length_sources (h : captures.map (fun c => e.scope.get? c.name) = sources.map some) :
    sources.length = captures.length := by
  simpa using (congrArg List.length h).symm

theorem crossed_maps (d : Draft) (hlen : sources.length = captures.length) :
    (d.crossed captures sources).map (·.1) = captures ∧
      (d.crossed captures sources).map (·.2.1) = sources ∧
      (d.crossed captures sources).map (·.2.2) = d.arrivals captures := by
  have hsnd : (d.crossed captures sources).map (·.2) = sources.zip (d.arrivals captures) :=
    map_snd_zip (by simp [hlen])
  refine ⟨map_fst_zip (by simp [hlen]), ?_, ?_⟩
  · have hfst := congrArg (List.map (·.1)) hsnd
    rwa [map_map,map_fst_zip (by simp [hlen])] at hfst
  · have hfst := congrArg (List.map (·.2)) hsnd
    rwa [map_map,map_snd_zip (by simp [hlen])] at hfst

theorem hops_of_line {t : Register} {count : Nat} {log : List Event} {new : List Routine}
    {apart : List String → Prop} {rebound : List String} {line : List Op} (hd : d.Valid)
    (hnames : names.Nodup) (hcount : d.loopCount ≤ count) (hcaptures : captures = d.captures names)
    (hline : Straight callees (d.enclose (captures.map (·.kind)) count log new) e [t] []
      apart rebound line)
    (hsources : captures.map (fun c => e.scope.get? c.name) = sources.map some) :
    Hops e (d.crossed captures sources) := by
  obtain ⟨hext,hvalid,hscope,-,-⟩ := @enclose_spec (fun _ => none) False 0 d (captures.map (·.kind))
    count log new hd hcount
  obtain ⟨hfst,-,hdest⟩ := d.crossed_maps (length_sources hsources)
  have hresults : ∀ t ∈ d.crossed captures sources,
      t.2.2 ∈ List.range' d.size (captures.map (·.kind)).length := by
    intro t ht
    obtain ⟨i,-,-,hi⟩ := mem_crossing ht
    rw [length_map]
    exact mem_of_getElem? hi
  have hsource : ∀ t ∈ d.crossed captures sources,
      e.scope.get? t.1.name = some t.2.1 := by
    intro t ht
    obtain ⟨i,hc,hi,-⟩ := mem_crossing ht
    have heq := congrArg (·[i]?) hsources
    simpa [hc,hi] using heq
  refine ⟨hline.valid hvalid, ?_, ?_, hsource, ?_, ?_, ?_, ?_, ?_⟩
  · have hmap : (d.crossed captures sources).map (·.1.name) =
        captures.map (·.name) := by
      have hmap := congrArg (List.map Capture.name) hfst
      rwa [map_map] at hmap
    rw [hmap,hcaptures]
    exact hnames.sublist (d.names_captures names)
  · rw [hdest]
    exact nodup_range'
  · intro t ht
    obtain ⟨i,hc,-,-⟩ := mem_crossing ht
    obtain ⟨u,hu,hkind,-⟩ := hline.quiet.keeps _ _ (hsource t ht)
    rw [hscope] at hu
    rw [hkind,d.kind_captures (hcaptures ▸ mem_of_getElem? hc) hu]
    exact hext.grows.kind_old u (hd.sound.lt_of_scope hu)
  · intro t ht
    obtain ⟨hlt,-⟩ := enclose_results hd (hresults t ht)
    exact hlt.trans_le hline.extend.grows.size_le
  · intro t ht
    obtain ⟨hlt,hlive,-,hnamed⟩ := enclose_results hd (hresults t ht)
    exact hline.quiet.live _ hlt hnamed hlive
  · intro t ht
    obtain ⟨hlt,-,hroot,-⟩ := enclose_results hd (hresults t ht)
    exact (hline.extend.grows.root_old _ hlt).trans hroot
  · intro t ht
    obtain ⟨hlt,-,-,hnamed⟩ := enclose_results hd (hresults t ht)
    exact hline.quiet.not_named hline.extend hvalid hlt hnamed

/-- The draft behind a loop: the branch, the call of the closure, and the way around it. -/
def around (d e : Draft) (t : Register) (control : Control) (callee : String) (slot : ChildSlot)
    (done : Option Condition) (captures : List Capture) (sources : List Register) : Draft :=
  ({ e.emit e.current (.branch t d.control.conditionCount (d.control.conditionCount + 1)) with
    control }.emit
    d.control.conditionCount (.callAsync callee sources (List.range' d.registers.size captures.length)
      slot done)).pass
    (d.control.conditionCount + 1)
      (crossing captures sources (List.range' d.registers.size captures.length))

section

variable {e : Draft} {t : Register} {count : Nat} {log : List Event} {new : List Routine}
  {apart : List String → Prop}
variable {rebound : List String} {line : List Op} {control : Control} {callee : String}
  {slot : ChildSlot}
variable {done : Option Condition} {a b : Condition}

theorem Hops.called (h : Hops e (d.crossed captures sources)) :
    Hops ({ e.emit e.current (.branch t d.count (d.count + 1)) with control }.emit d.count
      (.callAsync callee sources (d.arrivals captures) slot done)) (d.crossed captures sources) :=
  h.of_eq rfl rfl

theorem around_spec (hhops : Hops e (d.crossed captures sources)) :
    (d.around e t control callee slot done captures sources).registers.layout = e.registers.layout ∧
      (d.around e t control callee slot done captures sources).control = control :=
  ⟨(pass_spec hhops.called).1, (pass_spec hhops.called).2.1⟩

theorem closures_around {f : Frame} {cond : Expr} {kinds : List Kind}
    (h : cond.lower f (d.enclose kinds count log new) = .ok ([t], e)) :
    (d.around e t control callee slot done captures sources).closures = d.closures ++ new := by
  have hpass : e.Still (d.around e t control callee slot done captures sources) := still_pass _ _ _
  exact ((cond.still h).trans hpass).1.trans (d.closures_enclose kinds count log new)

theorem steps_ahead (hd : d.Valid) (hcount : d.loopCount ≤ count)
    (hline : Straight callees (d.enclose (captures.map (·.kind)) count log new) e [t] []
      apart rebound line)
    (hapart : strict → apart []) :
    Steps callees strict floor (d.along T [] [])
      (e.along (T ++ line ++ [.branch t a b]) (d.arrivals captures) []) := by
  obtain ⟨-,-,-,-,hsteps⟩ := @enclose_spec callees strict floor d (captures.map (·.kind)) count
    log new hd hcount
  have hsteps := hsteps T
  rw [length_map] at hsteps
  refine hsteps.trans
    (hline.steps_branch (fun r hr => ?_) fun hs => ⟨fun r hr _ x u hx hur => ?_, hapart hs⟩)
  · exact (enclose_results hd (by rwa [length_map])).1
  · exact absurd ⟨x, u, hx, hur⟩ (enclose_results hd (by rwa [length_map])).2.2.2

theorem steps_around (hhops : Hops e (d.crossed captures sources))
    (hlen : sources.length = captures.length) (hcallee : callees callee = some (captures.map (·.kind))) :
    Steps callees strict floor (e.along T (d.arrivals captures) [])
        ((d.around e t control callee slot done captures sources).along
          (T ++ [.callAsync callee sources (d.arrivals captures) slot done]) [] []) ∧
      Steps callees strict floor (e.along T (d.arrivals captures) [])
        ((d.around e t control callee slot done captures sources).along
          (T ++ (d.crossed captures sources).map fun t =>
            .rename t.2.1 t.2.2) [] []) := by
  obtain ⟨hfst,hsnd,hdest⟩ := d.crossed_maps hlen
  have hkinds : (d.crossed captures sources).map (·.1.kind) =
      captures.map (·.kind) := by
    have hkinds := congrArg (List.map Capture.kind) hfst
    rwa [map_map] at hkinds
  have hhops' := @Hops.called _ _ _ _ t control callee slot done hhops
  have hcall := @Hops.steps_call callees strict floor _ (d.count + 1) _ T hhops' callee slot done
    (hkinds ▸ hcallee)
  have hskip := @Hops.steps_skip callees strict floor _ (d.count + 1) _ T [] hhops'
  rw [hdest] at hcall hskip
  rw [hsnd] at hcall
  exact ⟨hcall, hskip⟩

/-- The operations of a loop where it stands. -/
def aroundOps (d : Draft) (t : Register) (callee : String) (slot : ChildSlot) (done : Option Condition)
    (captures : List Capture) (sources : List Register) (line : List Op) : List GuardedOp :=
  line.map (GuardedOp.mk d.current) ++
    ([⟨d.current, .branch t d.control.conditionCount (d.control.conditionCount + 1)⟩] ++
      ([.callAsync callee sources (List.range' d.registers.size captures.length) slot done].map
          (GuardedOp.mk d.control.conditionCount) ++
        ((crossing captures sources (List.range' d.registers.size captures.length)).map fun t =>
          Op.rename t.2.1 t.2.2).map (GuardedOp.mk (d.control.conditionCount + 1))))

theorem extends_around (hd : d.Valid) (hcount : d.loopCount ≤ count)
    (hline : Straight callees (d.enclose (captures.map (·.kind)) count log new) e [t] []
      apart rebound line)
    (hhops : Hops e (d.crossed captures sources))
    (hcontrol : e.count ≤ control.conditionCount) :
    d.Extends (d.around e t control callee slot done captures sources)
      (d.aroundOps t callee slot done captures sources line) := by
  obtain ⟨hext,-⟩ := @enclose_spec (fun _ => none) False 0 d (captures.map (·.kind)) count
    log new hd hcount
  have hcurrent : e.current = d.current := hline.extend.current.trans hext.current
  have hbranch := (hext.trans hline.extend).emit (.branch t d.count (d.count + 1))
    (.inl hcurrent)
  have hcounted : (e.emit e.current (.branch t d.count (d.count + 1))).Extends
      { e.emit e.current (.branch t d.count (d.count + 1)) with control } [] :=
    .of_registers_scope hhops.valid.sound.wf hhops.valid.sorted rfl rfl rfl rfl hcontrol
      le_rfl prefix_rfl
  have hcall := (hbranch.trans hcounted).emit
    (.callAsync callee sources (d.arrivals captures) slot done) (.inr le_rfl)
  have hall := @Extends.pass _ _ (d.crossed captures sources) d _ hcall
    (hhops.of_eq rfl rfl) (Nat.le_succ _) fun t ht => ?_
  · have hmap : ((d.crossed captures sources).map fun t =>
        Op.rename t.2.1 t.2.2).map (GuardedOp.mk (d.count + 1)) =
        (d.crossed captures sources).map fun t =>
          ⟨d.count + 1, .rename t.2.1 t.2.2⟩ := map_map
    rw [hcurrent,hext.current] at hall
    rw [aroundOps,hmap,around,hcurrent]
    simpa using hall
  · obtain ⟨i,-,-,hi⟩ := mem_crossing ht
    exact (mem_range'_1.1 (mem_of_getElem? hi)).1

theorem plain_renames (crossed : List (Capture × Register × Register)) :
    ∀ op ∈ crossed.map fun t => Op.rename t.2.1 t.2.2, op.Inline := by
  intro op hop
  obtain ⟨t,-,rfl⟩ := mem_map.1 hop
  exact ⟨rfl, rfl⟩

theorem mem_through_around {w v : Walk} (hw : w.Active d)
    (hplain : ∀ op ∈ line, op.isBranch = false ∧ op.endsActivation = false) :
    v ∈ w.through (d.aroundOps t callee slot done captures sources line) ↔
      v = ⟨d.count :: w.chosen, w.trace ++ line ++
          [.branch t d.count (d.count + 1)] ++
          [.callAsync callee sources (d.arrivals captures) slot done], false⟩ ∨
        v = ⟨(d.count + 1) :: w.chosen, w.trace ++ line ++
          [.branch t d.count (d.count + 1)] ++
          (d.crossed captures sources).map fun t =>
            .rename t.2.1 t.2.2, false⟩ := by
  exact Walk.mem_through_sides hw.goes hw.current hplain hw.bound
    (by simp [Op.Inline,Op.isBranch,Op.endsActivation]) (plain_renames _)

theorem advances_around (hd : d.Valid) (hnames : names.Nodup) (hcount : d.loopCount ≤ count)
    (hcaptures : captures = d.captures names)
    (hline : Straight callees (d.enclose (captures.map (·.kind)) count log new) e [t] []
      apart rebound line)
    (hapart : strict → apart [])
    (hsources : captures.map (fun c => e.scope.get? c.name) = sources.map some)
    (hcontrol : e.count ≤ control.conditionCount)
    (hcallee : callees callee = some (captures.map (·.kind))) :
    Advances callees strict d (d.around e t control callee slot done captures sources) .continues
      (d.aroundOps t callee slot done captures sources line) := by
  have hhops := hops_of_line hd hnames hcount hcaptures hline hsources
  have hext := @extends_around _ _ _ _ _ _ _ _ _ _ _ _ control callee slot done hd hcount hline
    hhops hcontrol
  have hcount' : d.count + 1 <
      (d.around e t control callee slot done captures sources).count := by
    obtain ⟨-,-,-,hticks,-⟩ := @enclose_spec (fun _ => none) False 0 d (captures.map (·.kind)) count
      log new hd hcount
    exact ((Nat.le_of_eq hticks.symm).trans (hline.extend.count_le.trans hcontrol)).trans_eq
      (congrArg Control.conditionCount (around_spec hhops).2).symm
  refine ⟨hext, ?_, fun w hw _ v hv => ?_,
    fun _ w hw _ => ⟨_, (mem_through_around hw hline.plain).2 (.inl rfl), rfl⟩⟩
  · exact (chooses_line le_rfl hline.plain).append (.branch
      ((chooses_line hcount' (by simp [Op.Inline,Op.isBranch,Op.endsActivation])).append
        (chooses_line le_rfl (plain_renames _))) _ _)
  have hahead := @steps_ahead callees strict d.size d w.trace _ _ _ _ _ _ _ _ _
    d.count (d.count + 1) hd hcount hline hapart
  obtain ⟨hcall,hskip⟩ := @steps_around callees strict d.size d (w.trace ++ line ++
    [.branch t d.count (d.count + 1)]) captures sources e t control callee slot done
    hhops (length_sources hsources) hcallee
  rcases (mem_through_around hw hline.plain).1 hv with rfl | rfl
  · exact ⟨rfl, hahead.trans hcall⟩
  · exact ⟨rfl, hahead.trans hskip⟩

end

end

section

variable {t : Register} {values garbage kept : List Register} {apart : List String → Prop}
variable {rebound : List String} {line : List Op}

theorem steps_picks (h : ∀ r ∈ rs, ∃ x, d.scope.get? x = some r) :
    Steps callees strict floor (d.along T H P) (d.along T (rs ++ H) P) := by
  induction rs with
  | nil => exact .refl
  | cons r rs ih =>
    obtain ⟨x,hx⟩ := h r mem_cons_self
    exact (ih fun t ht => h t (mem_cons_of_mem r ht)).tail (step_pick hx)

/-- The end of a round: the values go to the next one or to the caller. -/
def round (e : Draft) (t : Register) (values garbage kept : List Register) : Draft :=
  (((e.tick.tick.disownAll kept).emit .entry
    (.branch t e.control.conditionCount (e.control.conditionCount + 1))).emit
    e.control.conditionCount (.restartLoop values garbage)).emit (e.control.conditionCount + 1)
      (.ret values garbage)

theorem still_round (e : Draft) (t : Register) (values garbage kept : List Register) :
    e.Still (e.round t values garbage kept) := by
  obtain ⟨_,heq,-⟩ := e.tick.tick.exists_disownAll kept
  rw [round,heq]
  exact ⟨rfl, rfl⟩

theorem advances_round (hd : d.Valid) (hline : Straight callees d e [t] [] apart rebound line)
    (hapart : strict → apart []) (hcurrent : d.current = .entry)
    (hvalues : ∀ r ∈ values, ∃ x, e.scope.get? x = some r)
    (hgarbage : garbage = e.registers.unreachable (orderedSet (values.map e.registers.resolve))) :
    Advances callees strict d (e.round t values garbage kept) .returns
      (line.map (GuardedOp.mk d.current) ++
        ([⟨d.current, .branch t e.count (e.count + 1)⟩] ++
          [⟨e.count, .restartLoop values garbage⟩,
            ⟨e.count + 1, .ret values garbage⟩])) := by
  have he := hline.valid hd
  have hticks : e.tick.tick.Valid := ⟨he.sound, he.sorted⟩
  obtain ⟨hext,-,hlayout⟩ := disownAll_spec hticks kept
  have hall : d.Extends (e.tick.tick.disownAll kept) (line.map (GuardedOp.mk d.current)) := by
    simpa using (hline.extend.trans ((extends_tick he).trans (extends_tick ⟨he.sound, he.sorted⟩))).trans
      hext
  have hle := hline.extend.count_le
  refine ⟨?_, ?_, ?_, by simp⟩
  · have hemit := ((hall.emit (.branch t e.count (e.count + 1))
      (.inl hcurrent.symm)).emit (.restartLoop values garbage) (.inr hle)).emit (.ret values garbage)
      (.inr (Nat.le_succ_of_le hle))
    rw [hcurrent] at hemit ⊢
    simpa [round] using hemit
  · exact (chooses_line hle hline.plain).append
      (.branch (chooses_of_plain hext.count_le (by simp [Op.isBranch])) _ _)
  · intro w hw hsound v hv
    rw [Walk.mem_through_exits hw.goes hw.current hline.plain (fun c hc => (hw.bound c hc).trans_le hle)
      ⟨rfl, rfl⟩ ⟨rfl, rfl⟩] at hv
    have hahead : Steps callees strict d.size (d.along w.trace [] []) (e.along (w.trace ++ line ++
        [.branch t e.count (e.count + 1)]) (values ++ []) []) :=
      (hline.steps_branch (by simp) fun hs => ⟨(by simp [NamedBy] : d.NamedBy [] []), hapart hs⟩).trans
        (steps_picks hvalues)
    have hclosed : ∀ T, (e.round t values garbage kept).registers.closed T = e.registers.closed T := by
      intro T
      rw [Registers.closed,Registers.closed,show (e.round t values garbage kept).registers.layout =
        _ from hlayout]
      rfl
    have hend : ∀ op : Op, op.endsActivation = true → op.needs = values → op.frees = garbage → ∀ T,
        Step callees strict d.size (e.along T (values ++ []) [])
          ((e.round t values garbage kept).registers.closed (T ++ [op])) := by
      intro op hend hneeds hfrees T
      rw [hclosed]
      exact step_exit he hend (fun r hr => mem_append_left _ (hneeds ▸ hr)) (hneeds ▸ hgarbage) hfrees
    rcases hv with rfl | rfl
    · exact hahead.tail (hend _ rfl rfl rfl _)
    · exact hahead.tail (hend _ rfl rfl rfl _)

end

theorem nextRound_eq_ok {span : Span} {ps : List (String × Kind)}
    (h : nextRound span ps d = .ok (rs, d')) :
    ps.map (fun p => d.scope.get? p.1) = rs.map some ∧
      rs.map d.registers.kind = ps.map (·.2) ∧ d = d' := by
  induction ps generalizing rs with
  | nil =>
    obtain ⟨rfl,rfl⟩ := (pure_eq_ok _ _).1 h
    exact ⟨rfl, rfl, rfl⟩
  | cons p ps ih =>
    simp only [nextRound,bind_eq_ok,read_eq_ok,kindOf_eq_ok,ensure_eq_ok,pure_eq_ok] at h
    obtain ⟨r,_,⟨hr,rfl⟩,_,_,⟨rfl,rfl⟩,_,_,⟨hagree,rfl⟩,_,_,hrs,rfl,rfl⟩ := h
    obtain ⟨hnames,hkinds,rfl⟩ := ih hrs
    refine ⟨?_, ?_, rfl⟩
    · rw [map_cons,map_cons,hr,hnames]
    · rw [map_cons,map_cons,(Kind.agree_eq_ok_iff _ _).1 hagree,hkinds]

theorem iteration_eq_ok {f : Frame} {bodySpan condSpan : Span} {test : Lower Register}
    {body : Lower Flow} (h : iteration f bodySpan condSpan test body d = .ok ((), d')) :
    ∃ flow d₁ t e values garbage kept, body d = .ok (flow, d₁) ∧ test d₁ = .ok (t, e) ∧
      (e.registers.kind t).convert (.lent .boolean) = .ok () ∧
      f.params.map (fun p => e.scope.get? p.1) = values.map some ∧
      values.map e.registers.kind = f.params.map (·.2) ∧
      garbage = e.registers.unreachable (orderedSet (values.map e.registers.resolve)) ∧
      d' = e.round t values garbage kept := by
  simp only [iteration,bind_eq_ok,condition_eq_ok,collectAtExit_eq_ok,pushUnder_eq_ok] at h
  obtain ⟨flow,d₁,hbody,t,e,htest,_,_,hcheck,_,_,⟨rfl,rfl⟩,_,_,⟨rfl,rfl⟩,values,_,hvalues,garbage,_,
    ⟨hgarbage,rfl⟩,_,_,rfl,_,_,rfl,rfl⟩ := h
  obtain ⟨htruth,rfl⟩ := checkTruth_eq_ok hcheck
  obtain ⟨hnames,hkinds,rfl⟩ := nextRound_eq_ok hvalues
  exact ⟨flow, d₁, t, e, values, garbage, _, hbody, htest, htruth, hnames, hkinds, hgarbage, rfl⟩

theorem loopOver_eq_ok {f : Frame} {names : List String} {condSpan bodySpan : Span}
    {test : Frame → Lower Register} {body : Frame → Lower Flow}
    (h : loopOver f names condSpan bodySpan test body d = .ok ((), d')) :
    ∃ captures count draft log log' t e sources slot done control,
      captures = d.captures names ∧ d.loopCount < count ∧
        f.table.lookup? (f.loop count captures).name = none ∧
      iteration (f.loop count captures) bodySpan condSpan (test (f.loop count captures))
        (body (f.loop count captures)) (.start (f.loop count captures).params log') = .ok ((), draft) ∧
      test f (d.enclose (captures.map (·.kind)) count log
        (draft.routine (f.loop count captures) :: draft.closures)) = .ok (t, e) ∧
      (e.registers.kind t).convert (.lent .boolean) = .ok () ∧
      captures.map (fun c => e.scope.get? c.name) = sources.map some ∧
      (captures = [] ∧ done = some e.count ∧ control.conditionCount = e.count + 1 ∨
        captures ≠ [] ∧ done = none ∧ control.conditionCount = e.count) ∧
      d' = d.around e t control (f.loop count captures).name slot done captures sources := by
  simp only [loopOver,bind_eq_ok] at h
  obtain ⟨captures,_,hcap,_,_,hname,_,_,halloc,h⟩ := h
  obtain ⟨hcaptures,rfl⟩ := capturesOf_eq_ok hcap
  obtain ⟨count,hcount,rfl,hfresh,rfl⟩ := closureName_eq_ok hname
  obtain ⟨_,hres,-⟩ := Draft.exists_reserveAll { d with loopCount := count } (captures.map (·.kind))
  obtain ⟨rfl,rfl⟩ := (allocAll_eq_ok _ _).1 halloc
  rw [hres] at h
  simp only [length_map,note_eq_ok,modify_eq_ok,condition_eq_ok,push_eq_ok,newChild_eq_ok,
    pushUnder_eq_ok] at h
  obtain ⟨draft,_,hsep,_,_,rfl,_,_,rfl,_,_,⟨rfl,rfl⟩,_,_,⟨rfl,rfl⟩,t,e,htest,_,_,hcheck,_,_,
    rfl,sources,_,hentry,_,_,⟨rfl,rfl⟩,done,_,hdone,_,_,rfl,hskip⟩ := h
  obtain ⟨hiter,rfl⟩ := separately_eq_ok hsep
  obtain ⟨hsources,rfl⟩ := entryValues_eq_ok hentry
  obtain ⟨control,rfl,hflag⟩ := doneFlag_eq_ok hdone
  obtain ⟨htruth,rfl⟩ := checkTruth_eq_ok hcheck
  refine ⟨captures, count, draft,
    draft.log ++ [.loopLowered f.name (f.loop count captures).name captures.length], _, t, e, sources, _,
    done, control,
    hcaptures, hcount, hfresh, hiter, ?_, htruth, hsources, ?_, (skipLoop_eq_ok ()).1 hskip⟩
  · rw [Draft.enclose,hres]
    exact htest
  · have hnil : d.arrivals captures = [] ↔ captures = [] := by simp
    rcases hflag with ⟨hnone,hdone,hcount⟩ | ⟨hsome,hdone,hcount⟩
    · exact .inl ⟨hnil.1 hnone, hdone, hcount⟩
    · exact .inr ⟨fun h => hsome (hnil.2 h), hdone, hcount⟩

theorem exists_get?_of_map {α : Type} {scope : Scope} {ps : List α} {name : α → String}
    (h : ps.map (fun p => scope.get? (name p)) = rs.map some) :
    ∀ r ∈ rs, ∃ x, scope.get? x = some r := by
  intro r hr
  obtain ⟨p,-,hp⟩ := mem_map.1 (h ▸ mem_map_of_mem hr : some r ∈ ps.map fun p => scope.get? (name p))
  exact ⟨name p, hp⟩

end Draft

end Polled
