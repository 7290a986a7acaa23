import Polled.Proofs.Derivation
import Polled.Proofs.Reunion
import Polled.Proofs.Renewal

/-!
The places where code turns off its line.

A loop is gone around (`Draft.Detour`), a round comes to its end (`Draft.Turning`) and the arms of a
branch meet again (`Draft.Reunion`).
-/

namespace Polled

open Lower Passage List

variable {skip : Condition} {ts : List (Capture × Register × Register)} {names : List String}

namespace Draft

variable {known : String → Outline → Prop} {f : Frame} {d e d' : Draft}

theorem exitValues_line (hknown : KnowsTable known f.table) {value : Option Expr} {rs : List Register}
    (hd : d.Valid) (h : exitValues f value d = .ok (rs, e)) : ∃ line, Line known d e rs line ∧ e.Valid ∧
      ∀ r ∈ rs, r < e.size := by
  cases value with
  | none =>
    obtain ⟨rfl,rfl⟩ := (pure_eq_ok _ _).1 h
    exact ⟨[], .nil, hd, by simp⟩
  | some value =>
    obtain ⟨line,hline⟩ := value.line hknown hd h
    obtain ⟨⟨_,hstraight⟩,-⟩ := value.straight f.table.callees_cover hd h
    exact ⟨line, hline, hstraight.valid hd, fun r hr => hstraight.lt_size hd hr⟩

theorem Agrees.of_layout {kind : Register → Kind} (h : d'.Agrees kind)
    (heq : d'.registers.layout = d.registers.layout) : d.Agrees kind := by
  intro r hr
  have hsize : d'.registers.size = d.registers.size := congrArg Layout.size heq
  exact (h r (hsize ▸ hr)).trans (congrArg (fun l => l.kind r) heq)

/-- A loop seen from where it stands: a line, a branch, and on either side the results. -/
structure Detour (known : String → Outline → Prop) (d d' : Draft) (t : Register) (callee : String)
    (slot : ChildSlot) (done : Option Condition) (captures : List Capture) (sources : List Register)
    (line : List Op) : Prop where
  ops_eq : d'.ops = d.ops ++ d.aroundOps t callee slot done captures sources line
  plain : ∀ op ∈ line, op.Plain
  marks : captures = [] → done ≠ none
  count_le : d.control.conditionCount + 2 ≤ d'.control.conditionCount
  flags : ∀ c ∈ flagsOf line ++ done.toList, d.control.conditionCount + 2 ≤ c ∧
    c < d'.control.conditionCount
  nodup : (flagsOf line ++ done.toList).Nodup
  kinded : ∀ own kind, d'.Agrees kind → (∀ op ∈ line, op.Kinded known own kind) ∧
    (kind t).convert (.lent .boolean) = .ok () ∧ sources.map kind = captures.map (·.kind) ∧
    (List.range' d.registers.size captures.length).map kind = captures.map (·.kind)
  supplies : ∀ slot base T, d.Supplied slot base T → Fed slot base (T ++ line) ∧
    Given slot base (T ++ line) (slot t) ∧
    ∀ r ∈ sources, Given slot base (T ++ line) (slot r)
  names : ∀ slot base T T', d.Supplied slot base T →
    (∀ r ∈ List.range' d.registers.size captures.length, Given slot base (T ++ line ++ T') (slot r)) →
    ∀ x r, d'.scope.get? x = some r → Given slot base (T ++ line ++ T') (slot r)
  resolve_eq : d'.registers.resolve = d.registers.resolve
  size_le : d.registers.size + captures.length ≤ d'.registers.size
  fills : line.flatMap Op.provides = List.range' (d.registers.size + captures.length)
    (d'.registers.size - (d.registers.size + captures.length))

theorem Hops.get?_pass_iff {skip : Condition} {ts : List (Capture × Register × Register)}
    (h : Hops d ts) {x : String} {r : Register} : (d.pass skip ts).scope.get? x = some r ↔
      (x ∉ ts.map (·.1.name) ∧ d.scope.get? x = some r) ∨ ∃ t ∈ ts, t.1.name = x ∧ t.2.2 = r := by
  induction ts generalizing d with
  | nil => simp [pass]
  | cons t ts ih =>
    obtain ⟨c,_,_⟩ := t
    obtain ⟨hc,-⟩ := nodup_cons.1 h.names
    rw [pass,ih h.next,h.get?_hop]
    constructor
    · rintro (⟨hx,⟨rfl,rfl⟩ | ⟨hne,hxr⟩⟩ | ⟨t,ht,hname,hdest⟩)
      · exact .inr ⟨_, mem_cons_self, rfl, rfl⟩
      · exact .inl ⟨not_mem_cons_of_ne_of_not_mem hne hx, hxr⟩
      · exact .inr ⟨t, mem_cons_of_mem _ ht, hname, hdest⟩
    · rintro (⟨hx,hxr⟩ | ⟨t,ht,rfl,rfl⟩)
      · obtain ⟨hne,hx⟩ := ne_and_not_mem_of_not_mem_cons hx
        exact .inl ⟨hx, .inr ⟨hne, hxr⟩⟩
      · rcases mem_cons.1 ht with rfl | ht
        · exact .inl ⟨hc, .inl ⟨rfl, rfl⟩⟩
        · exact .inr ⟨t, ht, rfl, rfl⟩

theorem Hops.get?_around {captures : List Capture} {sources : List Register}
    (h : Hops e (d.crossed captures sources)) (t : Register) (control : Control) (callee : String)
    (slot : ChildSlot) (done : Option Condition) (x : String) (r : Register) :
    (d.around e t control callee slot done captures sources).scope.get? x = some r ↔
      (x ∉ (d.crossed captures sources).map (·.1.name) ∧ e.scope.get? x = some r) ∨
        ∃ t ∈ d.crossed captures sources, t.1.name = x ∧ t.2.2 = r :=
  h.called.get?_pass_iff

section

variable {kinds : List Kind} {count : Nat} {log : List Event} {new : List Routine}

theorem size_enclose : (d.enclose kinds count log new).size = d.size + kinds.length :=
  @size_reserveAll { d with loopCount := count } kinds

theorem Renews.enclose (hd : d.Valid) : d.Renews (d.enclose kinds count log new) [] := by
  obtain ⟨registers,heq,hresolve⟩ := exists_reserveAll { d with loopCount := count } kinds
  have hsize : (d.enclose kinds count log new).registers.size = _ := size_enclose
  rw [Draft.enclose,heq] at hsize ⊢
  refine ⟨hresolve, hsize ▸ le_self_add, fun x r hx => .inl hx, fun x _ r hx _ hr => ?_⟩
  exact absurd (hd.sound.lt_of_scope hx) (not_lt.2 hr)

end

theorem Renews.pass_hops {xs : List String} (h : d.Renews e xs) (hhops : Hops e ts)
    (hnew : ∀ t ∈ ts, d.size ≤ t.2.2) : d.Renews (e.pass skip ts) (xs ++ ts.map (·.1.name)) := by
  induction ts generalizing e xs with
  | nil =>
    rw [map_nil,append_nil]
    exact h
  | cons t ts ih =>
    obtain ⟨c,source,dest⟩ := t
    have hlayout : (e.hop skip c source dest).registers.layout = e.registers.layout :=
      e.registers.layout_release source
    have hunnamed : ∀ y, e.scope.get? y ≠ some dest := fun y hy =>
      hhops.unnamed _ mem_cons_self ⟨y, dest, hy, rfl⟩
    have hstep : d.Renews (e.hop skip c source dest) (xs ++ [c.name]) := by
      refine ⟨(congrArg Layout.root hlayout).trans h.resolve_eq, ?_, fun x r hx => ?_,
        fun x y r hx hy hr => ?_⟩
      · exact h.size_le.trans (congrArg Layout.size hlayout).symm.le
      · rcases (hhops.get?_hop x r).1 hx with ⟨rfl,rfl⟩ | ⟨-,hx⟩
        · exact .inr ⟨by simp, hnew _ mem_cons_self⟩
        · exact (h.names x r hx).imp_right fun hnew => ⟨mem_append_left _ hnew.1, hnew.2⟩
      · rcases (hhops.get?_hop x r).1 hx with ⟨rfl,rfl⟩ | ⟨-,hx'⟩
        · exact ((hhops.get?_hop y _).1 hy).elim (fun hy => hy.1.symm) fun hy => absurd hy.2 (hunnamed y)
        · rcases (hhops.get?_hop y r).1 hy with ⟨-,rfl⟩ | ⟨-,hy'⟩
          · exact absurd hx' (hunnamed x)
          · exact h.sole x y r hx' hy' hr
    have hrest := ih hstep hhops.next fun t ht => hnew t (mem_cons_of_mem _ ht)
    rwa [append_assoc] at hrest

section

variable {cond : Expr} {captures : List Capture} {count : Nat} {new : List Routine}
variable (h : Encloses f cond captures count new d d')

include h

/-- Behind a loop, the names that its condition threads and those that it captures are new ones. -/
theorem Encloses.renews (hd : d.Valid) (hnames : names.Nodup) (hcount : d.loopCount < count)
    (hcaptures : captures = d.captures names) : d.Renews d' (cond.rebinds ++ captures.map (·.name)) := by
  obtain ⟨log,t,e,_,_,_,_,htest,-,hsources,-,rfl⟩ := h
  obtain ⟨-,hvalid,-⟩ := @enclose_spec (fun _ => none) False 0 d (captures.map (·.kind)) count log new
    hd hcount.le
  obtain ⟨⟨_,hstraight⟩,-⟩ := cond.straight f.table.callees_cover hvalid htest
  have hhops := hops_of_line hd hnames hcount.le hcaptures hstraight hsources
  obtain ⟨hfst,-,hdest⟩ := d.crossed_maps (length_sources hsources)
  obtain ⟨hrenews,-⟩ := cond.renews hvalid htest
  have hboth := (Renews.enclose hd).trans hrenews
  have hmap := congrArg (List.map Capture.name) hfst
  rw [map_map] at hmap
  rw [← hmap]
  refine Renews.pass_hops ⟨hboth.resolve_eq, hboth.size_le, hboth.names, hboth.sole⟩
    (hhops.of_eq rfl rfl) fun p hp => ?_
  have hmem := mem_map_of_mem (f := (·.2.2)) hp
  rw [hdest] at hmem
  exact (mem_range'_1.1 hmem).1

theorem detour_of_encloses (hknown : KnowsTable known f.table) (hd : d.Valid) (hnames : names.Nodup)
    (hcount : d.loopCount < count) (hcaptures : captures = d.captures names) :
    ∃ t slot done sources line,
      Detour known d d' t (f.loop count captures).name slot done captures sources line := by
  have hresolve := (h.renews hd hnames hcount hcaptures).resolve_eq
  obtain ⟨log,t,e,sources,slot,done,control,htest,htruth,hsources,hflag,rfl⟩ := h
  obtain ⟨_,hvalid,hscope,hticks,-⟩ := @enclose_spec (fun _ => none) False 0 d
    (captures.map (·.kind)) count log new hd hcount.le
  obtain ⟨line,hline⟩ := cond.line hknown hvalid htest
  obtain ⟨⟨_,hstraight⟩,-⟩ := cond.straight f.table.callees_cover hvalid htest
  have hhops := hops_of_line hd hnames hcount.le hcaptures hstraight hsources
  have hlen := length_sources hsources
  have hcontrol : e.control.conditionCount ≤ control.conditionCount := by omega
  obtain rfl := line_unique hline.ops_eq hstraight.extend.ops_eq
  have hext' := @extends_around _ _ _ _ _ _ _ _ _ _ _ _ control (f.loop count captures).name slot done hd
    hcount.le hstraight hhops hcontrol
  obtain ⟨hlayout,hcount'⟩ := @around_spec _ _ _ _ t control (f.loop count captures).name slot done hhops
  have hle := hline.count_le
  rw [hticks] at hle
  have hsize : (d.around e t control (f.loop count captures).name slot done captures
    sources).registers.size = e.registers.size := congrArg Layout.size hlayout
  have hwide : (d.enclose (captures.map (·.kind)) count log new).registers.size =
      d.registers.size + captures.length :=
    size_enclose.trans (by rw [length_map])
  have hsupplied : ∀ slot base T, d.Supplied slot base T →
      (d.enclose (captures.map (·.kind)) count log new).Supplied slot base T :=
    fun slot base T hT => ⟨fun x r hx => hT.names x r (hscope ▸ hx), hT.fed⟩
  refine ⟨t, slot, done, sources, line, hext'.ops_eq, hline.plain, ?_, ?_, ?_, ?_, ?_, ?_, ?_,
    hresolve, ?_, ?_⟩
  · intro hnil
    rcases hflag with ⟨-,rfl,-⟩ | ⟨hsome,-,-⟩
    · simp
    · exact absurd hnil hsome
  · rw [hcount']
    exact hle.trans hcontrol
  · rw [hcount']
    intro c hc
    rcases mem_append.1 hc with hc | hc
    · have hflags := hline.flags c hc
      rw [hticks] at hflags
      exact ⟨hflags.1, hflags.2.trans_le hcontrol⟩
    · rcases hflag with ⟨-,rfl,hnext⟩ | ⟨-,rfl,-⟩
      · obtain rfl : c = e.control.conditionCount := by simpa using hc
        exact ⟨hle, hnext ▸ lt_add_one _⟩
      · simp at hc
  · rw [nodup_append]
    refine ⟨hline.nodup, by cases done <;> simp, ?_⟩
    rintro c hc _ hc' rfl
    rcases hflag with ⟨-,rfl,-⟩ | ⟨-,rfl,-⟩
    · obtain rfl : c = e.control.conditionCount := by simpa using hc'
      exact lt_irrefl _ (hline.flags _ hc).2
    · simp at hc'
  · intro own kind hkind
    have he : e.Agrees kind := hkind.of_layout hlayout
    obtain ⟨hfst,hsource,_⟩ := d.crossed_maps hlen
    refine ⟨hline.kinded own kind he, ?_, ?_, ?_⟩
    · rw [he t (hstraight.lt_size hvalid (mem_singleton_self t))]
      exact htruth
    · have hkinds : ∀ p ∈ d.crossed captures sources,
          kind p.2.1 = p.1.kind := fun p hp =>
        (he _ (hhops.valid.sound.lt_of_scope (hhops.sources p hp))).trans (hhops.kind p hp)
      have hmap := map_congr_left hkinds
      have hleft := congrArg (List.map kind) hsource
      have hright := congrArg (List.map Capture.kind) hfst
      rw [map_map] at hleft hright
      exact hleft.symm.trans (hmap.trans hright)
    · have hkinds := Draft.kinds_reserveAll { d with loopCount := count } (captures.map (·.kind))
      rw [length_map] at hkinds
      refine (map_congr_left fun r hr => ?_).trans hkinds
      obtain ⟨hlt,-⟩ := @enclose_results _ (captures.map (·.kind)) count log new r hd
        (by rwa [length_map])
      exact he.of_grows hstraight.extend.grows r hlt
  · intro slot base T hT
    obtain ⟨he,hrs⟩ := hline.supplies slot base T (hsupplied slot base T hT)
    refine ⟨he.fed, hrs t (mem_singleton_self t), fun r hr => ?_⟩
    obtain ⟨x,hx⟩ := exists_get?_of_map hsources r hr
    exact he.names x r hx
  · intro slot base T T' hT hresults x r hx
    obtain ⟨he,-⟩ := hline.supplies slot base T (hsupplied slot base T hT)
    rcases (hhops.get?_around _ _ _ _ _ x r).1 hx with ⟨-,hx⟩ | ⟨p,hp,-,rfl⟩
    · exact (he.names x r hx).append T'
    · have hr : p.2.2 ∈ d.arrivals captures := (d.crossed_maps hlen).2.2 ▸ mem_map_of_mem hp
      exact hresults _ hr
  · rw [hsize,← hwide]
    exact hline.size_le
  · rw [hsize,← hwide]
    exact hline.provides

end

/-- The end of a round: a line, a branch, and an exit on either side. -/
structure Turning (known : String → Outline → Prop) (params : List Kind) (d d' : Draft) (mid : Nat)
    (t : Register) (values garbage : List Register) (line : List Op) : Prop where
  ops_eq : d'.ops =
    d.ops ++ (line.map (GuardedOp.mk d.current) ++ ([⟨d.current, .branch t mid (mid + 1)⟩] ++
    [⟨mid, .restartLoop values garbage⟩, ⟨mid + 1, .ret values garbage⟩]))
  plain : ∀ op ∈ line, op.Plain
  mid_le : d.control.conditionCount ≤ mid
  count_eq : d'.control.conditionCount = mid + 2
  flags : ∀ c ∈ flagsOf line, d.control.conditionCount ≤ c ∧ c < mid
  nodup : (flagsOf line).Nodup
  grows : d.registers.layout.Grows d'.registers.layout
  kinded : ∀ own kind, d'.Agrees kind → (∀ op ∈ line, op.Kinded known own kind) ∧
    (kind t).convert (.lent .boolean) = .ok () ∧ values.map kind = params
  supplies : ∀ slot base T, d.Supplied slot base T → Fed slot base (T ++ line) ∧
    Given slot base (T ++ line) (slot t) ∧
    ∀ r ∈ values, Given slot base (T ++ line) (slot r)
  resolve_eq : d'.registers.resolve = d.registers.resolve
  fills : line.flatMap Op.provides = List.range' d.registers.size (d'.registers.size - d.registers.size)

theorem turning_of_endsRound {callees : Callees} {cond : Expr} {log : List Event} {ops : List GuardedOp}
    (h : EndsRound f cond d d')
    (hadvance : Advances callees False (.start f.params log) d .continues ops)
    (hknown : KnowsTable known f.table) :
    ∃ mid t values garbage line, Turning known (f.params.map (·.2)) d d' mid t values garbage line := by
  obtain ⟨t,e,values,kept,htest,htruth,hnames,hkinds,rfl⟩ := h
  have hd : d.Valid := hadvance.valid (valid_start f.params log) (lt_add_one 0)
  obtain ⟨line,hline⟩ := cond.line hknown hd htest
  obtain ⟨⟨_,hstraight⟩,-⟩ := cond.straight f.table.callees_cover hd htest
  obtain rfl := line_unique hline.ops_eq hstraight.extend.ops_eq
  have he := hstraight.valid hd
  have hvalues := exists_get?_of_map hnames
  have hround : Advances f.table.callees False d
      (e.round t values (e.exitGarbage values) kept) .returns _ :=
    advances_round hd hstraight False.elim hadvance.extend.current hvalues rfl
  obtain ⟨_,-,hlayout⟩ := @disownAll_spec e.tick.tick ⟨he.sound, he.sorted⟩ kept
  have hlayout : (e.round t values (e.exitGarbage values) kept).registers.layout = e.registers.layout :=
    hlayout
  have hsize : (e.round t values (e.exitGarbage values) kept).registers.size = e.registers.size :=
    congrArg Layout.size hlayout
  refine ⟨e.count, t, values, e.exitGarbage values, line, hround.extend.ops_eq, hline.plain,
    hline.count_le, ?_, hline.flags, hline.nodup, hround.extend.grows, ?_, ?_,
    (congrArg Layout.root hlayout).trans hline.resolve_eq, hsize ▸ hline.provides⟩
  · obtain ⟨_,heq,-⟩ := e.tick.tick.exists_disownAll kept
    rw [round,heq]
    rfl
  · intro own kind hkind
    have hkind' : e.Agrees kind := hkind.of_layout hlayout
    refine ⟨hline.kinded own kind hkind', ?_, ?_⟩
    · rw [hkind' t (hstraight.lt_size hd (mem_singleton_self t))]
      exact htruth
    · refine (map_congr_left fun r hr => ?_).trans hkinds
      obtain ⟨x,hx⟩ := hvalues r hr
      exact hkind' r (he.sound.lt_of_scope hx)
  · intro slot base T hT
    obtain ⟨hT',hrs⟩ := hline.supplies slot base T hT
    refine ⟨hT'.fed, hrs t (mem_singleton_self t), fun r hr => ?_⟩
    obtain ⟨x,hx⟩ := hvalues r hr
    exact hT'.names x r hx

namespace Arms

variable {callees : Callees} {strict : Prop} {test : Register} {dt df : Draft} {flowT flowF : Flow}
variable {opsT opsF : List GuardedOp}

theorem valid_true (h : Arms callees strict d test dt df .continues flowF opsT opsF) : dt.Valid :=
  h.onTrue.valid h.valid.fork (Nat.lt_succ_of_lt (lt_add_one _))

theorem valid_resume (h : Arms callees strict d test dt df flowT flowF opsT opsF) :
    (d.second dt).Valid :=
  Valid.resume h.valid h.onTrue.extend.grows h.onTrue.extend.wf

theorem valid_false (h : Arms callees strict d test dt df flowT .continues opsT opsF) : df.Valid :=
  h.onFalse.valid h.valid_resume h.count_le.1

theorem reunion {span : Span} (h : Arms callees strict d test dt df .continues .continues opsT opsF)
    {flow : Flow} (hbehind : Behind f span d dt df d' .continues .continues flow) :
    ∃ moves frees, Reunion d dt df d' moves frees :=
  reunion_of_merge hbehind.2 h.onFalse.extend.wf (h.grows_true.size_le.trans h.grows.size_le)
    (fun _ _ hx => (h.valid_true.sound.lt_of_scope hx).trans_le h.grows.size_le)
    fun _ _ hx => h.valid_false.sound.lt_of_scope hx

/-- Behind a branch an arm has returned, and the draft goes on as the second arm left it, or both arms
have come together. -/
theorem behind {span : Span} {flow : Flow} (h : Arms callees strict d test dt df flowT flowF opsT opsF)
    (hbehind : Behind f span d dt df d' flowT flowF flow) :
    (d'.registers.layout = df.registers.layout ∧ d'.ops = df.ops ∧ d'.control = df.control) ∨
      flowT = .continues ∧ flowF = .continues ∧ ∃ moves frees, Reunion d dt df d' moves frees := by
  cases flowT with
  | returns =>
    cases flowF <;>
    · obtain ⟨-,rfl⟩ := hbehind
      exact .inl ⟨rfl, rfl, rfl⟩
  | continues =>
    cases flowF with
    | returns =>
      obtain ⟨-,rfl⟩ := hbehind
      exact .inl ⟨df.registers.layout_withLive _, rfl, rfl⟩
    | continues => exact .inr ⟨rfl, rfl, h.reunion hbehind⟩

end Arms

end Draft

end Polled
