import Polled.Proofs.Conversion
import Polled.Proofs.Sites

/-!
The kinds of the operands of lowered code.

Kinds are checked where an expression, an exit or the end of a round is lowered, and nowhere else.
`Lowers.kinded` adds the checks up.
-/

namespace Polled

open Lower Passage Draft List

variable {rs : List Register} {line : List Op} {g : GuardedOp} {kind : Register → Kind}
variable {known : String → Outline → Prop} {own : Outline} {d d' : Draft}

/-- What calls have to know of a routine. -/
def Routine.outline (r : Routine) : Outline :=
  ⟨r.isSync, r.registerKinds.take r.paramCount, r.returnKinds⟩

/-- Every operation has operands of the kinds that it takes. -/
def Routine.Kinded (known : String → Outline → Prop) (r : Routine) : Prop :=
  ∀ g ∈ r.ops, g.op.Kinded known r.outline r.registerKind

namespace Draft

variable {known : String → Outline → Prop} {own : Outline} {kind : Register → Kind} {f : Frame}
  {d e d' : Draft}

theorem outline_routine {log : List Event}
    (h : (start f.params log).registers.layout.Grows d'.registers.layout) :
    (d'.routine f).outline = ⟨f.isSync, f.params.map (·.2), f.returnKinds⟩ := by
  obtain ⟨-,hkinds⟩ := entry_start f.params log
  have htake := Registers.take_kinds h
  rw [size_start,hkinds] at htake
  rw [← htake]
  rfl

theorem agrees_routine (d : Draft) (f : Frame) : d.Agrees (d.routine f).registerKind := by
  intro r _
  rw [Routine.registerKind_eq (f := d.registers) rfl]

theorem Line.kinded_ops (h : Line known d e rs line) (hkind : e.Agrees kind) (hg : g ∈ e.ops) :
    g ∈ d.ops ∨ g.op.Kinded known own kind := by
  rw [h.ops_eq] at hg
  refine (mem_append.1 hg).imp_right fun hg => ?_
  obtain ⟨op,hop,rfl⟩ := mem_map.1 hg
  exact h.kinded own kind hkind op hop

theorem kinded_freeOps {count : Nat} {rs : List (Register × Condition)} (hg : g ∈ freeOps count rs) :
    g.op.Kinded known own kind := by
  obtain ⟨p,-,rfl⟩ := mem_map.1 hg
  trivial

theorem Reunion.kinded {dt df : Draft} {moves : List Transfer} {frees : List (Register × Condition)}
    (h : Reunion d dt df d' moves frees) (hkind : d'.Agrees kind) (hg : g ∈ d'.ops) :
    g ∈ df.ops ∨ g.op.Kinded known own kind := by
  rw [h.ops_eq] at hg
  rcases mem_append.1 hg with hg | hg
  · refine (mem_append.1 hg).imp_right fun hg => ?_
    obtain ⟨m,hm,rfl⟩ := mem_map.1 hg
    obtain ⟨-,hsource,hdest,heq⟩ := h.blends.copies m hm
    show kind m.source = kind m.dest
    rw [hkind _ hsource,hkind _ hdest]
    exact heq
  · exact .inr (kinded_freeOps hg)

theorem Arms.kinded_behind {callees : Callees} {strict : Prop} {test : Register} {dt df : Draft}
    {flowT flowF flow : Flow} {opsT opsF : List GuardedOp} {span : Span}
    (h : Arms callees strict d test dt df flowT flowF opsT opsF)
    (hbehind : Behind f span d dt df d' flowT flowF flow) (hkind : d'.Agrees kind) :
    df.Agrees kind ∧ ∀ g ∈ d'.ops, g ∈ df.ops ∨ g.op.Kinded known own kind := by
  rcases h.behind hbehind with ⟨hlayout,hops,-⟩ | ⟨-,-,_,_,hreunion⟩
  · exact ⟨hkind.of_layout hlayout, fun g hg => .inl (hops ▸ hg)⟩
  · refine ⟨fun r hr => ?_, fun g hg => hreunion.kinded hkind hg⟩
    exact (hkind r (hr.trans_le hreunion.blends.size_le)).trans (hreunion.blends.kind_old r hr)

end Draft

theorem fits_of_map {ks : List Kind} (h : rs.map kind = ks) : Fits kind rs ks := by
  refine ⟨by simpa using congrArg List.length h, fun p hp => ?_⟩
  rw [← h,← map_id rs,map_map,zip_map',mem_map] at hp
  obtain ⟨r,-,rfl⟩ := hp
  exact (Kind.convert_eq_ok_iff _ _).2 (Kind.fits_self _)

theorem Draft.Detour.kinded_ops {t : Register} {callee : String} {slot : ChildSlot}
    {done : Option Condition} {captures : List Capture} {sources : List Register}
    (h : Detour known d d' t callee slot done captures sources line)
    (hcallee : known callee ⟨false, captures.map (·.kind), captures.map (·.kind)⟩)
    (hkind : d'.Agrees kind) (hg : g ∈ d'.ops) : g ∈ d.ops ∨ g.op.Kinded known own kind := by
  obtain ⟨hline,htruth,hsources,hresults⟩ := h.kinded own kind hkind
  rw [h.ops_eq] at hg
  refine (mem_append.1 hg).imp_right fun hg => ?_
  simp only [aroundOps,mem_append,mem_map,mem_singleton] at hg
  rcases hg with ⟨op,hop,rfl⟩ | rfl | ⟨_,rfl,rfl⟩ | ⟨op,⟨p,hp,rfl⟩,rfl⟩
  · exact hline op hop
  · exact htruth
  · exact ⟨_, hcallee, rfl, fits_of_map hsources, hresults⟩
  · obtain ⟨i,hc,hsource,hdest⟩ := mem_crossing hp
    have hsource' := congrArg (·[i]?) hsources
    have hdest' := congrArg (·[i]?) hresults
    simp only [getElem?_map,hc,hsource,hdest,Option.map_some] at hsource' hdest'
    exact (Option.some.inj hsource').trans (Option.some.inj hdest').symm

theorem Lowers.kinded {callees : Callees} {f : Frame} {c : Code} {flow : Flow}
    (h : Lowers callees f c d flow d') (hknown : KnowsTable known f.table)
    (hclosures : ∀ r ∈ d'.closures, known r.name r.outline) (hown : own.returns = f.returnKinds)
    (hkind : d'.Agrees kind) :
    ∀ g ∈ d'.ops, g ∈ d.ops ∨ g.op.Kinded known own kind := by
  induction h with
  | @bind _ _ names value _ e rs hd hvalue =>
    obtain ⟨line,hline⟩ := value.line hknown hd hvalue
    obtain ⟨_,heq⟩ := e.exists_giveNames (names.map (·.node)) rs
    rw [heq] at hkind ⊢
    exact fun g hg => hline.kinded_ops hkind hg
  | @run _ _ value _ _ hd hvalue =>
    obtain ⟨line,hline⟩ := value.line hknown hd hvalue
    exact fun g hg => hline.kinded_ops hkind hg
  | @exit _ _ _ _ e rs hd _ hvalues hfits =>
    obtain ⟨line,hline,he,hlt⟩ := exitValues_line hknown hd hvalues
    obtain ⟨_,heq,hlayout⟩ := e.exists_leave rs
    have hkind : e.Agrees kind := hkind.of_layout (heq ▸ hlayout)
    rw [heq]
    intro g hg
    rcases mem_append.1 hg with hg | hg
    · exact hline.kinded_ops hkind hg
    · rw [mem_singleton.1 hg]
      refine .inr ⟨hown ▸ hfits.1, fun p hp => ?_⟩
      rw [hkind _ (hlt _ (of_mem_zip hp).1)]
      exact hfits.2 p (hown ▸ hp)
  | @branch f _ cond _ _ _ d dt _ _ test _ _ _ _ _ hd₀ htest htruth harms _ _ hbehind ihT ihF =>
    obtain ⟨line,hline⟩ := cond.line hknown hd₀ htest
    obtain ⟨⟨_,hstraight⟩,-⟩ := cond.straight f.table.callees_cover hd₀ htest
    obtain ⟨hdf,hops⟩ := @Arms.kinded_behind known own kind _ _ _ _ _ _ _ _ _ _ _ _ _ _
      harms hbehind hkind
    have hdt : dt.Agrees kind := hdf.of_grows harms.grows
    have hd : d.Agrees kind := hdt.of_grows harms.grows_true
    rw [hbehind.still.1] at hclosures
    have hclosures' : ∀ r ∈ dt.closures, known r.name r.outline := fun r hr =>
      hclosures r (harms.onFalse.extend.closures.subset hr)
    -- from the end of the branch back to its test
    intro g hg
    rcases hops g hg with hg | hg
    · rcases ihF hknown hclosures hown hdf g hg with hg | hg
      · rcases ihT hknown hclosures' hown hdt g hg with hg | hg
        · rcases mem_append.1 hg with hg | hg
          · exact hline.kinded_ops hd hg
          · rw [mem_singleton.1 hg]
            refine .inr ?_
            show (kind test).convert _ = _
            rw [hd test (hstraight.lt_size hd₀ (mem_singleton_self test))]
            exact htruth
        · exact .inr hg
      · exact .inr hg
    · exact .inr hg
  | @loop f _ _ _ _ _ draft _ count captures _ _ hd hcaptures hcount _ hadvance _ hround hsite =>
    obtain ⟨t,_,_,_,_,hdetour⟩ := detour_of_encloses hsite hknown hd (nodup_orderedSet _)
      hcount hcaptures
    obtain ⟨_,_,_,_,_,hturning⟩ := turning_of_endsRound hround hadvance hknown
    have hcallee := hclosures (draft.routine (f.loop count captures)) (by
      rw [hsite.closures]
      exact mem_append_right _ mem_cons_self)
    rw [outline_routine (f := f.loop count captures) (hadvance.extend.grows.trans hturning.grows),
      show (f.loop count captures).params.map (·.2) = captures.map (·.kind) from map_map] at hcallee
    exact fun g hg => hdetour.kinded_ops hcallee hkind hg
  | nil => exact fun g hg => .inl hg
  | last _ ih => exact ih hknown hclosures hown hkind
  | @cons f _ _ _ e _ _ _ _ _ _ hsweep hrest _ _ ih ih' =>
    have hswept : (e.swept f).Agrees kind := hkind.of_grows hrest.extend.grows
    have he : e.Agrees kind := hswept.of_grows hsweep.extend.grows
    have hclosures' : ∀ r ∈ e.closures, known r.name r.outline := fun r hr =>
      hclosures r (hrest.extend.closures.subset (hsweep.extend.closures.subset hr))
    intro g hg
    rcases ih' hknown hclosures hown hkind g hg with hg | hg
    · rw [swept,(freeAll_spec e f _).2.2.2.2.1] at hg
      rcases mem_append.1 hg with hg | hg
      · exact ih hknown hclosures' hown he g hg
      · exact .inr (kinded_freeOps hg)
    · exact .inr hg

section

variable {table : SignatureTable} {callees : Callees} {r : Routine}

theorem Closure.kinded {loops : List (Expr × Block)} {all : List Routine}
    (h : Closure callees table loops all r) (hknown : KnowsTable known table)
    (hall : ∀ c ∈ all, known c.name c.outline) : r.Kinded known := by
  obtain ⟨f,_,_,_,d',_,ops,-,rfl,-,-,hreturns,hadvance,hbody,hround,hclosures,rfl⟩ := h
  obtain ⟨_,t,_,_,_,hturning⟩ := turning_of_endsRound hround hadvance hknown
  have houtline := outline_routine (hadvance.extend.grows.trans hturning.grows)
  have hkind := d'.agrees_routine f
  obtain ⟨hline,htruth,hvalues⟩ := hturning.kinded (d'.routine f).outline _ hkind
  have hown : (d'.routine f).outline.returns = f.returnKinds := rfl
  have hbody := hbody.kinded hknown (fun c hc => hall c (hclosures c (hround.closures ▸ hc))) hown
    (hkind.of_grows hturning.grows)
  intro g hg
  have hg : g ∈ d'.ops := hg
  rw [hturning.ops_eq] at hg
  simp only [mem_append,mem_map,mem_cons,not_mem_nil,or_false] at hg
  rcases hg with hg | ⟨op,hop,rfl⟩ | rfl | rfl | rfl
  · exact (hbody g hg).resolve_left not_mem_nil
  · exact hline op hop
  · exact htruth
  · rw [houtline]
    exact ⟨hvalues, hreturns⟩
  · rw [houtline]
    exact fits_of_map (hvalues.trans hreturns.symm)

section

variable {d : Decl} {body : Block} {log : List Event} {l : Lowered}
  (h : lowerFunction table d body log = .ok l)

include h

theorem kinded_of_lowerFunction (hknown : KnowsTable known table)
    (hclosures : ∀ c ∈ l.closures, known c.name c.outline) (hr : r ∈ l.routine :: l.closures) :
    r.Kinded known := by
  rcases mem_cons.1 hr with rfl | hr
  case inr => exact (closure_of_lowerFunction h hr).1.kinded hknown hclosures
  obtain ⟨_,draft,_,-,-,hbody,rfl⟩ := lowers_of_lowerFunction h
  have hown : (draft.routine (d.frame table)).outline.returns = (d.frame table).returnKinds := rfl
  exact fun g hg => (hbody.kinded hknown hclosures hown (draft.agrees_routine (d.frame table)) g
    hg).resolve_left not_mem_nil

theorem outline_of_lowerFunction : l.routine.name = d.name.node ∧
      l.routine.outline = ⟨d.isSync, d.typedParams.map (·.2), d.returnKinds⟩ := by
  obtain ⟨_,_,_,-,hadvance,-,rfl⟩ := lowers_of_lowerFunction h
  exact ⟨rfl, outline_routine (f := d.frame table) hadvance.extend.grows⟩

end

end

end Polled
