import Polled.Proofs.Aliases
import Polled.Proofs.Arrival
import Polled.Proofs.Meaning

/-!
Slots that are written once.

Every operation writes registers that are new where it stands (`Lowers.adds`). Along one path no two of
them share a group (`Course.spread`), if bindings are separate.
-/

namespace Polled

open Lower List

variable {known : String → Outline → Prop} {params : List Kind} {mid : Nat} {t test : Register}
variable {values garbage sources : List Register} {callee : String} {slot : ChildSlot}
  {done : Option Condition}
variable {captures : List Capture} {callees : Callees} {f : Frame} {dt df d d' : Draft}
  {opsT opsF : List GuardedOp}
variable {c : Code} {flow : Flow}

namespace Draft

/-- Operations on the way from `d` to `d'` write registers that have been added, and no group twice. -/
structure Spread (d d' : Draft) (T : List Op) : Prop where
  size_le : d.registers.size ≤ d'.registers.size
  bound : ∀ r ∈ T.flatMap Op.provides, d.registers.size ≤ r ∧ r < d'.registers.size ∧
    d'.registers.resolve r < d'.registers.size
  nodup : ((T.flatMap Op.provides).map d'.registers.resolve).Nodup

section

variable {e : Draft} {T T' line : List Op} {xs : List String} {rs : List Register}

theorem Spread.nil : d.Spread d [] := ⟨le_rfl, by simp, by simp⟩

theorem Spread.append_silent (h : d.Spread d' T) (hT : T'.flatMap Op.provides = []) :
    d.Spread d' (T ++ T') := by
  have hprovides : (T ++ T').flatMap Op.provides = T.flatMap Op.provides := by
    rw [flatMap_append,hT,append_nil]
  exact ⟨h.size_le, hprovides ▸ h.bound, hprovides ▸ h.nodup⟩

theorem Spread.left (h : d.Spread d' (T ++ T')) : d.Spread d' T := by
  have hsub : (T.flatMap Op.provides).Sublist ((T ++ T').flatMap Op.provides) := by
    rw [flatMap_append]
    exact sublist_append_left _ _
  exact ⟨h.size_le, fun r hr => h.bound r (hsub.subset hr), h.nodup.sublist (hsub.map _)⟩

theorem Spread.widen (h : d.Spread e T) (hgrows : e.registers.layout.Grows d'.registers.layout) :
    d.Spread d' T := by
  have hroot : ∀ r ∈ T.flatMap Op.provides, d'.registers.resolve r = e.registers.resolve r := fun r hr =>
    hgrows.root_old r (h.bound r hr).2.1
  refine ⟨h.size_le.trans hgrows.size_le, fun r hr => ?_, ?_⟩
  · obtain ⟨hge,hlt,hlt'⟩ := h.bound r hr
    rw [hroot r hr]
    exact ⟨hge, hlt.trans_le hgrows.size_le, hlt'.trans_le hgrows.size_le⟩
  · rw [map_congr_left hroot]
    exact h.nodup

theorem Spread.of_layout (h : d.Spread e T) (hlayout : d'.registers.layout = e.registers.layout) :
    d.Spread d' T := by
  have hsize : d'.registers.size = e.registers.size := congrArg Layout.size hlayout
  have hresolve : d'.registers.resolve = e.registers.resolve := congrArg Layout.root hlayout
  exact ⟨hsize ▸ h.size_le, hsize ▸ hresolve ▸ h.bound, hresolve ▸ h.nodup⟩

theorem Spread.trans (h : d.Spread e T) (h' : e.Spread d' T')
    (hgrows : e.registers.layout.Grows d'.registers.layout) : d.Spread d' (T ++ T') := by
  have hwide := h.widen hgrows
  refine ⟨hwide.size_le, fun r hr => ?_, ?_⟩
  · rw [flatMap_append,mem_append] at hr
    rcases hr with hr | hr
    · exact hwide.bound r hr
    · exact ⟨h.size_le.trans (h'.bound r hr).1, (h'.bound r hr).2⟩
  · rw [flatMap_append,map_append,nodup_append]
    refine ⟨hwide.nodup, h'.nodup, fun a ha b hb heq => ?_⟩
    obtain ⟨r,hr,rfl⟩ := mem_map.1 ha
    obtain ⟨s,hs,rfl⟩ := mem_map.1 hb
    have hlt : d'.registers.resolve r < e.size := by
      rw [show d'.registers.resolve r = e.registers.resolve r from hgrows.root_old r (h.bound r hr).2.1]
      exact (h.bound r hr).2.2
    rw [heq] at hlt
    exact absurd hlt (not_lt.2 (hgrows.root_fresh s (h'.bound s hs).1))

theorem Spread.of_new (hsize : d.size ≤ d'.size) (hresolve : d'.registers.resolve = d.registers.resolve)
    (hbound : ∀ r ∈ T.flatMap Op.provides, d.size ≤ r ∧ r < d'.size)
    (hnodup : (T.flatMap Op.provides).Nodup) : d.Spread d' T := by
  have hroot : ∀ r ∈ T.flatMap Op.provides, d'.registers.resolve r = r := fun r hr =>
    (congrFun hresolve r).trans (d.registers.resolve_of_size_le (hbound r hr).1)
  refine ⟨hsize, fun r hr => ⟨(hbound r hr).1, (hbound r hr).2, ?_⟩, ?_⟩
  · rw [hroot r hr]
    exact (hbound r hr).2
  · rw [map_congr_left hroot,map_id']
    exact hnodup

theorem Fills.spread (h : d.Fills e line) : d.Spread e line := by
  refine .of_new h.size_le h.resolve_eq (fun r hr => ?_) ?_
  · rwa [h.provides,mem_range'_1,Nat.add_sub_cancel' h.size_le] at hr
  · rw [h.provides]
    exact nodup_range'

theorem Turning.spread (h : Turning known params d d' mid t values garbage line) : d.Spread d' line := by
  have hsize : d.size ≤ d'.size := h.grows.size_le
  refine .of_new hsize h.resolve_eq (fun r hr => ?_) ?_
  · rwa [h.fills,mem_range'_1,Nat.add_sub_cancel' hsize] at hr
  · rw [h.fills]
    exact nodup_range'

theorem Detour.spread {side : Bool} (h : Detour known d d' t callee slot done captures sources line) :
    d.Spread d' (line ++ [.branch t d.count (d.count + 1)] ++
      bif side then [.callAsync callee sources (d.arrivals captures) slot done]
      else (d.crossed captures sources).map fun t =>
        Op.rename t.2.1 t.2.2) := by
  have hlen : sources.length = captures.length := by
    obtain ⟨-,-,hkinds,-⟩ := h.kinded ⟨false, [], []⟩ d'.registers.kind fun _ _ => rfl
    simpa using congrArg List.length hkinds
  have hresults : List.flatMap Op.provides
      (bif side then [.callAsync callee sources (d.arrivals captures) slot done]
        else (d.crossed captures sources).map fun t =>
          Op.rename t.2.1 t.2.2) = d.arrivals captures := by
    cases side with
    | true => simp [Op.provides]
    | false =>
      have hdests := (d.crossed_maps hlen).2.2
      rw [cond_false,flatMap_map]
      exact map_eq_flatMap.symm.trans hdests
  have hall : List.flatMap Op.provides
      (line ++ [.branch t d.count (d.count + 1)] ++
        bif side then [.callAsync callee sources (d.arrivals captures) slot done]
        else (d.crossed captures sources).map fun t =>
          Op.rename t.2.1 t.2.2) = List.range' (d.size + captures.length)
        (d'.size - (d.size + captures.length)) ++ d.arrivals captures := by
    rw [flatMap_append,flatMap_append,hresults,h.fills]
    simp [Op.provides]
  refine .of_new (le_self_add.trans h.size_le) h.resolve_eq (fun r hr => ?_) ?_
  · rw [hall,mem_append,mem_range'_1,mem_range'_1,Nat.add_sub_cancel' h.size_le] at hr
    rcases hr with ⟨hge,hlt⟩ | ⟨hge,hlt⟩
    · exact ⟨le_self_add.trans hge, hlt⟩
    · exact ⟨hge, hlt.trans_le h.size_le⟩
  · rw [hall,nodup_append]
    refine ⟨nodup_range', nodup_range', fun a ha b hb heq => ?_⟩
    rw [mem_range'_1] at ha hb
    exact absurd (heq ▸ hb.2) (not_lt.2 ha.1)

end

section

variable {callees : Callees} {f : Frame} {span : Span} {d₀ d dt df d' : Draft} {test : Register}
  {flowT flowF flow : Flow}
variable {opsT opsF seam : List GuardedOp} {T : List Op} {side : Bool}

theorem provides_seam {moves : List Transfer} {frees : List (Register × Condition)} {n : Nat}
    (hseam : seam = moves.map (Transfer.op d.armCondition) ++ freeOps n frees) :
    (((seam.filter (·.condition == d.armCondition side)).map (·.op)).flatMap Op.provides) =
      (moves.filter (·.side == side)).map (·.dest) := by
  have hfrees : ((freeOps n frees).filter (·.condition == d.armCondition side)).flatMap
      (·.op.provides) = [] := by
    rw [flatMap_eq_nil_iff]
    intro g hg
    obtain ⟨p,-,rfl⟩ := mem_map.1 (mem_filter.1 hg).1
    rfl
  have hconds : ∀ b : Bool, (d.armCondition b == d.armCondition side) = (b == side) := by
    intro b
    cases b <;> cases side <;> simp [armCondition]
  rw [flatMap_map,hseam,filter_append,flatMap_append,hfrees,append_nil,filter_map,flatMap_map,
    map_eq_flatMap]
  simp only [Function.comp_def,Transfer.op,hconds]
  rfl

theorem Arms.onSide (h : Arms callees False d test dt df flowT flowF opsT opsF) (moves : List Transfer)
    {r : Register} (hlt : df.registers.resolve r < df.size)
    (hr : bif side then r < dt.size else r < d.size ∨ dt.size ≤ r) :
    OnSide dt.size df.size moves side (df.registers.resolve r) ∨
      df.registers.resolve r < d.size := by
  have hle : df.registers.resolve r ≤ r := h.onFalse.extend.wf.root_le r
  cases side with
  | true => exact .inl (.inl (hle.trans_lt hr))
  | false =>
    rcases hr with hold | hnew
    · exact .inr (hle.trans_lt hold)
    · exact .inl (.inl ⟨h.grows.root_fresh r hnew, hlt⟩)

theorem Arms.spread (h : Arms callees False d test dt df flowT flowF opsT opsF)
    (hbehind : Behind f span d dt df d' flowT flowF flow) (hseam : d'.ops = df.ops ++ seam)
    (hloom : flowT = .continues → flowF = .continues →
      Loom d.size dt.size df.registers.layout fun b => bif b then dt.scope else df.scope)
    (hsize : d₀.size ≤ d.size) (hT : d₀.Spread df T)
    (hside : ∀ r ∈ T.flatMap Op.provides,
      bif side then r < dt.size else r < d.size ∨ dt.size ≤ r) :
    d₀.Spread d' (T ++ (seam.filter (·.condition == d.armCondition side)).map (·.op)) := by
  rcases h.behind hbehind with ⟨hlayout,hops,-⟩ | ⟨rfl,rfl,-⟩
  · obtain rfl : seam = [] := self_eq_append_right.1 (hops.symm.trans hseam)
    exact (hT.of_layout hlayout).append_silent rfl
  · have hloom := hloom rfl rfl
    obtain ⟨_,moves,_,_,hwoven,hops⟩ := woven_of_merge hbehind.2 hloom
    have hprovides := @provides_seam d seam side _ _ _ (append_cancel_left (hseam.symm.trans hops))
    obtain ⟨hroots,hdests⟩ := hwoven.nodup_dests hloom hT.nodup (fun r hr => (hT.bound r hr).2.2) side
    refine ⟨hT.size_le.trans hwoven.size_le, fun r hr => ?_, ?_⟩
    · have hlt : d₀.size ≤ r ∧ r < d'.size := by
        rw [flatMap_append,hprovides,mem_append] at hr
        rcases hr with hr | hr
        · exact ⟨(hT.bound r hr).1, (hT.bound r hr).2.1.trans_le hwoven.size_le⟩
        · obtain ⟨m,hm,rfl⟩ := mem_map.1 hr
          obtain ⟨hge,hlt⟩ := hwoven.bound m (mem_filter.1 hm).1
          have hmid := h.grows_true.size_le.trans h.grows.size_le
          exact ⟨hsize.trans (hmid.trans hge), hlt⟩
      exact ⟨hlt.1, hlt.2, hwoven.wf.root_lt hlt.2⟩
    · rw [flatMap_append,hprovides]
      have hsides := fun r hr => h.onSide moves (hT.bound r hr).2.2 (hside r hr)
      exact hwoven.nodup_roots hloom hroots
        (forall_mem_append.2 ⟨hsides, fun r hr => .inl (hdests r hr)⟩)

end

end Draft

open Draft

/-- Names that were given since some start are among `own`, if they are looked after at all. -/
def Draft.OwnKept (own : Option (List String)) (d : Draft) : Prop :=
  ∀ xs, own = some xs → ∃ start : Draft, start.Valid ∧ start.Keeps xs d

section

variable {own : Option (List String)} {e : Draft} {ys : List String}

theorem Draft.OwnKept.map (h : OwnKept own d)
    (hkeeps : ∀ (start : Draft) xs, start.Valid → own = some xs → start.Keeps xs d →
      start.Keeps (xs ++ ys) e) :
    OwnKept (own.map (· ++ ys)) e := by
  intro zs hzs
  obtain ⟨xs,hxs,rfl⟩ := Option.map_eq_some_iff.1 hzs
  obtain ⟨start,hvalid,hkept⟩ := h xs hxs
  exact ⟨start, hvalid, hkeeps start xs hvalid hxs hkept⟩

theorem Draft.OwnKept.getD (h : OwnKept own d) (hd : d.Valid) : OwnKept (some (own.getD [])) d := by
  rintro xs hxs
  cases own with
  | none =>
    obtain rfl : [] = xs := by simpa using hxs
    exact ⟨d, hd, .refl hd⟩
  | some ys => exact h xs hxs

theorem Draft.Arms.loom_of_separate {ss : List Stmt}
    (h : Arms callees False d test dt df .continues .continues opsT opsF)
    (hF : Lowers callees f (.block ss) (d.armStart dt test false) .continues df)
    (hkept : OwnKept (some ys) (d.armStart dt test false))
    (hsep : (Code.block ss).separate (some ys) = true) :
    Loom d.size dt.size df.registers.layout fun b => bif b then dt.scope else df.scope := by
  obtain ⟨_,hvalid,hkept⟩ := hkept ys rfl
  have hsize : (d.armStart dt test false).size = dt.size := dt.registers.size_withLive _
  exact h.loom_of_keeps (hsize ▸ hkept.size_le) (hF.keeps hvalid hkept hsep rfl)

end

/-- Along a course no group is written twice, if bindings are separate. -/
theorem Course.spread {took : Condition → Prop} {T : List Op} {ended : Bool}
    (h : Course callees took f c d flow d' T ended) {own : Option (List String)}
    (hsep : c.separate own = true) (hkept : OwnKept own d) : d.Spread d' T := by
  induction h generalizing own with
  | @bind _ names value _ e rs line hd hvalue _ hline =>
    obtain ⟨line',hfills⟩ := value.line knowsTable_any hd hvalue
    obtain rfl := line_unique hfills.ops_eq hline
    obtain ⟨scope,heq⟩ := e.exists_giveNames (names.map (·.node)) rs
    have hspread := hfills.toFills.spread
    rw [heq]
    exact ⟨hspread.size_le, hspread.bound, hspread.nodup⟩
  | @run _ value _ _ line hd hvalue hline =>
    obtain ⟨line',hfills⟩ := value.line knowsTable_any hd hvalue
    obtain rfl := line_unique hfills.ops_eq hline
    exact hfills.toFills.spread
  | @exit _ _ _ e rs _ hd hvalues hline =>
    obtain ⟨line',hfills,-⟩ := exitValues_line knowsTable_any hd hvalues
    obtain rfl := line_unique hfills.ops_eq hline
    obtain ⟨registers,heq,hlayout⟩ := e.exists_leave rs
    refine (hfills.toFills.spread.of_layout ?_).append_silent rfl
    rw [heq]
    exact hlayout
  | @branch _ cond onTrue onFalse d₀ d dt df d' test flowT flowF flow _ _ seam line T side ended hd₀
      htest hline harms hbehind _ harm hseam hT hF ih =>
    obtain ⟨hrenews,-⟩ := cond.renews hd₀ htest
    obtain ⟨line',hfills⟩ := cond.line knowsTable_any hd₀ htest
    obtain rfl := line_unique hfills.ops_eq hline
    have hfirst := hfills.toFills.spread.append_silent
      (show [Op.branch test (d.armCondition true) (d.armCondition false)].flatMap
        Op.provides = [] from rfl)
    simp only [Code.separate,Stmt.separate,Bool.and_eq_true,Block.separate_eq] at hsep
    have hcond : OwnKept (own.map (· ++ cond.rebinds)) d :=
      hkept.map fun _ _ _ _ hkept => hkept.renews hd₀ hrenews
    have hstart : ∀ side, OwnKept (own.map (· ++ cond.rebinds)) (d.armStart dt test side) :=
      fun side xs hxs =>
      (hcond xs hxs).imp fun _ hkept => ⟨hkept.1, harms.keeps_start hkept.2 side⟩
    have hstartF : OwnKept (if onTrue.mustReturn || onFalse.mustReturn then own.map (· ++ cond.rebinds)
        else some ((own.map (· ++ cond.rebinds)).getD [])) (d.armStart dt test false) := by
      split
      · exact hstart false
      · exact (hstart false).getD harms.valid_resume
    have hsize : (d.armStart dt test false).registers.size = dt.registers.size :=
      dt.registers.size_withLive _
    have hloom : flowT = .continues → flowF = .continues →
        Loom d.registers.size dt.registers.size df.registers.layout fun b => bif b then dt.scope else
        df.scope := by
      rintro rfl rfl
      have hgoes : (onTrue.mustReturn || onFalse.mustReturn) = false := by
        have hT := hT.returns_iff
        have hF := hF.returns_iff
        rw [← Block.mustReturn_eq] at hT hF
        simpa using And.intro (mt hT.2 Flow.noConfusion) (mt hF.2 Flow.noConfusion)
      rw [hgoes] at hsep hstartF
      exact harms.loom_of_separate hF hstartF hsep.2
    have hpart : d₀.Spread df
      (line' ++ [.branch test (d.armCondition true) (d.armCondition false)] ++ T) ∧
        ∀ r ∈ T.flatMap Op.provides, bif side then r < dt.registers.size else dt.registers.size ≤ r := by
      cases side with
      | true =>
        have harm := ih hsep.1 (hstart true)
        exact ⟨((hfirst.widen (harms.grows_start true)).trans harm harms.onTrue.extend.grows).widen
          harms.grows,
          fun r hr => (harm.bound r hr).2.1⟩
      | false =>
        have harm := ih hsep.2 hstartF
        exact ⟨(hfirst.widen (harms.grows_start false)).trans harm harms.onFalse.extend.grows,
          fun r hr => hsize ▸ (harm.bound r hr).1⟩
    have hwritten :
      ∀ r ∈ (line' ++ [Op.branch test (d.armCondition true) (d.armCondition false)] ++ T).flatMap
      Op.provides,
        bif side then r < dt.registers.size else r < d.registers.size ∨ dt.registers.size ≤ r := by
      intro r hr
      rw [flatMap_append,mem_append] at hr
      rcases hr with hr | hr
      · have hlt := (hfirst.bound r hr).2.1
        cases side with
        | true => exact hlt.trans_le harms.grows_true.size_le
        | false => exact .inl hlt
      · have hr := hpart.2 r hr
        cases side with
        | true => exact hr
        | false => exact .inr hr
    have hall := harms.spread hbehind hseam hloom hrenews.size_le hpart.1 hwritten
    cases ended with
    | true => exact hall.left.append_silent rfl
    | false => exact hall
  | loop hdetour => exact hdetour.spread
  | nil => exact .nil
  | last _ ih =>
    simp only [Code.separate,separateStmts,Bool.and_eq_true] at hsep
    exact ih hsep.1 hkept
  | stop hgrows _ ih =>
    simp only [Code.separate,separateStmts,Bool.and_eq_true] at hsep
    exact (ih hsep.1 hkept).widen hgrows
  | @cons _ _ _ e d' _ _ _ T' _ hgrows hfrees _ _ hfirst ih ih' =>
    simp only [Code.separate,separateStmts,Bool.and_eq_true] at hsep
    have hswept := ih' hsep.2 (hkept.map fun start xs hvalid hxs hkept =>
      (hfirst.keeps hvalid hkept (hxs ▸ hsep.1) rfl).swept)
    have hsize : (e.swept f).registers.size = e.registers.size :=
      congrArg Layout.size (e.freeAll_spec f _).2.2.2.2.2.1
    have hrest : e.Spread d' T' := ⟨hsize ▸ hswept.size_le, hsize ▸ hswept.bound, hswept.nodup⟩
    refine ((ih hsep.1 hkept).append_silent (flatMap_eq_nil_iff.2 fun op hop => ?_)).trans hrest hgrows
    obtain ⟨r,_,rfl⟩ := hfrees op hop
    rfl

namespace Draft

/-- Operations that have been added write registers that have been added. -/
structure Adds (d d' : Draft) : Prop where
  size_le : d.registers.size ≤ d'.registers.size
  writes : ∀ g ∈ d'.ops, g ∈ d.ops ∨ ∀ t ∈ g.op.provides, d.registers.size ≤ t

section

variable {e : Draft} {line : List Op} {xs : List String}

theorem Adds.trans (h : d.Adds e) (h' : e.Adds d') : d.Adds d' where
  size_le := h.size_le.trans h'.size_le
  writes g hg := by
    rcases h'.writes g hg with hg | hg
    · exact h.writes g hg
    · exact .inr fun t ht => h.size_le.trans (hg t ht)

theorem Adds.silent {ops : List GuardedOp} (hsize : d'.size = d.size) (hops : d'.ops = d.ops ++ ops)
    (hsilent : ∀ g ∈ ops, g.op.provides = []) : d.Adds d' where
  size_le := hsize.symm.le
  writes g hg := by
    rw [hops,mem_append] at hg
    refine hg.imp_right fun hg t ht => ?_
    simp [hsilent g hg] at ht

theorem provides_freeOps {n : Nat} {frees : List (Register × Condition)} :
    ∀ g ∈ freeOps n frees, g.op.provides = [] := by
  intro g hg
  obtain ⟨p,-,rfl⟩ := mem_map.1 hg
  rfl

theorem Fills.adds (h : d.Fills e line) : d.Adds e where
  size_le := h.size_le
  writes g hg := by
    rw [h.ops_eq,mem_append] at hg
    refine hg.imp_right fun hg t ht => ?_
    obtain ⟨_,hop,rfl⟩ := mem_map.1 hg
    have hmem := mem_flatMap_of_mem hop ht
    rw [h.provides] at hmem
    exact (mem_range'_1.1 hmem).1

theorem Detour.adds (h : Detour known d d' t callee slot done captures sources line) : d.Adds d' where
  size_le := le_self_add.trans h.size_le
  writes g hg := by
    rw [h.ops_eq,mem_append] at hg
    refine hg.imp_right fun hg r hr => ?_
    simp only [aroundOps,mem_append,mem_map,mem_singleton] at hg
    rcases hg with ⟨op,hop,rfl⟩ | rfl | ⟨_,rfl,rfl⟩ | ⟨_,⟨p,hp,rfl⟩,rfl⟩
    · have hmem := mem_flatMap_of_mem hop hr
      rw [h.fills] at hmem
      exact le_self_add.trans (mem_range'_1.1 hmem).1
    · cases hr
    · exact (mem_range'_1.1 hr).1
    · obtain ⟨i,-,-,hdest⟩ := mem_crossing hp
      rw [mem_singleton.1 hr]
      exact (mem_range'_1.1 (mem_of_getElem? hdest)).1

theorem Turning.adds (h : Turning known params d d' mid t values garbage line) : d.Adds d' where
  size_le := h.grows.size_le
  writes g hg := by
    rw [h.ops_eq,mem_append] at hg
    refine hg.imp_right fun hg r hr => ?_
    simp only [mem_append,mem_map,mem_cons,not_mem_nil,or_false] at hg
    rcases hg with ⟨_,hop,rfl⟩ | rfl | rfl | rfl
    · have hmem := mem_flatMap_of_mem hop hr
      rw [h.fills] at hmem
      exact (mem_range'_1.1 hmem).1
    · cases hr
    · cases hr
    · cases hr

theorem Arms.adds {span : Span} {flowT flowF : Flow}
    (h : Arms callees False d test dt df flowT flowF opsT opsF)
    (hbehind : Behind f span d dt df d' flowT flowF flow) : df.Adds d' := by
  rcases h.behind hbehind with ⟨hlayout,hops,-⟩ | ⟨-,-,_,_,hreunion⟩
  · exact .silent (congrArg Layout.size hlayout) (by rw [hops,append_nil]) (by simp)
  · refine ⟨hreunion.blends.size_le, fun g hg => ?_⟩
    rw [hreunion.ops_eq,append_assoc,mem_append,mem_append] at hg
    refine hg.imp_right fun hg t ht => ?_
    rcases hg with hg | hg
    · obtain ⟨m,hm,rfl⟩ := mem_map.1 hg
      rw [mem_singleton.1 ht]
      exact hreunion.blends.new m hm
    · simp [provides_freeOps g hg] at ht

end

end Draft

theorem Lowers.adds (h : Lowers callees f c d flow d') : d.Adds d' := by
  induction h with
  | @bind _ _ names value _ e rs hd hvalue =>
    obtain ⟨line,hline⟩ := value.line knowsTable_any hd hvalue
    obtain ⟨scope,heq⟩ := e.exists_giveNames (names.map (·.node)) rs
    rw [heq]
    exact ⟨hline.size_le, hline.toFills.adds.writes⟩
  | @run _ _ value _ _ hd hvalue =>
    obtain ⟨line,hline⟩ := value.line knowsTable_any hd hvalue
    exact hline.toFills.adds
  | @exit _ _ _ _ e rs hd _ hvalues =>
    obtain ⟨line,hline,-⟩ := exitValues_line knowsTable_any hd hvalues
    obtain ⟨registers,heq,hlayout⟩ := e.exists_leave rs
    rw [heq]
    exact hline.toFills.adds.trans (.silent (congrArg Layout.size hlayout) rfl (by simp [Op.provides]))
  | @branch _ _ cond _ _ _ d dt _ _ test _ _ _ _ _ hd₀ htest _ harms _ _ hbehind ihT ihF =>
    obtain ⟨line,hline⟩ := cond.line knowsTable_any hd₀ htest
    have hfork : d.Adds (d.fork test) := .silent rfl rfl (by simp [Op.provides])
    have hresume : dt.Adds (d.second dt) :=
      .silent (dt.registers.size_withLive _) (append_nil _).symm (by simp)
    exact hline.toFills.adds.trans
      (hfork.trans (ihT.trans (hresume.trans (ihF.trans (harms.adds hbehind)))))
  | @loop f _ _ _ _ _ _ _ _ _ _ _ hd hcaptures hcount _ _ _ _ hsite =>
    obtain ⟨t,_,_,_,_,hdetour⟩ := detour_of_encloses hsite knowsTable_any hd
      (nodup_orderedSet _) hcount hcaptures
    exact hdetour.adds
  | nil => exact .silent rfl (append_nil _).symm (by simp)
  | last _ ih => exact ih
  | @cons f _ _ _ e _ _ _ _ _ _ _ _ _ _ ih ih' =>
    obtain ⟨-,-,-,-,hops,hlayout,-⟩ := e.freeAll_spec f
      ((e.registers.unreachable (e.scope.reachable e.registers)).map fun r => (r, e.current))
    exact ih.trans (Adds.trans (.silent (congrArg Layout.size hlayout) hops provides_freeOps) ih')

section

variable {log : List Event} {T : List Op}

section

variable (hgrows : (start f.params log).registers.layout.Grows d'.registers.layout)

include hgrows

theorem resolve_param {k : Nat} (hk : k < f.params.length) : d'.registers.resolve k = k := by
  have hlt : k < (start f.params log).registers.size := by rwa [size_start]
  exact (hgrows.root_old k hlt).trans ((entry_start f.params log).1.root k)

theorem size_le_resolve
    (ht : (start f.params log).size ≤ t) : f.params.length ≤ d'.registers.resolve t :=
  size_start f.params log ▸ hgrows.root_fresh t ht

end

theorem Draft.Adds.slot_ne (h : (start f.params log).Adds d')
    (hgrows : (start f.params log).registers.layout.Grows d'.registers.layout) :
    ∀ g ∈ (d'.routine f).ops, ∀ t ∈ g.op.provides, ∀ k < (d'.routine f).paramCount,
      (d'.routine f).slot t ≠ (d'.routine f).slot k := by
  intro g hg t ht k hk heq
  rw [Routine.slot_eq (f := d'.registers) rfl,resolve_param hgrows hk] at heq
  have hnew := (h.writes g hg).resolve_left (by simp [start]) t ht
  exact absurd hk (not_lt.2 (heq ▸ size_le_resolve hgrows hnew))

theorem Draft.Spread.fills_once (h : (start f.params log).Spread d' T)
    (hgrows : (start f.params log).registers.layout.Grows d'.registers.layout) :
    ((List.range (d'.routine f).paramCount).map (d'.routine f).slot ++
      writes (d'.routine f).slot T).Nodup := by
  have hparams : (List.range f.params.length).map d'.registers.resolve = List.range f.params.length := by
    conv_rhs => rw [← map_id (List.range f.params.length)]
    exact map_congr_left fun k hk => resolve_param hgrows (mem_range.1 hk)
  rw [Routine.slot_eq (f := d'.registers) rfl,writes,← map_flatMap,
    show (d'.routine f).paramCount = f.params.length from rfl,hparams,nodup_append]
  refine ⟨nodup_range, h.nodup, fun a ha b hb heq => ?_⟩
  obtain ⟨t,ht,rfl⟩ := mem_map.1 hb
  exact absurd (mem_range.1 ha) (not_lt.2 (heq ▸ size_le_resolve hgrows (h.bound t ht).1))

end

mutual
theorem Stmt.separate_loops : (s : Stmt) → {own : Option (List String)} → s.separate own = true →
    ∀ p ∈ s.loops, p.2.separate none = true
  | .bind _ _ _, _, _ | .run _ _, _, _ | .ret _ _, _, _ => by simp [Stmt.loops]
  | .branch _ _ onTrue onFalse, own, h => by
    simp only [Stmt.separate,Bool.and_eq_true] at h
    rw [Stmt.loops]
    exact forall_mem_append.2 ⟨onTrue.separate_loops h.1, onFalse.separate_loops h.2⟩
  | .loop _ _ body, own, h => by
    rw [Stmt.loops]
    exact forall_mem_cons.2 ⟨h, body.separate_loops h⟩

theorem Block.separate_loops : (b : Block) → {own : Option (List String)} → b.separate own = true →
    ∀ p ∈ b.loops, p.2.separate none = true
  | ⟨_, stmts⟩, _, h => separateStmts_loops stmts h

theorem separateStmts_loops :
    (ss : List Stmt) → {own : Option (List String)} → separateStmts own ss = true →
    ∀ p ∈ loopsOfStmts ss, p.2.separate none = true
  | [], _, _ => by simp [loopsOfStmts]
  | s :: ss, own, h => by
    simp only [separateStmts,Bool.and_eq_true] at h
    rw [loopsOfStmts]
    exact forall_mem_append.2 ⟨s.separate_loops h.1, separateStmts_loops ss h.2⟩
end

section

variable {callees : Callees} {table : SignatureTable} {r : Routine}

theorem Closure.fillsOnce {loops : List (Expr × Block)} {all : List Routine}
    (h : Closure callees table loops all r) :
    (∀ g ∈ r.ops, ∀ t ∈ g.op.provides, ∀ k < r.paramCount, r.slot t ≠ r.slot k) ∧
      ((∀ p ∈ loops, p.2.separate none = true) → r.FillsOnce) := by
  obtain ⟨f,_,body,_,_,_,_,hmem,-,-,-,-,hadvance,hbody,hround,-,rfl⟩ := h
  obtain ⟨_,t,_,_,_,hturning,hwalks⟩ := hround.walks hadvance hbody
  have hgrows := hadvance.extend.grows.trans hturning.grows
  refine ⟨(hbody.adds.trans hturning.adds).slot_ne hgrows, fun hsep p hp => ?_⟩
  obtain ⟨v,hv,rfl⟩ := mem_map.1 hp
  obtain ⟨-,T,_,_,hcourse,htrace,hrest⟩ := hwalks v hv
  have hbody := hcourse.spread (body.separate_eq none ▸ hsep _ hmem) (by simp [OwnKept])
  refine Draft.Spread.fills_once ?_ hgrows
  rw [htrace]
  rcases hrest with rfl | ⟨-,_,hexit,rfl⟩
  · exact (hbody.widen hturning.grows).append_silent rfl
  · refine hbody.trans ((hturning.spread.append_silent rfl).append_silent ?_) hturning.grows
    rcases hexit with rfl | rfl <;> rfl

theorem routine_fillsOnce {d : Decl} {body : Block} {log : List Event} {l : Lowered}
    (h : lowerFunction table d body log = .ok l) :
    (∀ g ∈ l.routine.ops, ∀ t ∈ g.op.provides, ∀ k < l.routine.paramCount,
      l.routine.slot t ≠ l.routine.slot k) ∧ (body.separate none = true → l.routine.FillsOnce) := by
  obtain ⟨_,_,_,-,hadvance,hbody,rfl⟩ := lowers_of_lowerFunction h
  refine ⟨hbody.adds.slot_ne (f := d.frame table) hadvance.extend.grows, fun hsep p hp => ?_⟩
  obtain ⟨v,hv,rfl⟩ := mem_map.1 hp
  have hspread := (hbody.course_start hv fun _ _ => trivial).spread (body.separate_eq none ▸ hsep)
    (by simp [OwnKept])
  exact Draft.Spread.fills_once (f := d.frame table) hspread hadvance.extend.grows

/-- No operation of a function or a closure writes the slot of a parameter. If bindings are separate,
then no path writes a slot twice. -/
theorem single_writer {d : Decl} {body : Block} {log : List Event} {l : Lowered}
    (h : lowerFunction table d body log = .ok l) (hr : r ∈ l.routine :: l.closures) :
    (∀ g ∈ r.ops, ∀ t ∈ g.op.provides, ∀ k < r.paramCount, r.slot t ≠ r.slot k) ∧
      (body.separate none = true → r.FillsOnce) := by
  rcases mem_cons.1 hr with rfl | hr
  · exact routine_fillsOnce h
  · obtain ⟨hprovides,honce⟩ := (closure_of_lowerFunction h hr).1.fillsOnce
    exact ⟨hprovides, fun hsep => honce (body.separate_loops hsep)⟩

end

/-- `func blend(c: Boolean, n: Integer): (Integer, Integer)` -/
def blend : Decl where
  span := .nowhere
  name := bare "blend"
  isSync := false
  isNative := false
  params := [⟨bare "c", bare (.owned .boolean)⟩, ⟨bare "n", bare (.owned .integer)⟩]
  returns := [bare (.owned .integer), bare (.owned .integer)]
  body := none

/-- `if c { let a = 1 let b = a } else { let a = 2 let b = n } while c { let c = a < b } return (a,
b)` -/
def blendBody : Block where
  span := .nowhere
  stmts :=
    [.branch .nowhere (.name .nowhere "c")
        ⟨.nowhere, [.bind .nowhere [bare "a"] (.integer .nowhere 1), .bind .nowhere [bare "b"]
          (.name .nowhere "a")]⟩
        ⟨.nowhere, [.bind .nowhere [bare "a"] (.integer .nowhere 2), .bind .nowhere [bare "b"]
          (.name .nowhere "n")]⟩,
      .loop .nowhere (.name .nowhere "c")
        ⟨.nowhere, [.bind .nowhere [bare "c"]
          (.compare .nowhere .lt (.name .nowhere "a") (.name .nowhere "b"))]⟩,
      .ret .nowhere (some (.tuple .nowhere [.name .nowhere "a", .name .nowhere "b"]))]

def blended : Lowered :=
  match lowerFunction .empty blend blendBody [] with
  | .ok l => l
  | .error halt => ⟨.native blend.name.node false [] [], [], halt.log⟩

theorem lowerFunction_blend : lowerFunction .empty blend blendBody [] = .ok blended := by cbv

/-- The first arm may give one value two names, and the second may give a name to what it was given. -/
theorem blend_single_writer : blendBody.separate none = true ∧ blended.closures.length = 1 ∧
    ∀ r ∈ blended.routine :: blended.closures, r.FillsOnce :=
  have hsep : blendBody.separate none = true := by decide +kernel
  ⟨hsep, by decide +kernel, fun _ hr => (single_writer lowerFunction_blend hr).2 hsep⟩

/-- A value of the second arm with two names takes the values that they have on the first into one
slot. -/
theorem slot_written_twice : lowerFunction .empty both bothBody [] = .ok joined ∧
    ∃ p ∈ joined.routine.paths, ¬(writes joined.routine.slot p).Nodup :=
  ⟨lowerFunction_both, by decide +kernel⟩

end Polled
