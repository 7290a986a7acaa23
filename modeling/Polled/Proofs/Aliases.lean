import Polled.Proofs.Courses
import Polled.Proofs.Knots

/-!
Names for one register.

A variable that is bound to the value of another shares its register. If the second arm of a branch binds
no variable to one that it has bound itself (`Block.separate`), then no group that is new there has two
names (`Lowers.keeps`).
-/

namespace Polled

open Lower List

variable {r : Register} {f : Frame} {start : Draft} {own : List String}

mutual
/-- The variables that may stand for something else behind a statement. -/
def Stmt.binds : Stmt → List String
  | .bind _ names value => value.rebinds ++ names.map (·.node)
  | .run _ value => value.rebinds
  | .ret _ _ => []
  | .branch _ cond onTrue onFalse => cond.rebinds ++ (onTrue.binds ++ onFalse.binds)
  | .loop _ cond body => cond.rebinds ++ loopNames cond body

def Block.binds : Block → List String
  | ⟨_, stmts⟩ => bindsOfStmts stmts

def bindsOfStmts : List Stmt → List String
  | [] => []
  | s :: ss => s.binds ++ bindsOfStmts ss
end

mutual
/-- In a second arm that has bound the variables `own`, none of them is bound to another name. The body
of a loop stands for itself, and an arm counts only if both go on. -/
def Stmt.separate : Option (List String) → Stmt → Bool
  | own, .bind _ _ value =>
    own.all fun own => value.copies.all fun x => !(own ++ value.rebinds).contains x
  | own, .branch _ cond onTrue onFalse =>
    onTrue.separate (own.map (· ++ cond.rebinds)) &&
      onFalse.separate (if onTrue.mustReturn || onFalse.mustReturn then own.map (· ++ cond.rebinds)
        else some ((own.map (· ++ cond.rebinds)).getD []))
  | _, .loop _ _ body => body.separate none
  | _, _ => true

def Block.separate : Option (List String) → Block → Bool
  | own, ⟨_, stmts⟩ => separateStmts own stmts

def separateStmts : Option (List String) → List Stmt → Bool
  | _, [] => true
  | own, s :: ss => s.separate own && separateStmts (own.map (· ++ s.binds)) ss
end

namespace Code

def binds : Code → List String
  | .stmt s => s.binds
  | .block ss => bindsOfStmts ss

def separate (own : Option (List String)) : Code → Bool
  | .stmt s => s.separate own
  | .block ss => separateStmts own ss

end Code

theorem Block.binds_eq (b : Block) : b.binds = Code.binds (.block b.stmts) := by
  obtain ⟨_,_⟩ := b
  rw [Block.binds,Code.binds]

theorem Block.separate_eq (own : Option (List String)) (b : Block) :
    b.separate own = Code.separate own (.block b.stmts) := by
  obtain ⟨_,_⟩ := b
  rw [Block.separate,Code.separate]

namespace Draft

/-- Since `start`, only the names `own` have come to stand for something else, and none of the groups
made since then has two names. -/
structure Keeps (start : Draft) (own : List String) (d : Draft) : Prop where
  size_le : start.registers.size ≤ d.registers.size
  old : ∀ x r, d.scope.get? x = some r → x ∉ own → ∃ t, start.scope.get? x = some t ∧
    d.registers.resolve r = start.registers.resolve t
  sole : ∀ x y r s, d.scope.get? x = some r → d.scope.get? y = some s →
    d.registers.resolve r = d.registers.resolve s → start.registers.size ≤ d.registers.resolve r → x = y

/-- Values that can be given names: no name has their group, unless it is an old one. -/
structure Offers (start d : Draft) (rs : List Register) : Prop where
  unnamed : ∀ r ∈ rs, start.registers.size ≤ d.registers.resolve r → ¬d.Named r
  apart : rs.Pairwise fun r s => start.registers.size ≤ d.registers.resolve r →
    d.registers.resolve r ≠ d.registers.resolve s

section

variable {start d e : Draft} {own xs : List String} {rs : List Register}

theorem Valid.resolve_lt (hd : d.Valid) {x : String} (hx : d.scope.get? x = some r) :
    d.registers.resolve r < d.size :=
  hd.sound.wf.root_lt (hd.sound.lt_of_scope hx)

theorem Keeps.refl (hd : d.Valid) : d.Keeps [] d where
  size_le := le_rfl
  old _ r hx _ := ⟨r, hx, rfl⟩
  sole _ _ _ _ hx _ _ hge := absurd (hd.resolve_lt hx) (not_lt.2 hge)

section

variable (h : start.Keeps own d)

include h

theorem Keeps.mono (hsub : own ⊆ xs) : start.Keeps xs d :=
  { h with old := fun x r hx hnot => h.old x r hx fun hmem => hnot (hsub hmem) }

theorem Keeps.lt_size (hstart : start.Valid) {x : String} {r : Register} (hx : d.scope.get? x = some r)
    (hnot : x ∉ own) :
    d.registers.resolve r < start.size := by
  obtain ⟨t,ht,heq⟩ := h.old x r hx hnot
  rw [heq]
  exact hstart.resolve_lt ht

theorem Keeps.widen (hd : d.Valid) (hscope : e.scope = d.scope)
    (hgrows : d.registers.layout.Grows e.registers.layout) :
    start.Keeps own e := by
  have hroot : ∀ x r, d.scope.get? x = some r → e.registers.resolve r = d.registers.resolve r :=
    fun x r hx =>
    hgrows.root_old r (hd.sound.lt_of_scope hx)
  refine ⟨h.size_le.trans hgrows.size_le, fun x r hx hnot => ?_, fun x y r s hx hy heq hge => ?_⟩
  · rw [hscope] at hx
    rw [hroot x r hx]
    exact h.old x r hx hnot
  · rw [hscope] at hx hy
    rw [hroot x r hx] at heq hge
    rw [hroot y s hy] at heq
    exact h.sole x y r s hx hy heq hge

theorem Keeps.swept : start.Keeps own (d.swept f) := by
  obtain ⟨hscope,-,-,-,-,hlayout,-⟩ := d.freeAll_spec f
    ((d.registers.unreachable (d.scope.reachable d.registers)).map fun r => (r, d.current))
  have hresolve : (d.swept f).registers.resolve = d.registers.resolve := congrArg Layout.root hlayout
  refine ⟨h.size_le.trans (congrArg Layout.size hlayout).symm.le, ?_, ?_⟩
  · rw [hresolve,Draft.swept,hscope]
    exact h.old
  · rw [hresolve,Draft.swept,hscope]
    exact h.sole

theorem Keeps.renews (hd : d.Valid) (he : d.Renews e xs) : start.Keeps (own ++ xs) e := by
  -- a register that is new stands for itself, and an old one does not stand for a new one
  have hnew : ∀ r, d.size ≤ r → e.registers.resolve r = r := fun r hr =>
    (congrFun he.resolve_eq r).trans (hd.sound.wf.root_new r hr)
  have hold : ∀ x r, d.scope.get? x = some r → e.registers.resolve r < d.size := fun x r hx =>
    (congrFun he.resolve_eq r) ▸ hd.resolve_lt hx
  refine ⟨h.size_le.trans he.size_le, fun x r hx hnot => ?_, fun x y r s hx hy heq hge => ?_⟩
  · simp only [mem_append,not_or] at hnot
    rw [he.resolve_eq]
    exact h.old x r ((he.names x r hx).resolve_right fun hnew => hnot.2 hnew.1) hnot.1
  · rcases he.names x r hx with hx' | ⟨-,hr⟩
    · rcases he.names y s hy with hy' | ⟨-,hs⟩
      · rw [he.resolve_eq] at heq hge
        exact h.sole x y r s hx' hy' heq hge
      · have hlt := hold x r hx'
        rw [heq,hnew s hs] at hlt
        exact absurd hlt (not_lt.2 hs)
    · rcases he.names y s hy with hy' | ⟨-,hs⟩
      · have hlt := hold y s hy'
        rw [← heq,hnew r hr] at hlt
        exact absurd hlt (not_lt.2 hr)
      · rw [hnew r hr,hnew s hs] at heq
        subst heq
        exact he.sole x y r hx hy hr

theorem Keeps.giveName (hsorted : d.scope.Sorted) (x : String) (hoffers : start.Offers d (r :: rs)) :
    start.Keeps (own ++ [x]) (d.giveName x r) ∧ start.Offers (d.giveName x r) rs := by
  have hscope : ∀ {y t}, (d.giveName x r).scope.get? y = some t → y = x ∧ t = r ∨ y ≠ x ∧
      d.scope.get? y = some t :=
    fun hy => ((get?_giveName hsorted).1 hy).imp_right fun hy => ⟨hy.1, hy.2.1⟩
  have hfree := hoffers.unnamed r mem_cons_self
  have hapart := pairwise_cons.1 hoffers.apart
  refine ⟨⟨h.size_le, fun y t hy hnot => ?_, fun y z t s hy hz heq hge => ?_⟩,
    ⟨fun s hs hge => ?_, hapart.2⟩⟩
  · simp only [mem_append,mem_singleton,not_or] at hnot
    exact h.old y t ((hscope hy).resolve_left fun hy => hnot.2 hy.1).2 hnot.1
  · rcases hscope hy with ⟨rfl,rfl⟩ | ⟨-,hy'⟩
    · rcases hscope hz with ⟨rfl,-⟩ | ⟨-,hz'⟩
      · rfl
      · exact absurd ⟨z, s, hz', heq.symm⟩ (hfree hge)
    · rcases hscope hz with ⟨rfl,rfl⟩ | ⟨-,hz'⟩
      · exact absurd ⟨y, t, hy', heq⟩ (hfree (hge.trans heq.le))
      · exact h.sole y z t s hy' hz' heq hge
  · rintro ⟨y,t,hy,heq⟩
    rcases hscope hy with ⟨-,rfl⟩ | ⟨-,hy⟩
    · exact hapart.1 s hs (hge.trans heq.symm.le) heq
    · exact hoffers.unnamed s (mem_cons_of_mem _ hs) hge ⟨y, t, hy, heq⟩

theorem Keeps.giveNames (hsorted : d.scope.Sorted) (hoffers : start.Offers d rs) :
    start.Keeps (own ++ xs) (d.giveNames xs rs) := by
  induction xs generalizing d own rs with
  | nil => exact h.mono (subset_append_left _ _)
  | cons x xs ih =>
    cases rs with
    | nil => exact h.mono (subset_append_left _ _)
    | cons r rs =>
      obtain ⟨hnext,hrest⟩ := h.giveName hsorted x hoffers
      have hall := ih hnext (sorted_giveName hsorted x) hrest
      rwa [append_assoc] at hall

end

theorem Hands.offers {copies : List String} (h : d.Hands e copies rs) (hstart : start.Valid)
    (hd : d.Valid) (hkeeps : start.Keeps own d) (hrenews : d.Renews e xs)
    (hfree : ∀ x ∈ copies, x ∉ own) : start.Offers e rs := by
  have hroot : ∀ r, d.size ≤ r → e.registers.resolve r = r := fun r hr =>
    (congrFun hrenews.resolve_eq r).trans (hd.sound.wf.root_new r hr)
  have hnew : ∀ r ∈ rs, start.size ≤ e.registers.resolve r →
      d.size ≤ r ∧ ∀ x, e.scope.get? x ≠ some r := by
    intro r hr hge
    rcases h.origin r hr with ⟨x,hx,hxr⟩ | ⟨hsize,-,hnone⟩
    · rw [hrenews.resolve_eq] at hge
      exact absurd (hkeeps.lt_size hstart hxr (hfree x hx)) (not_lt.2 hge)
    · exact ⟨hsize, hnone⟩
  refine ⟨fun r hr hge => ?_, (pairwise_filter.1 h.nodup).imp_of_mem fun {r s} hr hs hdiff hge heq => ?_⟩
  · obtain ⟨hsize,hnone⟩ := hnew r hr hge
    rintro ⟨x,t,hx,heq⟩
    rw [hroot r hsize] at heq
    rcases hrenews.names x t hx with hx' | ⟨-,ht⟩
    · have hlt := hd.resolve_lt hx'
      rw [← hrenews.resolve_eq,heq] at hlt
      exact absurd hlt (not_lt.2 hsize)
    · rw [hroot t ht] at heq
      exact hnone x (heq ▸ hx)
  · have hr := (hnew r hr hge).1
    have hs := (hnew s hs (hge.trans heq.le)).1
    rw [hroot r hr,hroot s hs] at heq
    exact hdiff (decide_eq_true hr) (decide_eq_true hs) heq

end

section

variable {callees : Callees} {d dt df d' : Draft} {test : Register} {flowT flowF flow : Flow}
  {opsT opsF : List GuardedOp}

section

variable (h : Arms callees False d test dt df .continues .continues opsT opsF)

include h

theorem Arms.loom (hsole : ∀ x y u v, df.scope.get? x = some u → df.scope.get? y = some v →
      df.registers.resolve u = df.registers.resolve v → dt.size ≤ df.registers.resolve u → x = y) :
    Loom d.size dt.size df.registers.layout fun b => bif b then dt.scope else df.scope := by
  have hsplit : ∀ x u, df.scope.get? x = some u →
      df.registers.resolve u < d.size ∨ dt.size ≤ df.registers.resolve u := by
    intro x u hu
    have hfresh : dt.size ≤ u → dt.size ≤ df.registers.resolve u := h.grows.root_fresh u
    rcases h.onFalse.extend.origin x u hu with hge | ⟨y,t,ht,heq⟩
    · rw [show (d.second dt).registers.size = dt.size from
        dt.registers.size_withLive _] at hge
      exact .inr (hfresh hge)
    · rcases lt_or_ge u dt.size with hlt | hge
      · have hroot : dt.registers.resolve t = dt.registers.resolve u := by
          simpa [resume,under] using heq
        refine .inl ?_
        rw [h.grows.resolve hlt,← hroot,h.grows_true.resolve (h.valid.sound.lt_of_scope ht)]
        exact h.valid.resolve_lt ht
      · exact .inr (hfresh hge)
  refine ⟨h.onFalse.extend.wf, h.grows_true.size_le, h.grows.size_le,
    fun x t ht => h.valid_true.sound.lt_of_scope ht,
    fun x u hu => h.valid_false.sound.lt_of_scope hu, hsplit, fun x y u v hu hv heq hge => ?_⟩
  exact hsole x y u v hu hv heq ((hsplit x u hu).resolve_left (not_lt.2 hge))

theorem Arms.loom_of_keeps (hsize : start.size ≤ dt.size) (hF : start.Keeps own df) :
    Loom d.size dt.size df.registers.layout fun b => bif b then dt.scope else df.scope :=
  h.loom fun x y u v hu hv heq hge => hF.sole x y u v hu hv heq (hsize.trans hge)

omit h in
theorem Arms.keeps_start (h : Arms callees False d test dt df flowT flowF opsT opsF)
    (hkept : start.Keeps own d) (side : Bool) : start.Keeps own (d.armStart dt test side) :=
  hkept.widen h.valid (scope_armStart d dt test side) (h.grows_start side)

theorem Arms.keeps {span : Span} {ownT ownF : List String}
    (hbehind : Behind f span d dt df d' .continues .continues flow) (hsize : start.size ≤ d.size)
    (hT : start.Keeps ownT dt) (hF : start.Keeps ownF df) : start.Keeps (ownT ++ ownF) d' := by
  have hmid : start.size ≤ dt.size := hsize.trans h.grows_true.size_le
  have hloom := h.loom_of_keeps hmid hF
  obtain ⟨_,_,_,_,hwoven,-⟩ := woven_of_merge hbehind.2 hloom
  have hold : ∀ x t, dt.scope.get? x = some t → df.registers.resolve t = dt.registers.resolve t :=
    fun x t ht =>
    h.grows.root_old t (h.valid_true.sound.lt_of_scope ht)
  refine ⟨hF.size_le.trans hwoven.size_le, fun x j hj hnot => ?_, fun x y j i hj hi heq hge => ?_⟩
  · simp only [mem_append,not_or] at hnot
    obtain ⟨t,u,ht,hu,hcase⟩ := hwoven.joined hloom hj
    obtain ⟨r,hr,hroot⟩ := hT.old x t ht hnot.1
    obtain ⟨_,hr',hroot'⟩ := hF.old x u hu hnot.2
    obtain rfl := Option.some.inj (hr.symm.trans hr')
    have hsame : df.registers.resolve t = start.registers.resolve r := (hold x t ht).trans hroot
    rcases hcase with ⟨hjoined,-,-⟩ | ⟨hdiff,-,-⟩
    · exact ⟨r, hr, hjoined.symm.trans hsame⟩
    · exact absurd (hsame.trans hroot'.symm) hdiff
  · obtain ⟨t,u,ht,_,hcase⟩ := hwoven.joined hloom hj
    obtain ⟨t',_,ht',_,hcase'⟩ := hwoven.joined hloom hi
    rcases hcase with ⟨hjoined,-,-⟩ | ⟨-,-,halone⟩
    · rcases hcase' with ⟨hjoined',-,-⟩ | ⟨-,-,halone⟩
      · -- both names are what they were on the first arm
        have hjoined : dt.registers.resolve t = d'.registers.resolve j :=
          (hold x t ht).symm.trans hjoined
        have hjoined' : dt.registers.resolve t' = d'.registers.resolve i :=
          (hold y t' ht').symm.trans hjoined'
        refine hT.sole x y t t' ht ht' ?_ (hjoined ▸ hge)
        rw [hjoined,hjoined',heq]
      · exact halone x j hj heq
    · exact (halone y i hi heq.symm).symm

end

end

end Draft

open Draft

/-- Code whose bindings are separate gives no new group two names. -/
theorem Lowers.keeps {callees : Callees} {c : Code} {d d' : Draft} {flow : Flow}
    (h : Lowers callees f c d flow d') (hstart : start.Valid) (hkeeps : start.Keeps own d)
    (hsep : c.separate (some own) = true) (hflow : flow = .continues) :
    start.Keeps (own ++ c.binds) d' := by
  induction h generalizing own with
  | @bind f _ names value _ e rs hd hvalue =>
    have hfree : ∀ x ∈ value.copies, x ∉ own ∧ x ∉ value.rebinds := by
      simpa [Code.separate,Stmt.separate] using hsep
    obtain ⟨hrenews,hhands⟩ := value.renews hd hvalue
    obtain ⟨⟨_,hstraight⟩,-⟩ := value.straight f.table.callees_cover hd hvalue
    have hoffers := (hhands fun x hx => (hfree x hx).2).offers hstart hd hkeeps hrenews fun x hx =>
      (hfree x hx).1
    have hnames : start.Keeps (own ++ value.rebinds ++ names.map (·.node))
      (e.giveNames (names.map (·.node)) rs) :=
      (hkeeps.renews hd hrenews).giveNames (hstraight.valid hd).sorted hoffers
    rwa [append_assoc] at hnames
  | @run _ _ value _ _ hd hvalue => exact hkeeps.renews hd (value.renews hd hvalue).1
  | exit => cases hflow
  | @branch _ _ cond onTrue onFalse _ d dt df _ _ flowT flowF _ _ _ hd₀ htest _ harms _ _
      hbehind ihT ihF =>
    simp only [Code.separate,Stmt.separate,Option.map_some,Option.getD_some,ite_self,Bool.and_eq_true,
      Block.separate_eq] at hsep
    have hcond := hkeeps.renews hd₀ (cond.renews hd₀ htest).1
    have hstart := harms.keeps_start hcond
    have hsub : ∀ side : Bool, own ++ cond.rebinds ++ (bif side then onTrue else onFalse).binds ⊆
        own ++ (cond.rebinds ++ (onTrue.binds ++ onFalse.binds)) := by
      intro side x hx
      cases side <;> simp only [cond_true,cond_false,mem_append] at hx ⊢ <;> tauto
    rw [Code.binds,Stmt.binds]
    cases flowT with
    | returns =>
      cases flowF with
      | returns =>
        obtain ⟨rfl,-⟩ := hbehind
        cases hflow
      | continues =>
        obtain ⟨-,rfl⟩ := hbehind
        have hend := ihF (hstart false) hsep.2 rfl
        rw [← Block.binds_eq] at hend
        exact (hend.widen (e := df.under d.current) harms.valid_false rfl
          (.refl harms.onFalse.extend.wf)).mono (hsub false)
    | continues =>
      have hendT := ihT (hstart true) hsep.1 rfl
      rw [← Block.binds_eq] at hendT
      cases flowF with
      | returns =>
        obtain ⟨-,rfl⟩ := hbehind
        refine (hendT.widen (e := (df.under d.current).resume dt) harms.valid_true rfl
          ?_).mono (hsub true)
        rw [show ((df.under d.current).resume dt).registers.layout = df.registers.layout from
          df.registers.layout_withLive _]
        exact harms.grows
      | continues =>
        have hendF := ihF (hstart false) hsep.2 rfl
        rw [← Block.binds_eq] at hendF
        refine (harms.keeps hbehind hcond.size_le hendT hendF).mono ?_
        exact append_subset.2 ⟨hsub true, hsub false⟩
  | @loop _ _ _ _ d _ _ _ _ _ _ _ hd hcaptures hcount _ _ _ _ hsite =>
    refine (hkeeps.renews hd (hsite.renews hd (nodup_orderedSet _) hcount hcaptures)).mono ?_
    rw [Code.binds,Stmt.binds,hcaptures]
    exact append_subset.2 ⟨subset_append_left _ _, subset_append_of_subset_right _ (append_subset.2
      ⟨subset_append_left _ _, subset_append_of_subset_right _ (d.names_captures _).subset⟩)⟩
  | nil => exact hkeeps.mono (subset_append_left _ _)
  | last => cases hflow
  | @cons _ _ _ _ _ _ _ _ _ _ _ _ _ _ _ ih ih' =>
    simp only [Code.separate,separateStmts,Option.map_some,Bool.and_eq_true] at hsep
    have hrest := ih' (ih hkeeps hsep.1 rfl).swept hsep.2 hflow
    rwa [append_assoc] at hrest

end Polled
