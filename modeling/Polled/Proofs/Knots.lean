import Polled.Proofs.Reunion

/-!
Groups that are tied together where two arms meet.

If no two names share a new group of the second arm (`Loom`), then no group is tied twice (`Woven`), and
what was apart on one side of the branch stays apart behind it (`Woven.apart`).
-/

namespace Polled

open Lower List

variable {R R₂ : Registers} {t' u' : Register} {secured' rs : List Register}

/-- Two arms before their names are joined. The registers of the first end at `mid`, and on the second no
group from behind `before` has two names. -/
structure Loom (before mid : Nat) (l : Layout) (scopes : Bool → Scope) : Prop where
  wf : l.WellFormed
  before_le : before ≤ mid
  mid_le : mid ≤ l.size
  lt_mid : ∀ x t, (scopes true).get? x = some t → t < mid
  lt_size : ∀ x u, (scopes false).get? x = some u → u < l.size
  split : ∀ x u, (scopes false).get? x = some u → l.root u < before ∨ mid ≤ l.root u
  sole : ∀ x y u v, (scopes false).get? x = some u → (scopes false).get? y = some v →
    l.root u = l.root v →
    before ≤ l.root u → x = y

/-- The groups of a name on the two sides, once they are tied together. -/
structure Knot where
  name : String
  root : Bool → Register

/-- The registers from before or of the first arm, those of the second, and on either side what was
copied to. -/
def OnSide (mid fin : Nat) (moves : List Transfer) (b : Bool) (r : Register) : Prop :=
  (bif b then r < mid else mid ≤ r ∧ r < fin) ∨ ∃ m ∈ moves, m.side = b ∧ m.dest = r

/-- The group is in no knot. -/
def Untied (knots : List Knot) (r : Register) : Prop := ∀ k ∈ knots, ∀ s, k.root s ≠ r

/-- The layout `l` and the names `merged` of two arms, when all names but `todo` have been joined. -/
structure Woven (before mid : Nat) (l₀ : Layout) (scopes : Bool → Scope) (secured : List Register)
    (todo : List String) (l : Layout) (merged : Scope) (moves : List Transfer)
    (knots : List Knot) : Prop where
  wf : l.WellFormed
  size_le : l₀.size ≤ l.size
  root_eq_iff : ∀ a b, l.root a = l.root b ↔
    l₀.root a = l₀.root b ∨ ∃ k ∈ knots, ∃ s, k.root s = l₀.root a ∧ k.root (!s) = l₀.root b
  fixed : ∀ r, r < mid → l.root r = l₀.root r
  new : ∀ k ∈ knots, before ≤ k.root true
  root : ∀ k ∈ knots, ∀ s, l₀.root (k.root s) = k.root s
  onSide : ∀ k ∈ knots, ∀ s, OnSide mid l₀.size moves s (k.root s)
  nodup : (knots.map (·.root true)).Nodup
  secured : ∀ k ∈ knots, k.root true < mid → k.root true ∈ secured
  kept : ∀ k ∈ knots, k.root false < l₀.size → ∃ u, (scopes false).get? k.name = some u ∧
    l₀.root u = k.root false
  tied : ∀ k ∈ knots, k.name ∉ todo
  names : ∀ x j, merged.get? x = some j → ∃ t u, (scopes true).get? x = some t ∧
    (scopes false).get? x = some u ∧
    (l₀.root t = l₀.root u ∧ l.root j = l₀.root t ∨
      l₀.root t ≠ l₀.root u ∧ ∃ k ∈ knots, k.name = x ∧ l.root j = l.root (k.root true))
  dests : (moves.map (·.dest)).Nodup
  bound : ∀ m ∈ moves, l₀.size ≤ m.dest ∧ m.dest < l.size

section

variable {before mid fin : Nat} {l₀ l : Layout} {scopes : Bool → Scope} {secured : List Register}
  {todo : List String}
variable {merged : Scope} {moves new : List Transfer} {knots : List Knot} {x : String}
  {r t u : Register} {b : Bool}

theorem OnSide.mono (h : OnSide mid fin moves b r) (new : List Transfer) :
    OnSide mid fin (moves ++ new) b r := by
  refine h.imp_right ?_
  rintro ⟨m,hm,hside⟩
  exact ⟨m, mem_append_left new hm, hside⟩

theorem OnSide.mid_le (h : OnSide mid fin moves false r) (hmid : mid ≤ fin)
    (hbound : ∀ m ∈ moves, fin ≤ m.dest) : mid ≤ r := by
  rcases h with ⟨hr,-⟩ | ⟨m,hm,-,rfl⟩
  · exact hr
  · exact hmid.trans (hbound m hm)

theorem woven_start (h : Loom before mid l₀ scopes) :
    Woven before mid l₀ scopes secured todo l₀ .empty [] [] where
  wf := h.wf
  size_le := le_rfl
  root_eq_iff := by simp
  fixed _ _ := rfl
  new := by simp
  root := by simp
  onSide := by simp
  nodup := nodup_nil
  secured := by simp
  kept := by simp
  tied := by simp
  names := by simp
  dests := nodup_nil
  bound := by simp

namespace Woven

section

variable (h : Woven before mid l₀ scopes secured todo l merged moves knots)
  (hloom : Loom before mid l₀ scopes)

include h hloom

theorem lt_size (hr : OnSide mid l₀.size moves b r) : r < l.size := by
  have hmid := hloom.mid_le
  have hsize := h.size_le
  rcases hr with hr | ⟨m,hm,-,rfl⟩
  · cases b with
    | true => exact hr.trans_le (hmid.trans hsize)
    | false => exact hr.2.trans_le hsize
  · exact (h.bound m hm).2

theorem side_eq {s : Bool} (hr : OnSide mid l₀.size moves b r)
    (hr' : OnSide mid l₀.size moves s r) : b = s := by
  have hmid := hloom.mid_le
  have hold : ∀ {b}, (bif b then r < mid else mid ≤ r ∧ r < l₀.size) → r < l₀.size := by
    intro b hb
    cases b with
    | true => exact hb.trans_le hmid
    | false => exact hb.2
  rcases hr with hr | ⟨m,hm,rfl,rfl⟩
  · rcases hr' with hr' | ⟨m,hm,-,rfl⟩
    · cases b <;> cases s
      · rfl
      · exact absurd hr' (not_lt.2 hr.1)
      · exact absurd hr (not_lt.2 hr'.1)
      · rfl
    · exact absurd (hold hr) (not_lt.2 (h.bound m hm).1)
  · rcases hr' with hr' | ⟨_,hm',rfl,heq⟩
    · exact absurd (hold hr') (not_lt.2 (h.bound m hm).1)
    · rw [inj_on_of_nodup_map h.dests hm' hm heq]

theorem root_old (hr : l₀.root r < mid) : l.root r = l₀.root r := by
  have hsame : l.root r = l.root (l₀.root r) := (h.root_eq_iff _ _).2 (.inl (hloom.wf.root_root r).symm)
  rw [hsame,h.fixed _ hr,hloom.wf.root_root]

omit hloom in
theorem root_eq_iff_of_untied (hfree : Untied knots (l₀.root r)) (v : Register) :
    l.root v = l.root r ↔ l₀.root v = l₀.root r := by
  refine (h.root_eq_iff v r).trans (or_iff_left ?_)
  rintro ⟨k,hk,s,-,heq⟩
  exact hfree k hk _ heq

theorem untied_of_new (hr : l.size ≤ r) : Untied knots (l₀.root r) := by
  intro k hk s heq
  have hlt := h.lt_size hloom (h.onSide k hk s)
  rw [heq,hloom.wf.root_new r (h.size_le.trans hr)] at hlt
  exact absurd hlt (not_lt.2 hr)

/-- On the first side, a group that is kept has not been tied, since the tied ones count as secured. -/
theorem untied_true (ht : t < mid) (hnot : l.root t ∉ secured) : Untied knots (l₀.root t) := by
  have hlt : l₀.root t < mid := (hloom.wf.root_le t).trans_lt ht
  intro k hk s heq
  cases s with
  | true =>
    rw [h.fixed t ht,← heq] at hnot
    exact hnot (h.secured k hk (heq ▸ hlt))
  | false =>
    have hge := (h.onSide k hk false).mid_le hloom.mid_le fun m hm => (h.bound m hm).1
    exact absurd (heq ▸ hlt) (not_lt.2 hge)

end

theorem untied_false (h : Woven before mid l₀ scopes secured (x :: todo) l merged moves knots)
    (hloom : Loom before mid l₀ scopes) (hu : (scopes false).get? x = some u)
    (hnew : before ≤ l₀.root u) :
    Untied knots (l₀.root u) := by
  have hge : mid ≤ l₀.root u := (hloom.split x u hu).resolve_left (not_lt.2 hnew)
  have hlt : l₀.root u < l₀.size := hloom.wf.root_lt (hloom.lt_size x u hu)
  intro k hk s heq
  cases s with
  | true =>
    have hside : OnSide mid l₀.size moves false (k.root true) := heq ▸ .inl ⟨hge, hlt⟩
    cases h.side_eq hloom (h.onSide k hk true) hside
  | false =>
    obtain ⟨v,hv,hroot⟩ := h.kept k hk (heq ▸ hlt)
    obtain rfl := hloom.sole _ _ _ _ hu hv (heq.symm.trans hroot.symm) hnew
    exact h.tied k hk mem_cons_self

theorem before_le (h : Woven before mid l₀ scopes secured todo l merged moves knots)
    (hloom : Loom before mid l₀ scopes) (hr : before ≤ l.root r) : before ≤ l₀.root r := by
  by_contra hlt
  rw [h.root_old hloom ((not_le.1 hlt).trans_le hloom.before_le)] at hr
  exact hlt hr

theorem side_true (h : Woven before mid l₀ scopes secured todo R.layout merged moves knots)
    (hloom : Loom before mid l₀ scopes) (ht : t < mid) (hclaims : Claims R t t' secured secured')
    (hcopy : t' = t ∨ ⟨true, t, t'⟩ ∈ new) :
    (OnSide mid l₀.size (moves ++ new) true (l₀.root t') ∧ Untied knots (l₀.root t')) ∧
      secured ⊆ secured' ∧ (l₀.root t' < mid → l₀.root t' ∈ secured') := by
  have hsize : l₀.size ≤ R.size := h.size_le
  have hmid : mid ≤ R.size := hloom.mid_le.trans hsize
  rcases hclaims with ⟨rfl,hnot,rfl⟩ | ⟨rfl,hsub⟩
  · refine ⟨⟨.inl ?_, h.untied_true hloom ht hnot⟩, subset_cons_self _ _, fun _ => ?_⟩
    · exact (hloom.wf.root_le _).trans_lt ht
    · rw [← h.fixed _ ht]
      exact mem_cons_self
  · have hcopy := hcopy.resolve_left fun heq => absurd (ht.trans_le hmid) (heq ▸ lt_irrefl _)
    have huntied : Untied knots (l₀.root R.size) := h.untied_of_new hloom le_rfl
    rw [hloom.wf.root_new _ hsize] at huntied ⊢
    refine ⟨⟨.inr ⟨⟨true, t, _⟩, mem_append_right _ hcopy, rfl, rfl⟩, huntied⟩, hsub, fun hlt => ?_⟩
    exact absurd hlt (not_lt.2 hmid)

theorem side_false {R₁ : Registers} {live live' : List Bool} {ops : List Op}
    (h : Woven before mid l₀ scopes secured (x :: todo) R.layout merged moves knots)
    (hloom : Loom before mid l₀ scopes) (hu : (scopes false).get? x = some u)
    (hsecured : Secured before R₁ u live R₂ u' live' ops) (hresolve : R₁.resolve = R.resolve)
    (hsize : R.size ≤ R₁.size) (hcopy : u' = u ∨ ⟨false, u, u'⟩ ∈ new) :
    (OnSide mid l₀.size (moves ++ new) false (l₀.root u') ∧ Untied knots (l₀.root u')) ∧
      (l₀.root u' < l₀.size → u' = u) := by
  have hge : l₀.size ≤ R₁.size := h.size_le.trans hsize
  have hlt : u < l₀.size := hloom.lt_size x u hu
  rcases hsecured.cases_eq with ⟨rfl,hroot⟩ | ⟨rfl,-⟩
  · rw [hresolve] at hroot
    have hnew : before ≤ l₀.root u' := h.before_le hloom hroot
    have hmid := (hloom.split x u' hu).resolve_left (not_lt.2 hnew)
    exact ⟨⟨.inl ⟨hmid, hloom.wf.root_lt hlt⟩, h.untied_false hloom hu hnew⟩, fun _ => rfl⟩
  · have hcopy := hcopy.resolve_left fun heq => absurd (hlt.trans_le hge) (heq ▸ lt_irrefl _)
    have huntied : Untied knots (l₀.root R₁.size) := h.untied_of_new hloom hsize
    rw [hloom.wf.root_new _ hge] at huntied ⊢
    refine ⟨⟨.inr ⟨⟨false, u, _⟩, mem_append_right _ hcopy, rfl, rfl⟩, huntied⟩, fun hlt => ?_⟩
    exact absurd hlt (not_lt.2 hge)

theorem skip (h : Woven before mid l₀ scopes secured (x :: todo) l merged moves knots)
    (hloom : Loom before mid l₀ scopes) (ht : (scopes true).get? x = some t)
    (hu : (scopes false).get? x = some u) (heq : l.root t = l.root u) :
    Woven before mid l₀ scopes secured todo l (merged.bind x (l.root t)) moves knots := by
  have hlt : l₀.root t < mid := (hloom.wf.root_le t).trans_lt (hloom.lt_mid x t ht)
  have hroots : l₀.root t = l₀.root u := by
    rcases (h.root_eq_iff t u).1 heq with hroots | ⟨k,hk,s,hkt,hku⟩
    · exact hroots
    · cases s with
      | true =>
        have hge := (h.onSide k hk false).mid_le hloom.mid_le fun m hm => (h.bound m hm).1
        have hnew : before ≤ l₀.root u := hku ▸ hloom.before_le.trans hge
        exact absurd hku (h.untied_false hloom hu hnew k hk false)
      | false =>
        have hge := (h.onSide k hk false).mid_le hloom.mid_le fun m hm => (h.bound m hm).1
        exact absurd (hkt ▸ hlt) (not_lt.2 hge)
  refine { h with
    tied := fun k hk hmem => h.tied k hk (mem_cons_of_mem x hmem), names := fun y j hj => ?_ }
  rw [Scope.get?_bind] at hj
  split at hj
  · rename_i hy
    subst hy
    obtain rfl := Option.some.inj hj
    refine ⟨t, u, ht, hu, .inl ⟨hroots, ?_⟩⟩
    rw [h.wf.root_root,h.root_old hloom hlt]
  · exact h.names y j hj

/-- Two groups that have not been tied yet, one of either side, are tied under a name. -/
theorem tie {R₃ : Registers} {joined : Register}
    (h : Woven before mid l₀ scopes secured (x :: todo) R.layout merged moves knots)
    (hloom : Loom before mid l₀ scopes) (hx : x ∉ todo) (ht : (scopes true).get? x = some t)
    (hu : (scopes false).get? x = some u) (hne : R.resolve t ≠ R.resolve u)
    (hjoint : Joint before R R₂ R₃ t' u' joined)
    (hT : OnSide mid l₀.size (moves ++ new) true (l₀.root t') ∧ Untied knots (l₀.root t'))
    (hF : OnSide mid l₀.size (moves ++ new) false (l₀.root u') ∧ Untied knots (l₀.root u'))
    (hkept : l₀.root u' < l₀.size → u' = u) (hsecured : secured ⊆ secured')
    (hclaimed : l₀.root t' < mid → l₀.root t' ∈ secured') (hdests : (new.map (·.dest)).Nodup)
    (hnew : ∀ m ∈ new, R.size ≤ m.dest ∧ m.dest < R₂.size) :
    Woven before mid l₀ scopes secured' todo R₃.layout (merged.bind x joined) (moves ++ new)
      (⟨x, fun s => l₀.root (bif s then t' else u')⟩ :: knots) := by
  have hsize : R₃.size = R₂.size := hjoint.size₃
  have hbound : ∀ m ∈ moves ++ new, l₀.size ≤ m.dest ∧ m.dest < R₃.layout.size := by
    intro m hm
    rcases mem_append.1 hm with hm | hm
    · exact ⟨(h.bound m hm).1, (h.bound m hm).2.trans_le (hjoint.size_le.trans hsize.symm.le)⟩
    · exact ⟨h.size_le.trans (hnew m hm).1, (hnew m hm).2.trans_le hsize.symm.le⟩
  have hgroupT := h.root_eq_iff_of_untied hT.2
  have hgroupF := h.root_eq_iff_of_untied hF.2
  -- the group of the second side begins behind the first arm
  have hmid : mid ≤ R.layout.root u' := by
    have hself : l₀.root (R.layout.root u') = l₀.root u' := (hgroupF _).1 (h.wf.root_root u')
    have hge : mid ≤ l₀.root u' := hF.1.mid_le hloom.mid_le fun m hm => (hbound m hm).1
    exact hge.trans (hself ▸ hloom.wf.root_le (R.layout.root u'))
  have hold : ∀ v, R.layout.root v < mid → R₃.layout.root v = R.layout.root v := by
    intro v hv
    refine (hjoint.resolve₃ v).trans (if_neg fun heq => ?_)
    have hmax : R.layout.root u' ≤ R.layout.root v := (Nat.le_max_right _ _).trans heq.symm.le
    exact absurd hv (not_lt.2 (hmid.trans hmax))
  have hcongr : ∀ {a b}, R.layout.root a = R.layout.root b → R₃.layout.root a = R₃.layout.root b :=
    fun hab =>
    (hjoint.resolve₃_congr_iff _ _).2 (.inl hab)
  have hjoined : R₃.layout.root joined = R₃.layout.root (l₀.root t') :=
    ((hjoint.resolve₃_eq_iff _).2 (.inl ((hgroupT _).2 (hloom.wf.root_root t')))).symm
  refine ⟨hjoint.wf₃, ?_, fun a b => ?_, fun r hr => ?_, ?_, ?_, ?_, ?_, ?_, ?_, ?_,
    fun y j hj => ?_, ?_, hbound⟩
  · exact h.size_le.trans (hjoint.size_le.trans hsize.symm.le)
  · refine (hjoint.resolve₃_congr_iff a b).trans ((or_congr (h.root_eq_iff a b) (or_congr
      (and_congr (hgroupT a) (hgroupF b)) (and_congr (hgroupF a) (hgroupT b)))).trans ?_)
    rw [exists_mem_cons_iff,Bool.exists_bool]
    refine or_assoc.trans (or_congr_right (or_comm.trans (or_congr_left ?_)))
    exact or_comm.trans (or_congr (and_congr eq_comm eq_comm) (and_congr eq_comm eq_comm))
  · rw [hold r (h.fixed r hr ▸ (hloom.wf.root_le r).trans_lt hr),h.fixed r hr]
  · exact forall_mem_cons.2 ⟨h.before_le hloom hjoint.above.1, h.new⟩
  · exact forall_mem_cons.2 ⟨fun s => hloom.wf.root_root _, h.root⟩
  · refine forall_mem_cons.2 ⟨fun s => ?_, fun k hk s => (h.onSide k hk s).mono new⟩
    cases s with
    | true => exact hT.1
    | false => exact hF.1
  · refine nodup_cons.2 ⟨fun hmem => ?_, h.nodup⟩
    obtain ⟨k,hk,heq⟩ := mem_map.1 hmem
    exact hT.2 k hk true heq
  · exact forall_mem_cons.2 ⟨hclaimed, fun k hk hlt => hsecured (h.secured k hk hlt)⟩
  · refine forall_mem_cons.2 ⟨fun hlt => ⟨u, hu, ?_⟩, h.kept⟩
    exact congrArg l₀.root (hkept hlt).symm
  · exact forall_mem_cons.2 ⟨hx, fun k hk hmem => h.tied k hk (mem_cons_of_mem x hmem)⟩
  · rw [Scope.get?_bind] at hj
    split at hj
    · rename_i hy
      subst hy
      obtain rfl := Option.some.inj hj
      refine ⟨t, u, ht, hu, .inr ⟨fun heq => hne ?_, _, mem_cons_self, rfl, hjoined⟩⟩
      exact (h.root_eq_iff t u).2 (.inl heq)
    · obtain ⟨v,w,hv,hw,hcase⟩ := h.names y j hj
      refine ⟨v, w, hv, hw, hcase.imp (fun hroots => ⟨hroots.1, ?_⟩) ?_⟩
      · have hlt : l₀.root v < mid := (hloom.wf.root_le v).trans_lt (hloom.lt_mid y v hv)
        exact (hold j (hroots.2 ▸ hlt)).trans hroots.2
      · rintro ⟨hdiff,k,hk,hname,hroot⟩
        exact ⟨hdiff, k, mem_cons_of_mem _ hk, hname, hcongr hroot⟩
  · rw [map_append,nodup_append]
    refine ⟨h.dests, hdests, ?_⟩
    intro a ha b hb heq
    obtain ⟨m,hm,rfl⟩ := mem_map.1 ha
    obtain ⟨m',hm',rfl⟩ := mem_map.1 hb
    exact absurd (heq ▸ (h.bound m hm).2) (not_lt.2 (hnew m' hm').1)

variable (h : Woven before mid l₀ scopes secured todo l merged moves knots)
  (hloom : Loom before mid l₀ scopes)

include h hloom

theorem before_le_knot {k : Knot} (hk : k ∈ knots) (s : Bool) : before ≤ k.root s := by
  cases s with
  | true => exact h.new k hk
  | false =>
    exact hloom.before_le.trans ((h.onSide k hk false).mid_le hloom.mid_le fun m hm => (h.bound m hm).1)

theorem apart {v : Register} (hr : OnSide mid l₀.size moves b (l₀.root r) ∨ l₀.root r < before)
    (hv : OnSide mid l₀.size moves b (l₀.root v) ∨ l₀.root v < before) (heq : l.root r = l.root v) :
    l₀.root r = l₀.root v := by
  rcases (h.root_eq_iff r v).1 heq with heq | ⟨k,hk,s,hkr,hkv⟩
  · exact heq
  · have hside : ∀ {s}, OnSide mid l₀.size moves b (k.root s) ∨ k.root s < before → b = s := fun hs =>
      h.side_eq hloom (hs.resolve_right (not_lt.2 (h.before_le_knot hloom hk _))) (h.onSide k hk _)
    have hboth : s = !s := (hside (hkr ▸ hr)).symm.trans (hside (hkv ▸ hv))
    cases s <;> cases hboth

theorem nodup_roots (hroots : (rs.map l₀.root).Nodup)
    (hside : ∀ r ∈ rs, OnSide mid l₀.size moves b (l₀.root r) ∨ l₀.root r < before) :
    (rs.map l.root).Nodup := by
  refine pairwise_map.2 ((pairwise_map.1 hroots).imp_of_mem fun {r s} hr hs hne heq => hne ?_)
  exact h.apart hloom (hside r hr) (hside s hs) heq

theorem nodup_dests (hroots : (rs.map l₀.root).Nodup) (hlt : ∀ r ∈ rs, l₀.root r < l₀.size) (b : Bool) :
    ((rs ++ (moves.filter (·.side == b)).map (·.dest)).map l₀.root).Nodup ∧
      ∀ r ∈ (moves.filter (·.side == b)).map (·.dest), OnSide mid l₀.size moves b (l₀.root r) := by
  have hself : ∀ m ∈ moves, l₀.root m.dest = m.dest := fun m hm => hloom.wf.root_new _ (h.bound m hm).1
  have hmoves : ∀ m ∈ moves.filter (·.side == b), m ∈ moves := fun m hm => (mem_filter.1 hm).1
  refine ⟨?_, fun r hr => ?_⟩
  · rw [map_append,nodup_append]
    refine ⟨hroots, ?_, fun x hx y hy heq => ?_⟩
    · have hmap : ((moves.filter (·.side == b)).map (·.dest)).map l₀.root =
          (moves.filter (·.side == b)).map (·.dest) := by
        rw [map_map]
        exact map_congr_left fun m hm => hself m (hmoves m hm)
      rw [hmap]
      exact h.dests.sublist (filter_sublist.map _)
    · obtain ⟨r,hr,rfl⟩ := mem_map.1 hx
      obtain ⟨s,hs,rfl⟩ := mem_map.1 hy
      obtain ⟨m,hm,rfl⟩ := mem_map.1 hs
      have hlt := hlt r hr
      rw [heq,hself m (hmoves m hm)] at hlt
      exact absurd hlt (not_lt.2 (h.bound m (hmoves m hm)).1)
  · obtain ⟨m,hm,rfl⟩ := mem_map.1 hr
    rw [hself m (hmoves m hm)]
    exact .inr ⟨m, hmoves m hm, by simpa using (mem_filter.1 hm).2, rfl⟩

theorem before_le_root (hr : before ≤ l₀.root r) : before ≤ l.root r := by
  by_contra hlt
  have hlt := not_le.1 hlt
  have hself : l₀.root (l.root r) = l.root r := by
    rw [← h.fixed _ (hlt.trans_le hloom.before_le),h.wf.root_root]
  rcases (h.root_eq_iff r (l.root r)).1 (h.wf.root_root r).symm with heq | ⟨k,hk,s,-,hkr⟩
  · rw [heq,hself] at hr
    exact absurd hlt (not_lt.2 hr)
  · rw [hself] at hkr
    exact absurd (hkr ▸ hlt) (not_lt.2 (h.before_le_knot hloom hk _))

theorem joined {j : Register} (hj : merged.get? x = some j) :
    ∃ t u, (scopes true).get? x = some t ∧ (scopes false).get? x = some u ∧
      (l₀.root t = l.root j ∧ l₀.root u = l.root j ∧ l.root j < before ∨
        l₀.root t ≠ l₀.root u ∧ before ≤ l.root j ∧ ∀ y i, merged.get? y = some i →
          l.root i = l.root j → y = x) := by
  have hold : ∀ {x t u}, (scopes true).get? x = some t → (scopes false).get? x = some u →
    l₀.root t = l₀.root u →
      l₀.root t < before := by
    intro x t u ht hu heq
    have hlt : l₀.root t < mid := (hloom.wf.root_le t).trans_lt (hloom.lt_mid x t ht)
    rcases hloom.split x u hu with _ | hge
    · rwa [heq]
    · exact absurd (heq ▸ hlt) (not_lt.2 hge)
  obtain ⟨t,u,ht,hu,⟨heq,hroot⟩ | ⟨hdiff,k,hk,rfl,hroot⟩⟩ := h.names x j hj
  · exact ⟨t, u, ht, hu, .inl ⟨hroot.symm, (hroot.trans heq).symm, hroot ▸ hold ht hu heq⟩⟩
  · have hnew : before ≤ l.root j := by
      rw [hroot]
      exact h.before_le_root hloom ((h.new k hk).trans (h.root k hk true).symm.le)
    refine ⟨t, u, ht, hu, .inr ⟨hdiff, hnew, fun y i hi hij => ?_⟩⟩
    obtain ⟨_,_,ht',hu',⟨heq',hroot'⟩ | ⟨-,k',hk',rfl,hroot'⟩⟩ := h.names y i hi
    · rw [← hij,hroot'] at hnew
      exact absurd (hold ht' hu' heq') (not_lt.2 hnew)
    · have hside : ∀ k ∈ knots, OnSide mid l₀.size moves true (l₀.root (k.root true)) := fun k hk =>
        (h.root k hk true).symm ▸ h.onSide k hk true
      have heq := h.apart hloom (.inl (hside k' hk')) (.inl (hside k hk))
        (hroot'.symm.trans (hij.trans hroot))
      rw [h.root k' hk',h.root k hk] at heq
      rw [inj_on_of_nodup_map h.nodup hk' hk heq]

end Woven

end

section

variable {f : Frame} {span : Span} {before mid : Nat} {l₀ : Layout} {arms arms' : Arm × Arm}
  {merged merged' : Scope}
variable {moves : List Transfer} {knots : List Knot} {d d' : Draft}

theorem joinRegisters_woven {t u joined : Register} {x : String} {todo : List String}
    (h : joinRegisters t u before arms d = .ok ((joined, arms'), d'))
    (hloom : Loom before mid l₀ (armScopes arms))
    (hwoven : Woven before mid l₀ (armScopes arms) arms.1.secured (x :: todo) d.registers.layout merged
      moves knots)
    (hx : x ∉ todo) (ht : arms.1.scope.get? x = some t) (hu : arms.2.scope.get? x = some u)
    (hkind : d.registers.kind u = d.registers.kind t) :
    ∃ new knots', Woven before mid l₀ (armScopes arms) arms'.1.secured todo d'.registers.layout
      (merged.bind x joined) (moves ++ new) knots' ∧
      d' = { d with
        registers := d'.registers
        ops := d.ops ++ new.map (Transfer.op (conditions arms)) } ∧
      armScopes arms' = armScopes arms ∧ conditions arms' = conditions arms := by
  rcases joinRegisters_eq_ok h with ⟨hroot,rfl,rfl,rfl⟩ | ⟨hne,_,R₂,_,_,_,_,_,_,_,
    _,hT,hF,hclaims,rfl,rfl,rfl⟩
  · refine ⟨[], knots, ?_, by simp, rfl, rfl⟩
    rw [append_nil]
    exact hwoven.skip hloom ht hu hroot
  · have htlt : t < mid := hloom.lt_mid x t ht
    have hsize : l₀.size ≤ d.size := hwoven.size_le
    have hmid : mid ≤ d.size := hloom.mid_le.trans hsize
    have hult : u < d.size := (hloom.lt_size x u hu).trans_le hsize
    have hjoint := hT.joint hF hwoven.wf (hloom.before_le.trans hmid) (htlt.trans_le hmid) hult hkind
    obtain ⟨new,hops,hmoves,hcopyT,hcopyF,hdests,hnew⟩ :=
      hT.transfers_both hF (htlt.trans_le hmid) (conditions arms)
    obtain ⟨hsideT,hsecured,hclaimed⟩ := hwoven.side_true hloom htlt hclaims hcopyT
    obtain ⟨hsideF,hkept⟩ := hwoven.side_false hloom hu hF hT.resolve_eq hT.size_le hcopyF
    have hbound : ∀ m ∈ new, d.size ≤ m.dest ∧ m.dest < R₂.size := fun m hm => by
      refine ⟨hnew m hm, ?_⟩
      rcases hmoves m hm with rfl | rfl
      · exact hjoint.lt_size.1
      · exact hjoint.lt_size.2
    refine ⟨new, _, hwoven.tie hloom hx ht hu hne hjoint hsideT hsideF hkept hsecured hclaimed hdests
      hbound, ?_, ?_, ?_⟩
    · rw [← hops]
      rfl
    · exact funext fun b => by cases b <;> rfl
    · exact funext fun b => by cases b <;> rfl

theorem joinNames_woven {xs : List String}
    (h : joinNames f span before xs arms merged d = .ok ((merged', arms'), d'))
    (hloom : Loom before mid l₀ (armScopes arms)) (hnodup : xs.Nodup)
    (hwoven : Woven before mid l₀ (armScopes arms) arms.1.secured xs d.registers.layout merged
      moves knots) :
    ∃ new knots', Woven before mid l₀ (armScopes arms) arms'.1.secured [] d'.registers.layout merged'
      (moves ++ new) knots' ∧ d' = { d with
        registers := d'.registers
        ops := d.ops ++ new.map (Transfer.op (conditions arms))
        log := d'.log } := by
  induction xs generalizing arms merged d moves knots with
  | nil =>
    obtain ⟨hresult,rfl⟩ := (pure_eq_ok _ _).1 h
    cases hresult
    exact ⟨[], knots, by rwa [append_nil], by simp⟩
  | cons x xs ih =>
    obtain ⟨hx,hnodup⟩ := nodup_cons.1 hnodup
    obtain ⟨t,u,_,_,e,ht,hu,hkind,hjoin,h⟩ := joinNames_cons_eq_ok h
    obtain ⟨new,_,hwoven₁,hdraft,hscope,hcond⟩ := joinRegisters_woven hjoin hloom hwoven hx ht hu hkind
    rw [← hscope] at hloom hwoven₁
    obtain ⟨new',knots₂,hwoven₂,hdraft'⟩ := ih h hloom hnodup hwoven₁
    rw [hscope,append_assoc] at hwoven₂
    refine ⟨new ++ new', knots₂, hwoven₂, ?_⟩
    rw [hdraft',hdraft,hcond]
    simp only [Draft.logged,append_assoc,map_append]

theorem woven_of_merge {dt df : Draft}
    (h : mergeArms f span d.scope d.size (Draft.ends d dt df).1 (Draft.ends d dt df).2
      (df.under d.current) = .ok ((), d'))
    (hloom : Loom d.size mid df.registers.layout fun b => bif b then dt.scope else df.scope) :
    ∃ secured moves knots frees,
      Woven d.size mid df.registers.layout (fun b => bif b then dt.scope else df.scope) secured []
        d'.registers.layout d'.scope moves knots ∧
      d'.ops = df.ops ++ (moves.map (Transfer.op d.armCondition) ++
        freeOps df.control.conditionCount frees) := by
  obtain ⟨_,e,frees,hjoin,hlayout,hops,-,-⟩ := Draft.merge_spec h
  rw [← Draft.armScopes_ends (d := d)] at hloom ⊢
  obtain ⟨moves,knots,hwoven,hdraft⟩ := joinNames_woven hjoin hloom (nodup_orderedSet _)
    (woven_start hloom)
  rw [nil_append,← hlayout] at hwoven
  refine ⟨_, moves, knots, frees, hwoven, ?_⟩
  have hcontrol : e.control = df.control := by rw [hdraft]; rfl
  rw [hops,hcontrol,hdraft,Draft.conditions_ends,← append_assoc]
  rfl

end

end Polled
