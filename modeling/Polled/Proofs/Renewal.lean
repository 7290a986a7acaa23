import Polled.Proofs.Lines

/-!
New registers and new names.

An expression writes the registers that it adds, and leaves the groups of all others alone. The names
that it threads through callees go over to some of them, each to one of its own (`Draft.Renews`).
-/

namespace Polled

open Lower List

mutual
/-- The variables whose values an expression hands on as they are. -/
def Expr.copies : Expr → List String
  | .name _ x => [x]
  | .tuple _ items => copiesOfExprs items
  | _ => []

def copiesOfExprs : List Expr → List String
  | [] => []
  | e :: es => e.copies ++ copiesOfExprs es
end

namespace Draft

/-- Registers have been added, and some of the names `rebound` stand for new ones, each for its own. -/
structure Renews (d e : Draft) (rebound : List String) : Prop where
  resolve_eq : e.registers.resolve = d.registers.resolve
  size_le : d.registers.size ≤ e.registers.size
  names : ∀ x r, e.scope.get? x = some r → d.scope.get? x = some r ∨ x ∈ rebound ∧ d.registers.size ≤ r
  sole : ∀ x y r, e.scope.get? x = some r → e.scope.get? y = some r → d.registers.size ≤ r → x = y

/-- Values are those of the variables `copies`, or else new ones that are all different and have no
name. -/
structure Hands (d e : Draft) (copies : List String) (rs : List Register) : Prop where
  origin : ∀ r ∈ rs, (∃ x ∈ copies, d.scope.get? x = some r) ∨
    d.registers.size ≤ r ∧ r < e.registers.size ∧ ∀ x, e.scope.get? x ≠ some r
  nodup : (rs.filter (d.registers.size ≤ ·)).Nodup

section

variable {d e d' : Draft} {xs ys : List String} {rs : List Register}

theorem Renews.mono (h : d.Renews e xs) (hsub : xs ⊆ ys) : d.Renews e ys :=
  { h with names := fun x r hx => (h.names x r hx).imp_right fun hnew => ⟨hsub hnew.1, hnew.2⟩ }

theorem Renews.trans (h : d.Renews e xs) (h' : e.Renews d' ys) : d.Renews d' (xs ++ ys) where
  resolve_eq := h'.resolve_eq.trans h.resolve_eq
  size_le := h.size_le.trans h'.size_le
  names x r hx := by
    rcases h'.names x r hx with hx | ⟨hy,hr⟩
    · exact (h.names x r hx).imp_right fun hnew => ⟨mem_append_left _ hnew.1, hnew.2⟩
    · exact .inr ⟨mem_append_right _ hy, h.size_le.trans hr⟩
  sole x y r hx hy hr := by
    rcases lt_or_ge r e.size with hlt | hge
    · have hold : ∀ z, d'.scope.get? z = some r → e.scope.get? z = some r := fun z hz =>
        (h'.names z r hz).resolve_right fun hnew => absurd hlt (not_lt.2 hnew.2)
      exact h.sole x y r (hold x hx) (hold y hy) hr
    · exact h'.sole x y r hx hy hge

theorem Renews.fewer (hd : d.Valid) (hlayout : e.registers.layout = d.registers.layout)
    (hscope : ∀ x r, e.scope.get? x = some r → d.scope.get? x = some r) : d.Renews e [] where
  resolve_eq := congrArg Layout.root hlayout
  size_le := (congrArg Layout.size hlayout).symm.le
  names x r hx := .inl (hscope x r hx)
  sole x _ r hx _ hr := absurd (hd.sound.lt_of_scope (hscope x r hx)) (not_lt.2 hr)

theorem Renews.reserve (hd : d.Valid) (k : Kind) (c : Condition) (op : Op) :
    d.Renews ((d.reserve k).emit c op) [] where
  resolve_eq := funext (d.registers.resolve_alloc k)
  size_le := (Nat.le_succ _).trans (d.registers.size_alloc k).symm.le
  names _ _ hx := .inl hx
  sole _ _ _ hx _ hr := absurd (hd.sound.lt_of_scope hx) (not_lt.2 hr)

theorem Hands.nil : d.Hands e [] [] := ⟨by simp, nodup_nil⟩

theorem Hands.of_new (hnew : ∀ r ∈ rs, d.size ≤ r ∧ r < e.size ∧ ∀ x, e.scope.get? x ≠ some r)
    (hnodup : rs.Nodup) : d.Hands e [] rs :=
  ⟨fun r hr => .inr (hnew r hr), hnodup.filter _⟩

theorem Hands.load (hd : d.Valid) (k : Kind) (c : Condition) (op : Op) :
    d.Hands ((d.reserve k).emit c op) [] [d.size] := by
  refine .of_new (fun r hr => ?_) (nodup_singleton _)
  rw [mem_singleton.1 hr]
  refine ⟨le_rfl, ?_, fun x hx => lt_irrefl _ (hd.sound.lt_of_scope hx)⟩
  exact (Nat.lt_succ_self _).trans_le (Nat.le_of_eq (d.registers.size_alloc k).symm)

theorem Renews.pass {r : Register} {lent : Bool} (hd : d.Valid)
    (he : e = if lent then d else d.handOver r) :
    d.Renews e [] := by
  subst he
  split
  · exact .fewer hd rfl fun _ _ h => h
  · exact .fewer hd (d.registers.layout_release r) fun x t hx => ((hd.sorted.get?_forget _ r x t).1 hx).1

theorem Hands.cons {r : Register} {copies copies' : List String} (hd : d.Valid) (he : d.Renews e xs)
    (he' : e.Renews d' ys) (h : d.Hands e copies [r]) (h' : e.Hands d' copies' rs)
    (hfree : ∀ x ∈ copies', x ∉ xs) :
    d.Hands d' (copies ++ copies') (r :: rs) := by
  have hold : ∀ x ∈ copies', ∀ t, e.scope.get? x = some t → d.scope.get? x = some t := fun x hx t ht =>
    (he.names x t ht).resolve_right fun hnew => hfree x hx hnew.1
  have hrest : ∀ t ∈ rs, (∃ x ∈ copies', d.scope.get? x = some t) ∨ e.size ≤ t ∧ t < d'.size ∧
      ∀ x, d'.scope.get? x ≠ some t := fun t ht =>
    (h'.origin t ht).imp_left fun ⟨x, hx, hxt⟩ => ⟨x, hx, hold x hx t hxt⟩
  refine ⟨fun t ht => ?_, ?_⟩
  · rcases mem_cons.1 ht with rfl | ht
    · rcases h.origin t (mem_singleton_self t) with ⟨x,hx,hxt⟩ | ⟨hge,hlt,hnone⟩
      · exact .inl ⟨x, mem_append_left _ hx, hxt⟩
      · refine .inr ⟨hge, hlt.trans_le he'.size_le, fun x hx => ?_⟩
        rcases he'.names x t hx with hx | hnew
        · exact hnone x hx
        · exact absurd hlt (not_lt.2 hnew.2)
    · rcases hrest t ht with ⟨x,hx,hxt⟩ | ⟨hge,hlt,hnone⟩
      · exact .inl ⟨x, mem_append_right _ hx, hxt⟩
      · exact .inr ⟨he.size_le.trans hge, hlt, hnone⟩
  · -- among the others, what is not older than `d` is not older than `e` either
    have hfilter : rs.filter (d.size ≤ ·) = rs.filter (e.size ≤ ·) := by
      refine filter_congr fun t ht => decide_eq_decide.2 ⟨fun hge => ?_, Nat.le_trans he.size_le⟩
      rcases hrest t ht with ⟨x,-,hxt⟩ | ⟨hge',-⟩
      · exact absurd (hd.sound.lt_of_scope hxt) (not_lt.2 hge)
      · exact hge'
    rw [filter_cons,hfilter]
    split
    · rename_i hge
      refine nodup_cons.2 ⟨fun hmem => ?_, h'.nodup⟩
      have hlt : r < e.size := by
        rcases h.origin r (mem_singleton_self r) with ⟨x,-,hxr⟩ | ⟨-,hlt,-⟩
        · exact absurd (hd.sound.lt_of_scope hxr) (not_lt.2 (of_decide_eq_true hge))
        · exact hlt
      exact absurd hlt (not_lt.2 (of_decide_eq_true (mem_filter.1 hmem).2))
    · exact h'.nodup

end

end Draft

open Draft

theorem leftOver_sublist (results : List Register) (passed : List Passed) :
    (leftOver results passed).Sublist results := by
  induction results generalizing passed with
  | nil => exact nil_sublist _
  | cons r results ih =>
    cases passed with
    | nil => exact List.Sublist.refl _
    | cons p passed =>
      rw [leftOver]
      split
      · exact (ih passed).cons r
      · exact (ih passed).cons_cons r

section

variable {f : Frame} {d e d' : Draft} {rs : List Register}

/-- A call behind its arguments: threaded variables take the results at their own positions. -/
theorem Draft.Renews.call {sig : Signature} {passed : List Passed} {xs : List String} (he : e.Valid)
    (hthreads : ∀ p ∈ passed, ∀ y k, p.thread = some (y, k) → y.node ∈ xs)
    (h : callWith f sig passed e = .ok (rs, d')) :
    e.Renews d' xs ∧ rs.Nodup ∧
      ∀ r ∈ rs, e.size ≤ r ∧ r < d'.size ∧ ∀ x, d'.scope.get? x ≠ some r := by
  obtain ⟨_,_,mid,hcall,rfl⟩ := callWith_spec he h
  obtain rfl := hcall.results_eq
  have hfills := hcall.fills
  have hreb := hcall.rebound
  have hlt : ∀ r ∈ List.range' e.size sig.returns.length, r < mid.size := fun r => hcall.lt_size
  obtain ⟨_,_,_,rfl⟩ := hcall.draft
  obtain ⟨scope,rfl⟩ := hreb.draft
  clear h hcall
  have hscope : ∀ x r, scope.get? x = some r → e.scope.get? x = some r ∨
    ∃ (i : Nat) (p : Passed) (y : Located String)
      (k : Kind), passed[i]? = some p ∧ p.thread = some (y, k) ∧ y.node = x ∧ r = e.size + i := by
    intro x r hx
    rcases hreb.scope x r hx with ⟨hx,-⟩ | ⟨i,p,y,k,hp,hy,hyx,hr,-⟩
    · exact .inl hx
    · obtain ⟨hi,rfl⟩ := List.getElem?_eq_some_iff.1 hr
      exact .inr ⟨i, p, y, k, hp, hy, hyx, by simp⟩
  refine ⟨⟨hfills.resolve_eq, hfills.size_le, fun x r hx => ?_, fun x y r hx hy hr => ?_⟩,
    (nodup_range' (s := e.size)).sublist (leftOver_sublist _ passed), fun r hr => ?_⟩
  · rcases hscope x r hx with hx | ⟨i,p,y,k,hp,hy,rfl,rfl⟩
    · exact .inl hx
    · exact .inr ⟨hthreads p (mem_of_getElem? hp) y k hy, le_self_add⟩
  · have hnew : ∀ z, e.scope.get? z ≠ some r :=
      fun z hz => absurd (he.sound.lt_of_scope hz) (not_lt.2 hr)
    obtain ⟨i,p,z,k,hp,hz,rfl,rfl⟩ := (hscope x r hx).resolve_left (hnew x)
    obtain ⟨j,q,_,_,hq,hz',rfl,heq⟩ := (hscope y _ hy).resolve_left (hnew y)
    obtain rfl : i = j := Nat.add_left_cancel heq
    obtain rfl : p = q := Option.some.inj (hp.symm.trans hq)
    obtain ⟨rfl,-⟩ := Prod.mk.inj (Option.some.inj (hz.symm.trans hz'))
    rfl
  · obtain ⟨i,hi,hthread⟩ := mem_leftOver hr
    have hmem := mem_of_getElem? hi
    refine ⟨(mem_range'_1.1 hmem).1, hlt r hmem, fun x hx => ?_⟩
    obtain ⟨_,rfl⟩ := List.getElem?_eq_some_iff.1 hi
    rcases hscope x _ hx with hx | ⟨j,p,y,k,hp,hy,-,heq⟩
    · exact absurd (he.sound.lt_of_scope hx) (not_lt.2 (mem_range'_1.1 hmem).1)
    · obtain rfl : i = j := by simpa using heq
      rw [hthread p hp] at hy
      cases hy

def Phrase.rebinds : Phrase → List String
  | .value e | .arg (.value e) _ => e.rebinds
  | .items es => rebindsOfExprs es
  | .arg (.thread _) _ => []
  | .args _ as _ => rebindsOfArgs as

/-- Where the values of a part come from. -/
def Phrase.Hands (d e : Draft) (rs : List Register) : Phrase → Prop
  | .value v => (∀ x ∈ v.copies, x ∉ v.rebinds) → d.Hands e v.copies rs
  | .items es => (∀ x ∈ copiesOfExprs es, x ∉ rebindsOfExprs es) → d.Hands e (copiesOfExprs es) rs
  | _ => True

theorem Phrase.Lowers.renews {p : Phrase} (h : Lowers f p d rs e) (hd : d.Valid) :
    d.Renews e p.rebinds ∧ p.Hands d e rs := by
  induction h with
  | @name _ x _ r =>
    refine ⟨.fewer hd rfl fun _ _ h => h, fun _ => ⟨fun t ht => .inl ⟨x, mem_singleton_self x, ?_⟩, ?_⟩⟩
    · rwa [mem_singleton.1 ht]
    · exact (nodup_singleton r).filter _
  | truth | integer | text => exact ⟨.reserve hd _ _ _, fun _ => .load hd _ _ _⟩
  | tuple _ ih => exact ih hd
  | call _ hargs hcall ih =>
    obtain ⟨hrenews,-⟩ := ih hd
    obtain ⟨hcall,hnodup,hnew⟩ := Draft.Renews.call (hargs.spec hd).1
      (fun p hp y k hy => mem_rebindsOfArgs (thread_mem_args hargs.passedAs.1 hp hy)) hcall
    refine ⟨(hrenews.trans hcall).mono (append_subset.2 ⟨fun _ h => h, fun _ h => h⟩),
      fun _ => .of_new (fun r hr => ?_) hnodup⟩
    exact ⟨hrenews.size_le.trans (hnew r hr).1, (hnew r hr).2⟩
  | @compare _ op _ _ _ _ e' l r hl hr _ _ ihl ihr =>
    have he₁ := (hl.spec hd).1
    obtain ⟨hlhs,-⟩ := ihl hd
    obtain ⟨hrhs,-⟩ := ihr he₁
    have he₂ := (hr.spec he₁).1
    have hboth := hlhs.trans hrhs
    have hload := Draft.Renews.reserve he₂ (.owned .boolean) e'.current (.compare op l r e'.size)
    refine ⟨(hboth.trans hload).mono (by simp [Phrase.rebinds,Expr.rebinds]), fun _ => ?_⟩
    refine .of_new (fun t ht => ?_) (nodup_singleton _)
    obtain ⟨hge,hnew⟩ := ((Draft.Hands.load he₂ _ e'.current _).origin t ht).resolve_left (by simp)
    exact ⟨hboth.size_le.trans hge, hnew⟩
  | nil => exact ⟨.fewer hd rfl fun _ _ h => h, fun _ => .nil⟩
  | cons he _ ih ih' =>
    obtain ⟨hrenews,hhands⟩ := ih hd
    obtain ⟨hrenews',hhands'⟩ := ih' (he.spec hd).1
    refine ⟨hrenews.trans hrenews', fun hfree => ?_⟩
    simp only [copiesOfExprs,rebindsOfExprs,mem_append,not_or] at hfree
    refine (hhands fun x hx => (hfree x (.inl hx)).1).cons hd hrenews hrenews'
      (hhands' fun x hx => (hfree x (.inr hx)).2)
      fun x hx => (hfree x (.inr hx)).1
  | thread | done => exact ⟨.fewer hd rfl fun _ _ h => h, trivial⟩
  | pass _ ih => exact ⟨(ih hd).1, trivial⟩
  | @next _ _ arg _ _ _ _ _ _ _ _ _ harg _ hpass _ ih ih' =>
    have he := (harg.spec hd).1
    obtain ⟨hvalue,-⟩ := ih hd
    obtain ⟨hvalid,-,-⟩ := @Draft.passed_spec anyOutline _ _ _ _ he hpass
    obtain ⟨hrenews,-⟩ := ih' hvalid
    refine ⟨(hvalue.trans ((Draft.Renews.pass he hpass).trans hrenews)).mono ?_, trivial⟩
    cases arg <;> simp [Phrase.rebinds,rebindsOfArgs]

theorem Expr.renews (value : Expr) (hd : d.Valid) (h : value.lower f d = .ok (rs, e)) :
    d.Renews e value.rebinds ∧ ((∀ x ∈ value.copies, x ∉ value.rebinds) → d.Hands e value.copies rs) :=
  (value.lowers h).renews hd

end

end Polled
