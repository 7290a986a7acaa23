import Polled.Proofs.Branching

/-!
Where two arms meet again.

`Blends` says what a name stands for behind the arms, and `Reunion` adds the operations that bring it
about.
-/

namespace Polled

open Lower Passage List

/-- A value that one side copies before it is joined. -/
structure Transfer where
  side : Bool
  source : Register
  dest : Register

def Transfer.op (cond : Bool → Condition) (m : Transfer) : GuardedOp :=
  ⟨cond m.side, .rename m.source m.dest⟩

/-- From layout `l` and the names `merged` to layout `l'` and more names. -/
structure Blends (scopes : Bool → Scope) (l l' : Layout) (merged merged' : Scope)
    (moves : List Transfer) : Prop where
  wf : l'.WellFormed
  size_le : l.size ≤ l'.size
  kind_old : ∀ r, r < l.size → l'.kind r = l.kind r
  root_congr : ∀ a b, l.root a = l.root b → l'.root a = l'.root b
  copies : ∀ m ∈ moves, (∃ x, (scopes m.side).get? x = some m.source) ∧ m.source < l'.size ∧
    m.dest < l'.size ∧
    l'.kind m.source = l'.kind m.dest
  new : ∀ m ∈ moves, l.size ≤ m.dest
  names : ∀ x j, merged'.get? x = some j → merged.get? x = some j ∨ j < l'.size ∧ ∀ b, ∃ r t,
    (scopes b).get? x = some r ∧ t < l'.size ∧ l'.root t = l'.root j ∧ (t = r ∨ ⟨b, r, t⟩ ∈ moves)

section

variable {scopes : Bool → Scope} {l l₁ l' : Layout} {merged merged₁ merged' : Scope}
  {moves moves' : List Transfer}

theorem Blends.refl (hwf : l.WellFormed) : Blends scopes l l merged merged [] where
  wf := hwf
  size_le := le_rfl
  kind_old _ _ := rfl
  root_congr _ _ h := h
  copies := by simp
  new := by simp
  names _ _ h := .inl h

theorem Blends.trans (h : Blends scopes l l₁ merged merged₁ moves)
    (h' : Blends scopes l₁ l' merged₁ merged' moves') :
    Blends scopes l l' merged merged' (moves ++ moves') where
  wf := h'.wf
  size_le := h.size_le.trans h'.size_le
  kind_old r hr := (h'.kind_old r (hr.trans_le h.size_le)).trans (h.kind_old r hr)
  root_congr a b hab := h'.root_congr a b (h.root_congr a b hab)
  copies m hm := by
    rcases mem_append.1 hm with hm | hm
    · obtain ⟨hx,hsource,hdest,hkind⟩ := h.copies m hm
      refine ⟨hx, hsource.trans_le h'.size_le, hdest.trans_le h'.size_le, ?_⟩
      rw [h'.kind_old _ hsource,h'.kind_old _ hdest,hkind]
    · exact h'.copies m hm
  new m hm := by
    rcases mem_append.1 hm with hm | hm
    · exact h.new m hm
    · exact h.size_le.trans (h'.new m hm)
  names x j hj := by
    rcases h'.names x j hj with hj | ⟨hlt,hsides⟩
    · rcases h.names x j hj with hj | ⟨hlt,hsides⟩
      · exact .inl hj
      · refine .inr ⟨hlt.trans_le h'.size_le, fun b => ?_⟩
        obtain ⟨r,t,hr,ht,hroot,hcopy⟩ := hsides b
        exact ⟨r, t, hr, ht.trans_le h'.size_le, h'.root_congr t j hroot,
          hcopy.imp_right (mem_append_left moves')⟩
    · refine .inr ⟨hlt, fun b => ?_⟩
      obtain ⟨r,t,hr,ht,hroot,hcopy⟩ := hsides b
      exact ⟨r, t, hr, ht, hroot, hcopy.imp_right (mem_append_right moves)⟩

end

theorem Secured.transfers {before : Nat} {R R' : Registers} {r r' : Register} {live live' : List Bool}
    {ops : List Op} (h : Secured before R r live R' r' live' ops) (cond : Bool → Condition) (b : Bool) :
    ∃ moves : List Transfer, ops.map (GuardedOp.mk (cond b)) = moves.map (Transfer.op cond) ∧
      (∀ m ∈ moves, m = ⟨b, r, r'⟩) ∧ (r' = r ∨ ⟨b, r, r'⟩ ∈ moves) ∧ (moves.map (·.dest)).Nodup ∧
      ∀ m ∈ moves, R.size ≤ m.dest := by
  cases h with
  | keep _ => exact ⟨[], rfl, by simp, .inl rfl, by simp, by simp⟩
  | copy => exact ⟨[⟨b, r, R.size⟩], rfl, by simp, .inr (mem_singleton_self _), by simp, by simp⟩

theorem Secured.transfers_both {before : Nat} {R R₁ R₂ : Registers} {t u t' u' : Register}
    {liveT liveT' liveF liveF' : List Bool} {opsT opsF : List Op}
    (hT : Secured before R t liveT R₁ t' liveT' opsT) (hF : Secured before R₁ u liveF R₂ u' liveF' opsF)
    (ht : t < R.size) (cond : Bool → Condition) :
    ∃ moves : List Transfer,
      opsT.map (GuardedOp.mk (cond true)) ++ opsF.map (GuardedOp.mk (cond false)) =
        moves.map (Transfer.op cond) ∧
      (∀ m ∈ moves, m = ⟨true, t, t'⟩ ∨ m = ⟨false, u, u'⟩) ∧ (t' = t ∨ ⟨true, t, t'⟩ ∈ moves) ∧
      (u' = u ∨ ⟨false, u, u'⟩ ∈ moves) ∧ (moves.map (·.dest)).Nodup ∧ ∀ m ∈ moves, R.size ≤ m.dest := by
  obtain ⟨movesT,hopsT,hmovesT,hcopyT,hdestsT,hnewT⟩ := hT.transfers cond true
  obtain ⟨movesF,hopsF,hmovesF,hcopyF,hdestsF,hnewF⟩ := hF.transfers cond false
  refine ⟨movesT ++ movesF, by rw [hopsT,hopsF,map_append], fun m hm => ?_,
    hcopyT.imp_right (mem_append_left _),
    hcopyF.imp_right (mem_append_right _), ?_, forall_mem_append.2 ⟨hnewT, fun m hm => ?_⟩⟩
  · exact (mem_append.1 hm).imp (hmovesT m) (hmovesF m)
  · rw [map_append,nodup_append]
    refine ⟨hdestsT, hdestsF, fun a ha b hb heq => ?_⟩
    obtain ⟨m,hm,rfl⟩ := mem_map.1 ha
    obtain ⟨m',hm',rfl⟩ := mem_map.1 hb
    have hlt := hT.lt_size ht
    rw [hmovesT m hm] at heq
    exact absurd (hnewF m' hm') (not_le.2 (heq ▸ hlt))
  · exact hT.size_le.trans (hnewF m hm)

def armScopes (arms : Arm × Arm) (b : Bool) : Scope := (armOf arms b).scope

section

variable {f : Frame} {span : Span} {before : Nat} {arms arms' : Arm × Arm} {merged merged' : Scope}
  {d d' : Draft}

theorem joinRegisters_blends {t u joined : Register} {x : String}
    (h : joinRegisters t u before arms d = .ok ((joined, arms'), d'))
    (hwf : d.registers.layout.WellFormed) (hbefore : before ≤ d.size) (ht : arms.1.scope.get? x = some t)
    (hu : arms.2.scope.get? x = some u) (htlt : t < d.size) (hult : u < d.size)
    (hkind : d.registers.kind u = d.registers.kind t) :
    ∃ moves, Blends (armScopes arms) d.registers.layout d'.registers.layout merged
      (merged.bind x joined) moves ∧ d' = { d with
        registers := d'.registers
        ops := d.ops ++ moves.map (Transfer.op (conditions arms)) } ∧
      armScopes arms' = armScopes arms ∧ conditions arms' = conditions arms := by
  have hbind : ∀ {y : String} {j : Register}, (merged.bind x joined).get? y = some j →
      merged.get? y = some j ∨ y = x ∧ j = joined := by
    intro y j hj
    rw [Scope.get?_bind] at hj
    split at hj
    · rename_i hy
      exact .inr ⟨hy, (Option.some.inj hj).symm⟩
    · exact .inl hj
  rcases joinRegisters_eq_ok h with ⟨hroot,rfl,rfl,rfl⟩ | ⟨-,_,R₂,t',u',_,_,_,_,_,_,hT,hF,-,rfl,rfl,rfl⟩
  · refine ⟨[], ⟨hwf, le_rfl, fun _ _ => rfl, fun _ _ hab => hab, by simp, by simp, fun y j hj => ?_⟩,
      by simp, rfl, rfl⟩
    refine (hbind hj).imp_right ?_
    rintro ⟨rfl,rfl⟩
    have hself : d'.registers.layout.root t = d'.registers.layout.root (d'.registers.resolve t) :=
      (hwf.root_root t).symm
    refine ⟨hwf.root_lt htlt, fun b => ?_⟩
    cases b with
    | true => exact ⟨t, t, ht, htlt, hself, .inl rfl⟩
    | false => exact ⟨u, u, hu, hult, hroot.symm.trans hself, .inl rfl⟩
  · have hjoint := hT.joint hF hwf hbefore htlt hult hkind
    obtain ⟨moves,hops,hmoves,hcopyT,hcopyF,-,hnew⟩ := hT.transfers_both hF htlt (conditions arms)
    have hsize₁ : d.size ≤ R₂.size := hT.size_le.trans hF.size_le
    have hsize := hjoint.size₃
    have ht' : t' < R₂.size := hjoint.lt_size.1
    have hu' : u' < R₂.size := hjoint.lt_size.2
    have hkindT : R₂.kind t = R₂.kind t' := by
      rw [hF.kind_old (hT.lt_size htlt),hT.kind_eq,hjoint.kind_old t htlt]
    have hkindF : R₂.kind u = R₂.kind u' := by
      rw [hjoint.kind_old u hult,hkind,← hjoint.kind_old t htlt,hkindT,hjoint.kind_eq]
    refine ⟨moves, ⟨hjoint.wf₃, ?_, ?_, ?_, ?_, hnew, fun y j hj => ?_⟩, ?_, ?_, ?_⟩
    · exact hsize₁.trans hsize.symm.le
    · exact fun r hr => (hjoint.kind₃ r).trans (hjoint.kind_old r hr)
    · intro a b hab
      show (R₂.join t' u').2.resolve a = (R₂.join t' u').2.resolve b
      rw [hjoint.resolve₃,hjoint.resolve₃,show d.registers.resolve a = d.registers.resolve b from hab]
    · intro m hm
      have hkinds : ∀ r, (R₂.join t' u').2.layout.kind r = R₂.kind r := hjoint.kind₃
      rw [hkinds,hkinds,show (R₂.join t' u').2.layout.size = R₂.size from hsize]
      rcases hmoves m hm with rfl | rfl
      · exact ⟨⟨x, ht⟩, htlt.trans_le hsize₁, ht', hkindT⟩
      · exact ⟨⟨x, hu⟩, hult.trans_le hsize₁, hu', hkindF⟩
    · refine (hbind hj).imp_right ?_
      rintro ⟨rfl,rfl⟩
      refine ⟨hjoint.lt_size₃, fun b => ?_⟩
      rw [show (R₂.join t' u').2.layout.size = R₂.size from hsize]
      cases b with
      | true =>
        exact ⟨t, t', ht, ht', (hjoint.resolve₃_eq_iff t').2 (.inl rfl), hcopyT⟩
      | false =>
        exact ⟨u, u', hu, hu', (hjoint.resolve₃_eq_iff u').2 (.inr rfl), hcopyF⟩
    · rw [← hops]
      rfl
    · exact funext fun b => by cases b <;> rfl
    · exact funext fun b => by cases b <;> rfl

theorem joinNames_blends {xs : List String}
    (h : joinNames f span before xs arms merged d = .ok ((merged', arms'), d'))
    (hwf : d.registers.layout.WellFormed) (hbefore : before ≤ d.size)
    (hscopes : ∀ b x r, (armScopes arms b).get? x = some r → r < d.size) :
    ∃ moves, Blends (armScopes arms) d.registers.layout d'.registers.layout merged merged' moves ∧
      d' = { d with
        registers := d'.registers
        ops := d.ops ++ moves.map (Transfer.op (conditions arms))
        log := d'.log } ∧
      armScopes arms' = armScopes arms ∧ conditions arms' = conditions arms := by
  induction xs generalizing arms merged d with
  | nil =>
    obtain ⟨hresult,rfl⟩ := (pure_eq_ok _ _).1 h
    cases hresult
    exact ⟨[], .refl hwf, by simp, rfl, rfl⟩
  | cons x xs ih =>
    obtain ⟨t,u,_,_,e,ht,hu,hkind,hjoin,h⟩ := joinNames_cons_eq_ok h
    obtain ⟨moves,hblends,hdraft,hscope,hcond⟩ := @joinRegisters_blends _ _ _ merged _ _ _
      _ _ _ hjoin hwf hbefore ht hu (hscopes true x t ht) (hscopes false x u hu) hkind
    obtain ⟨moves',hblends',hdraft',hscope',hcond'⟩ := ih h hblends.wf (hbefore.trans hblends.size_le)
      fun b y r hr => (hscopes b y r (hscope ▸ hr)).trans_le hblends.size_le
    rw [hscope] at hblends' hscope'
    rw [hcond] at hdraft' hcond'
    refine ⟨moves ++ moves', hblends.trans hblends', ?_, hscope', hcond'⟩
    rw [hdraft',hdraft]
    simp only [Draft.logged,append_assoc,map_append]

theorem orphans_condition {registers : Registers} {reachable : List Register} {p : Register × Condition}
    (hp : p ∈ orphans registers reachable before arms) : ∃ b, p.2 = conditions arms b := by
  simp only [orphans,mem_filterMap,Option.map_eq_some_iff] at hp
  obtain ⟨_,-,r,-,rfl⟩ := hp
  split
  · exact ⟨true, rfl⟩
  · exact ⟨false, rfl⟩

end

namespace Draft

/-- Behind two arms that both go on. -/
structure Reunion (d dt df d' : Draft) (moves : List Transfer)
    (frees : List (Register × Condition)) : Prop where
  blends : Blends (fun b => bif b then dt.scope else df.scope) df.registers.layout d'.registers.layout
    .empty d'.scope moves
  ops_eq : d'.ops = df.ops ++ moves.map (Transfer.op d.armCondition) ++
    freeOps df.control.conditionCount frees
  count_eq : d'.control.conditionCount = df.control.conditionCount + frees.length
  sides : ∀ p ∈ frees, ∃ b, p.2 = d.armCondition b

theorem count_freeAll (d : Draft) (f : Frame) (rs : List (Register × Condition)) :
    (d.freeAll f rs).control.conditionCount = d.control.conditionCount + rs.length := by
  induction rs generalizing d with
  | nil => rfl
  | cons p rs ih =>
    have hcount : (d.free f p.2 p.1).control.conditionCount = d.control.conditionCount + 1 := rfl
    rw [freeAll,ih,hcount,length_cons,Nat.add_right_comm,Nat.add_assoc]

variable {f : Frame} {span : Span} {d dt df d' : Draft}

theorem armScopes_ends : armScopes (ends d dt df) = fun b => bif b then dt.scope else df.scope :=
  funext fun b => by cases b <;> rfl

theorem conditions_ends : conditions (ends d dt df) = d.armCondition :=
  funext fun b => by cases b <;> rfl

section

variable (h : mergeArms f span d.scope d.size (ends d dt df).1 (ends d dt df).2 (df.under d.current) =
  .ok ((), d'))

include h

theorem merge_spec : ∃ arms e frees,
      joinNames f span d.size (orderedSet (d.scope.names ++ dt.scope.names.filter df.scope.contains))
          (ends d dt df) .empty (df.under d.current) = .ok ((d'.scope, arms), e) ∧
        d'.registers.layout = e.registers.layout ∧
          d'.ops = e.ops ++ freeOps e.control.conditionCount frees ∧
        d'.control.conditionCount = e.control.conditionCount + frees.length ∧
        ∀ p ∈ frees, ∃ b, p.2 = conditions arms b := by
  obtain ⟨merged,arms,e,hjoin,rfl⟩ := mergeArms_eq_ok h
  obtain ⟨hscope,-,-,-,hops,hlayout,-⟩ := freeAll_spec
    { e with
      registers := e.registers.withLive ((List.range e.size).map
        (joinedFlag e.registers (merged.reachable e.registers) d.size arms))
      scope := merged } f (orphans e.registers (merged.reachable e.registers) d.size arms)
  refine ⟨arms, e, orphans e.registers (merged.reachable e.registers) d.size arms, ?_, ?_, hops, ?_, ?_⟩
  · rw [settle,hscope]
    exact hjoin
  · rw [settle,hlayout,Registers.layout_withLive]
  · rw [settle,count_freeAll]
  · exact fun p hp => orphans_condition hp

theorem reunion_of_merge (hwf : df.registers.layout.WellFormed) (hbefore : d.size ≤ df.size)
    (hT : ∀ x r, dt.scope.get? x = some r → r < df.size)
    (hF : ∀ x r, df.scope.get? x = some r → r < df.size) :
    ∃ moves frees, Reunion d dt df d' moves frees := by
  obtain ⟨_,e,frees,hjoin,hlayout,hops,hcount,hfrees⟩ := merge_spec h
  obtain ⟨moves,hblends,hdraft,-,hcond⟩ := joinNames_blends hjoin hwf hbefore fun b x r hx => by
    cases b with
    | true => exact hT x r hx
    | false => exact hF x r hx
  rw [armScopes_ends] at hblends
  rw [conditions_ends] at hdraft hcond
  have hcontrol : e.control = df.control := by rw [hdraft]; rfl
  refine ⟨moves, frees, ?_, ?_, ?_, ?_⟩
  · rw [hlayout]
    exact hblends
  · rw [hops,hcontrol,hdraft]
    rfl
  · rw [hcount,hcontrol]
  · intro p hp
    obtain ⟨b,hb⟩ := hfrees p hp
    exact ⟨b, hb.trans (congrFun hcond b)⟩

end

end Draft

end Polled
