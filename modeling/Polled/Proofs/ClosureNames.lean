import Mathlib.Data.List.Perm.Subperm
import Polled.Proofs.Branching

/-!
Names of closures.

The names of all closures of a function are different, however deep its loops stand in each other, and
none of them is the name of a function.
-/

namespace Polled

open Lower Draft List

variable {k k' : Nat} {table : SignatureTable} {name' : String} {names : List String}

/-- Names of the loops with numbers above `low` up to `high`, and of the loops inside of them. -/
def Below (name : String) (low high : Nat) (s : String) : Prop :=
  ∃ k rest, low < k ∧ k ≤ high ∧ s = name ++ "_" ++ toString k ++ rest ∧
    (rest = "" ∨ ∃ t, rest = "_" ++ t)

section

variable {name s : String} {low mid high : Nat}

theorem toList_toString_ne (k : Nat) : ∀ c ∈ (toString k).toList, (c != '_') = true := by
  intro c hc
  have hc : c ∈ (Nat.repr k).toList := hc
  have hdigit : c.isDigit = true := by
    rw [Nat.repr] at hc
    exact @Nat.isDigit_of_mem_toDigits 10 k c (by decide) (by decide) (by simpa using hc)
  refine bne_iff_ne.2 ?_
  rintro rfl
  exact absurd hdigit (by decide)

theorem toList_toString_injective (h : (toString k).toList = (toString k').toList) : k = k' := by
  have hrepr : (Nat.repr k).toList = (Nat.repr k').toList := h
  have hdigits : Nat.toDigits 10 k = Nat.toDigits 10 k' := by simpa [Nat.repr] using hrepr
  rw [← @Nat.ofDigitChars_toDigits 10 k (by decide) (by decide),hdigits,
    @Nat.ofDigitChars_toDigits 10 k' (by decide) (by decide)]

theorem number_eq {k k' : Nat} {rest rest' : String} (hrest : rest = "" ∨ ∃ t, rest = "_" ++ t)
    (hrest' : rest' = "" ∨ ∃ t, rest' = "_" ++ t)
    (h : name ++ "_" ++ toString k ++ rest = name ++ "_" ++ toString k' ++ rest') : k = k' := by
  have htake : ∀ {r : String} (n : Nat), (r = "" ∨ ∃ t, r = "_" ++ t) →
      ((toString n).toList ++ r.toList).takeWhile (· != '_') = (toString n).toList := by
    intro r n hr
    rw [takeWhile_append_of_pos (toList_toString_ne n)]
    rcases hr with rfl | ⟨t,rfl⟩ <;> simp
  have hlist := congrArg String.toList h
  simp only [String.toList_append,append_assoc,append_cancel_left_eq] at hlist
  have hdigits := congrArg (takeWhile (· != '_')) hlist
  rw [htake k hrest,htake k' hrest'] at hdigits
  exact toList_toString_injective hdigits

theorem Below.disjoint (h : Below name low mid s) (h' : Below name mid high s) : False := by
  obtain ⟨k,_,-,hk,rfl,hrest⟩ := h
  obtain ⟨_,_,hk',-,heq,hrest'⟩ := h'
  obtain rfl := number_eq hrest hrest' heq
  exact absurd hk (not_le.2 hk')

theorem Below.mono {low' high' : Nat} (h : Below name low high s) (hlow : low' ≤ low)
    (hhigh : high ≤ high') :
    Below name low' high' s := by
  obtain ⟨k,rest,hk,hk',heq,hrest⟩ := h
  exact ⟨k, rest, hlow.trans_lt hk, hk'.trans hhigh, heq, hrest⟩

theorem Below.inner {count inner : Nat} (hlow : low < count)
    (h : Below (name ++ "_" ++ toString count) 0 inner s) :
    Below name low count s ∧ s ≠ name ++ "_" ++ toString count := by
  obtain ⟨k,rest,-,-,rfl,-⟩ := h
  refine ⟨⟨count, "_" ++ (toString k ++ rest), hlow, le_rfl, ?_, .inr ⟨_, rfl⟩⟩, ?_⟩
  · simp only [String.append_assoc]
  · intro heq
    have hlength := congrArg (fun t => t.toList.length) heq
    simp only [String.toList_append,length_append] at hlength
    have hone : "_".toList.length = 1 := by decide
    omega

/-- The name of a loop of a routine, or of a loop inside of one. None of them is the name of a
function. -/
inductive LoopName (table : SignatureTable) (name : String) : String → Prop
  | outer {k : Nat} (h : table.lookup? (name ++ "_" ++ toString k) = none) :
      LoopName table name (name ++ "_" ++ toString k)
  | inner {mid : String} {k : Nat} (hmid : LoopName table name mid)
      (h : table.lookup? (mid ++ "_" ++ toString k) = none) :
        LoopName table name (mid ++ "_" ++ toString k)

theorem LoopName.lookup? (h : LoopName table name s) : table.lookup? s = none := by
  cases h with
  | outer h => exact h
  | inner _ h => exact h

theorem LoopName.trans {mid : String} (h : LoopName table name mid) (h' : LoopName table mid s) :
    LoopName table name s := by
  induction h' with
  | outer hk => exact .inner h hk
  | inner _ hk ih => exact .inner ih hk

theorem stem_eq (h : name ++ "_" ++ toString k = name' ++ "_" ++ toString k') : name = name' := by
  have hdrop : ∀ (stem : String) (n : Nat),
      (stem ++ "_" ++ toString n).toList.reverse.dropWhile (· != '_') = '_' :: stem.toList.reverse := by
    intro stem n
    have hdigits : ∀ c ∈ (toString n).toList.reverse, (c != '_') = true := fun c hc =>
      toList_toString_ne n c (mem_reverse.1 hc)
    have hlist : (stem ++ "_" ++ toString n).toList.reverse =
        (toString n).toList.reverse ++ '_' :: stem.toList.reverse := by
      simp [String.toList_append]
    rw [hlist,dropWhile_append_of_pos hdigits]
    simp
  have hlist := congrArg (fun t => t.toList.reverse.dropWhile (· != '_')) h
  simp only [hdrop,cons.injEq,true_and,reverse_inj] at hlist
  exact String.toList_inj.1 hlist

theorem LoopName.root_eq (h : LoopName table name s) (h' : LoopName table name' s)
    (hname : table.lookup? name ≠ none) (hname' : table.lookup? name' ≠ none) : name = name' := by
  induction h with
  | @outer k hk =>
    generalize hs : name ++ "_" ++ toString k = s at h'
    cases h' with
    | outer => exact stem_eq hs
    | inner hmid => exact absurd (stem_eq hs ▸ hmid.lookup?) hname
  | @inner mid k hmid _ ih =>
    generalize hs : mid ++ "_" ++ toString k = s at h'
    cases h' with
    | outer => exact absurd (stem_eq hs ▸ hmid.lookup?) hname'
    | inner hmid' => exact ih (stem_eq hs ▸ hmid')

end

namespace Draft

/-- New closures have names that are new, too. -/
def Sprouts (f : Frame) (d d' : Draft) : Prop :=
  ∃ new, d'.closures = d.closures ++ new ∧ d.loopCount ≤ d'.loopCount ∧ (new.map (·.name)).Nodup ∧
    ∀ c ∈ new, f.table.lookup? c.name = none ∧ Below f.name d.loopCount d'.loopCount c.name

def Still (d d' : Draft) : Prop := d'.closures = d.closures ∧ d'.loopCount = d.loopCount

variable {f : Frame} {d e d' : Draft}

theorem Still.trans (h : d.Still e) (h' : e.Still d') : d.Still d' := ⟨h'.1.trans h.1, h'.2.trans h.2⟩

theorem still_freeAll (d : Draft) (f : Frame) (rs : List (Register × Condition)) :
    d.Still (d.freeAll f rs) := by
  obtain ⟨-,-,hclosures,hloops,-⟩ := d.freeAll_spec f rs
  exact ⟨hclosures, hloops⟩

theorem Still.sprouts (h : d.Still d') : Sprouts f d d' :=
  ⟨[], by simp [h.1], h.2.symm.le, by simp, by simp⟩

theorem Sprouts.trans (h : Sprouts f d e) (h' : Sprouts f e d') : Sprouts f d d' := by
  obtain ⟨new,heq,hle,hnodup,hnew⟩ := h
  obtain ⟨new',heq',hle',hnodup',hnew'⟩ := h'
  refine ⟨new ++ new', by rw [heq',heq,append_assoc], hle.trans hle', ?_, ?_⟩
  · rw [map_append,nodup_append]
    refine ⟨hnodup, hnodup', ?_⟩
    rintro s hs t ht rfl
    obtain ⟨c,hc,rfl⟩ := mem_map.1 hs
    obtain ⟨c',hc',heq⟩ := mem_map.1 ht
    exact ((hnew c hc).2.disjoint (heq ▸ (hnew' c' hc').2)).elim
  · intro c hc
    rcases mem_append.1 hc with hc | hc
    · exact ⟨(hnew c hc).1, (hnew c hc).2.mono le_rfl hle'⟩
    · exact ⟨(hnew' c hc).1, (hnew' c hc).2.mono hle le_rfl⟩

theorem Sprouts.isPrefix (h : Sprouts f d d') : d.closures <+: d'.closures := by
  obtain ⟨new,heq,-⟩ := h
  exact ⟨new, heq.symm⟩

end Draft

section

variable {f : Frame} {d d' : Draft} {rs : List Register} {flow : Flow} {span : Span} {value : Expr}

theorem still_sweep (h : sweep f d = .ok ((), d')) : d.Still d' := by
  obtain rfl := (sweep_eq_ok f ()).1 h
  exact d.still_freeAll f _

theorem still_callWith {sig : Signature} {passed : List Passed}
    (h : callWith f sig passed d = .ok (rs, d')) : d.Still d' := by
  obtain ⟨_,_,_,_,-,hre,-⟩ := callWith_eq_ok h
  obtain ⟨_,hres,-⟩ := d.exists_reserveAll sig.returns
  rw [hres] at hre
  obtain ⟨_,rfl⟩ := rebindThreads_eq_ok hre
  exact ⟨rfl, rfl⟩

theorem Phrase.Lowers.still {p : Phrase} (h : Lowers f p d rs d') : d.Still d' := by
  induction h with
  | name | truth | integer | text | nil | thread | done => exact ⟨rfl, rfl⟩
  | tuple _ ih | pass _ ih => exact ih
  | call _ _ hcall ih => exact ih.trans (still_callWith hcall)
  | compare _ _ _ _ ih ih' | cons _ _ ih ih' => exact ih.trans ih'
  | next _ _ hpass _ ih ih' =>
    subst hpass
    refine (ih.trans ?_).trans ih'
    split <;> exact ⟨rfl, rfl⟩

theorem Expr.still (h : value.lower f d = .ok (rs, d')) : d.Still d' := (value.lowers h).still

theorem Stmt.still_bind {names : List (Located String)}
    (h : (Stmt.bind span names value).lower f d = .ok (flow, d')) :
    d.Still d' := by
  simp only [Stmt.lower,bind_eq_ok,unless_eq_ok,bindNames_eq_ok,pure_eq_ok] at h
  obtain ⟨rs,e,hvalue,-,_,_,rfl,-,rfl⟩ := h
  obtain ⟨_,heq⟩ := e.exists_giveNames (names.map (·.node)) rs
  have hstill := value.still hvalue
  rw [heq]
  exact hstill

theorem Stmt.still_run (h : (Stmt.run span value).lower f d = .ok (flow, d')) : d.Still d' := by
  simp only [Stmt.lower,bind_eq_ok,unless_eq_ok,pure_eq_ok] at h
  obtain ⟨_,_,hvalue,-,-,rfl⟩ := h
  exact value.still hvalue

theorem still_exitValues {value : Option Expr} (h : exitValues f value d = .ok (rs, d')) :
    d.Still d' := by
  cases value with
  | none =>
    obtain ⟨-,rfl⟩ := (pure_eq_ok _ _).1 h
    exact ⟨rfl, rfl⟩
  | some value => exact value.still h

theorem still_lowerExit {value : Option Expr} (h : lowerExit f span value d = .ok (flow, d')) :
    d.Still d' := by
  obtain ⟨rs,e,garbage,-,-,hvalues,-,-,-,rfl⟩ := lowerExit_eq_ok h
  obtain ⟨registers,heq,-⟩ := e.exists_disownAll (garbage ++ orderedSet (rs.map e.registers.resolve))
  have hstill := still_exitValues hvalues
  rw [heq]
  exact hstill

theorem still_joinNames {before : Nat} {xs : List String} {arms arms' : Arm × Arm}
    {merged merged' : Scope}
    (h : joinNames f span before xs arms merged d = .ok ((merged', arms'), d')) : d.Still d' := by
  induction xs generalizing arms merged d with
  | nil =>
    obtain ⟨-,rfl⟩ := (pure_eq_ok _ _).1 h
    exact ⟨rfl, rfl⟩
  | cons x xs ih =>
    obtain ⟨t,u,_,_,e,-,-,-,hjoin,h⟩ := joinNames_cons_eq_ok h
    have hjoined : d.Still e := by
      rcases joinRegisters_eq_ok hjoin with ⟨-,-,-,rfl⟩ | ⟨-,_,_,_,_,_,_,_,_,_,_,-,-,-,-,-,rfl⟩ <;>
        exact ⟨rfl, rfl⟩
    have hrest := ih h
    exact hjoined.trans hrest

theorem Draft.Behind.still {dt df : Draft} {flowT flowF : Flow}
    (h : Behind f span d dt df d' flowT flowF flow) :
    df.Still d' := by
  cases flowT with
  | returns => cases flowF <;> exact h.2 ▸ ⟨rfl, rfl⟩
  | continues =>
    cases flowF with
    | returns => exact h.2 ▸ ⟨rfl, rfl⟩
    | continues =>
      obtain ⟨_,_,e,hjoin,rfl⟩ := mergeArms_eq_ok h.2
      exact (still_joinNames hjoin).trans (still_freeAll _ _ _)

end

namespace Lower

variable {f : Frame} {d d' : Draft}

/-- There is a name that no function has: as many are tried as there are functions, and one more. -/
theorem closureName_eq_ok {name : String} (h : closureName f d = .ok (name, d')) :
    ∃ count, d.loopCount < count ∧ name = f.name ++ "_" ++ toString count ∧ f.table.lookup? name = none ∧
      d' = { d with loopCount := count } := by
  have hsome : ∃ k, List.find? (fun k => !f.table.contains s!"{f.name}_{k}")
      ((List.range (f.table.size + 1)).map (d.loopCount + 1 + ·)) = some k := by
    by_contra hnone
    have hnone := find?_eq_none.1 (Option.eq_none_iff_forall_ne_some.2 fun k hk => hnone ⟨k, hk⟩)
    have hmem : ∀ i < f.table.size + 1, f.name ++ "_" ++ toString (d.loopCount + 1 + i) ∈
        f.table.entries.map (·.name) := by
      intro i hi
      have hi := hnone _ (mem_map_of_mem (mem_range.2 hi))
      simp only [SignatureTable.contains,SignatureTable.lookup?,Bool.not_eq_true',Bool.not_eq_false,
        find?_isSome,beq_iff_eq] at hi
      obtain ⟨sig,hsig,heq⟩ := hi
      exact mem_map.2 ⟨sig, hsig, heq⟩
    have hnodup : ((List.range (f.table.size + 1)).map fun i =>
        f.name ++ "_" ++ toString (d.loopCount + 1 + i)).Nodup := by
      refine List.Nodup.map (fun i j hij => ?_) nodup_range
      have hij := @number_eq f.name (d.loopCount + 1 + i) (d.loopCount + 1 + j) "" ""
        (.inl rfl) (.inl rfl) (by simpa using hij)
      exact Nat.add_left_cancel hij
    have hle := (hnodup.subperm fun s hs => by
      obtain ⟨i,hi,rfl⟩ := mem_map.1 hs
      exact hmem i (mem_range.1 hi)).length_le
    simp only [length_map,length_range,SignatureTable.size] at hle
    exact absurd hle (Nat.not_succ_le_self _)
  obtain ⟨k,hk⟩ := hsome
  simp only [closureName,bind_eq_ok,get_eq_ok,set_eq_ok,pure_eq_ok] at h
  obtain ⟨_,_,⟨rfl,rfl⟩,_,_,rfl,rfl,rfl⟩ := h
  rw [hk]
  obtain ⟨i,-,rfl⟩ := mem_map.1 (mem_of_find?_eq_some hk)
  refine ⟨_, (Nat.lt_add_one _).trans_le (Nat.le_add_right _ i), rfl, ?_, rfl⟩
  have hfound := find?_some hk
  simpa [SignatureTable.contains] using hfound

theorem separately_eq_ok {params : List (String × Kind)} {step : Lower Unit} {inner : Draft}
    (h : separately params step d = .ok (inner, d')) :
    step (.start params d.log) = .ok ((), inner) ∧ d' = { d with log := inner.log } := by
  unfold separately at h
  split at h
  · rename_i result hstep
    cases h
    exact ⟨hstep, rfl⟩
  · cases h

theorem entryValues_eq_ok {span : Span} {cs : List Capture} {rs : List Register}
    (h : entryValues span cs d = .ok (rs, d')) :
    cs.map (fun c => d.scope.get? c.name) = rs.map some ∧ d' = d := by
  induction cs generalizing rs with
  | nil =>
    obtain ⟨rfl,rfl⟩ := (pure_eq_ok _ _).1 h
    exact ⟨rfl, rfl⟩
  | cons c cs ih =>
    simp only [entryValues,bind_eq_ok,read_eq_ok,pure_eq_ok] at h
    obtain ⟨r,_,⟨hr,rfl⟩,_,_,hrs,rfl,rfl⟩ := h
    obtain ⟨hmap,rfl⟩ := ih hrs
    exact ⟨by rw [map_cons,map_cons,hr,hmap], rfl⟩

end Lower

/-- The draft in which the condition of a loop is looked at for the first time. -/
def Draft.enclose (d : Draft) (kinds : List Kind) (count : Nat) (log : List Event)
    (new : List Routine) : Draft :=
  { ({ d with loopCount := count } : Draft).reserveAll kinds with
    log, closures := d.closures ++ new : Draft }.tick.tick

theorem Draft.closures_enclose (d : Draft) (kinds : List Kind) (count : Nat) (log : List Event)
    (new : List Routine) :
    (d.enclose kinds count log new).closures = d.closures ++ new := by
  obtain ⟨_,heq,-⟩ := Draft.exists_reserveAll { d with loopCount := count } kinds
  rw [enclose,heq]
  rfl

def Draft.captures (d : Draft) (names : List String) : List Capture :=
  names.filterMap fun x => (d.scope.get? x).map fun r => ⟨x, d.registers.kind r⟩

def Frame.loop (f : Frame) (count : Nat) (captures : List Capture) : Frame where
  table := f.table
  name := f.name ++ "_" ++ toString count
  isSync := false
  params := captures.map fun c => (c.name, c.kind)
  returnKinds := captures.map (·.kind)
  inLoop := true

namespace Lower

variable {f : Frame} {d d' : Draft}

theorem capturesOf_eq_ok {captures : List Capture} (h : capturesOf names d = .ok (captures, d')) :
    captures = d.captures names ∧ d = d' := by
  simp only [capturesOf,bind_eq_ok,get_eq_ok,pure_eq_ok] at h
  obtain ⟨_,_,⟨rfl,rfl⟩,rfl,rfl⟩ := h
  exact ⟨rfl, rfl⟩

theorem sprouts_enclose {captures : List Capture} {count : Nat} {draft : Draft} {log log' : List Event}
    {kinds : List Kind} (hcount : d.loopCount < count)
    (hfresh : f.table.lookup? (f.loop count captures).name = none)
    (hinner : Draft.Sprouts (f.loop count captures) (.start (f.loop count captures).params log') draft) :
    Draft.Sprouts f d
      (d.enclose kinds count log (draft.routine (f.loop count captures) :: draft.closures)) := by
  obtain ⟨_,hres,-⟩ := Draft.exists_reserveAll { d with loopCount := count } kinds
  obtain ⟨new,heq,-,hnodup,hnew⟩ := hinner
  have heq : draft.closures = new := heq
  rw [Draft.enclose,hres,heq]
  refine ⟨draft.routine (f.loop count captures) :: new, rfl, hcount.le, ?_, ?_⟩
  · refine nodup_cons.2 ⟨fun hmem => ?_, hnodup⟩
    obtain ⟨c,hc,hname⟩ := mem_map.1 hmem
    exact (Below.inner hcount (hnew c hc).2).2 hname
  · intro c hc
    rcases mem_cons.1 hc with rfl | hc
    · exact ⟨hfresh, count, "", hcount, le_rfl, by simp [Draft.routine,Frame.loop], .inl rfl⟩
    · exact ⟨(hnew c hc).1, (Below.inner hcount (hnew c hc).2).1⟩

end Lower

end Polled
