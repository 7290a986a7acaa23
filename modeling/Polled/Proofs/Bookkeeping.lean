import Polled.Proofs.Derivation

/-!
The books that are kept over a call.

What goes to an owned parameter is handed over before the next argument is looked at (`PassedIn`), and is
gone for good (`Draft.Gone`). `Draft.Called` is what a call leaves behind.
-/

namespace Polled

open Lower List

variable {f : Frame} {d e d' : Draft} {r : Register} {i : Nat} {x : Located String}

def Arg.threaded? : Arg → Option (Located String)
  | .thread x => some x
  | .value _ => none

/-- The register of one argument: that of a threaded variable, or that of a value. -/
inductive Arg.Gives (f : Frame) : Arg → Draft → Register → Draft → Prop
  | thread {x : Located String} {d : Draft} {r : Register} (h : d.scope.get? x.node = some r) :
    Arg.Gives f (.thread x) d r d
  | value {v : Expr} {d e : Draft} {r : Register} (h : v.lower f d = .ok ([r], e)) :
      Arg.Gives f (.value v) d r e

/-- The registers of arguments in order, each passed to its parameter before the next one is looked
at. -/
inductive PassedIn (f : Frame) : Draft → List (String × Kind) → List Arg → List Register → Draft → Prop
  | nil {d : Draft} : PassedIn f d [] [] [] d
  | cons {d e d' : Draft} {param : String × Kind} {params : List (String × Kind)} {arg : Arg}
      {args : List Arg}
      {r : Register} {regs : List Register} (harg : arg.Gives f d r e)
      (hrest : PassedIn f (if param.2.borrowed then e else e.handOver r) params args regs d') :
    PassedIn f d (param :: params) (arg :: args) (r :: regs) d'

/-- No name stands for the value any more, and no register of its group is live. -/
def Draft.Gone (d : Draft) (r : Register) : Prop :=
  ¬d.Named r ∧ ∀ t, d.registers.resolve t = d.registers.resolve r → d.registers.isLive t = false

/-- What a call leaves behind. `regs` are the registers of its arguments, `e` is the draft behind the
last of them, and `rs` are the values of the call. -/
structure Draft.Called (sig : Signature) (args : List Arg) (regs results rs : List Register)
    (d e d' : Draft) :
    Prop where
  last : ∃ slot done, d'.ops = e.ops ++ [⟨d.current, sig.call regs results slot done⟩] ∧
    (done.isSome = true ↔ results = [])
  fresh : d.registers.size ≤ e.registers.size ∧ results = List.range' e.registers.size sig.returns.length
  kinds : results.map d'.registers.kind = sig.returns
  moved : ∀ q ∈ regs.zip sig.params, q.2.2.borrowed = false → d'.Gone q.1
  /-- A threaded variable is the result at the last of its positions, and of the kind that it was
  before. -/
  threaded : ∀ (i : Nat) (x : Located String), args[i]? = some (.thread x) →
    (∀ (j : Nat) (y : Located String), i < j → args[j]? = some (.thread y) → y.node ≠ x.node) →
    ∃ r t, results[i]? = some r ∧ d'.scope.get? x.node = some r ∧ d.scope.get? x.node = some t ∧
      d'.registers.kind r = d.registers.kind t
  returned : rs = (results.zipIdx.filter fun q => (args[q.2]?.bind Arg.threaded?).isNone).map (·.1)

namespace Draft

theorem Gone.later {ops : List GuardedOp} (h : d.Gone r) (hr : r < d.size) (hext : d.Extends d' ops)
    (hquiet : d.Quiet d') (hd : d.Valid) : d'.Gone r := by
  refine ⟨hquiet.not_named hext hd hr h.1, fun t ht => Bool.eq_false_iff.2 fun hlive => ?_⟩
  obtain ⟨hlt,hroot⟩ := hext.grows.root_eq hd.sound.wf hr ht
  exact Bool.eq_false_iff.1 (h.2 t hroot) (hext.live_mono t hlt hlive)

theorem gone_handOver (hsorted : d.scope.Sorted) (r : Register) : (d.handOver r).Gone r := by
  constructor
  · rintro ⟨x,t,hx,htr⟩
    exact ((hsorted.get?_forget _ r x t).1 hx).2 htr
  · intro t ht
    refine Bool.eq_false_iff.2 fun hlive => ((d.registers.isLive_release r t).1 hlive).2 ?_
    simpa [handOver] using ht

theorem Gone.rescope {size : Nat} (h : d.Gone r) (scope : Scope) (hwf : d.registers.layout.WellFormed)
    (hr : r < size) (hscope : ∀ x t, scope.get? x = some t →
      d.scope.get? x = some t ∨ size ≤ t ∧ d.registers.resolve t = t) : ({ d with scope } :
    Draft).Gone r := by
  refine ⟨?_, h.2⟩
  rintro ⟨x,t,hx,htr⟩
  rcases hscope x t hx with hx | ⟨hge,hself⟩
  · exact h.1 ⟨x, t, hx, htr⟩
  · have hle : d.registers.resolve r ≤ r := hwf.root_le r
    rw [← show d.registers.resolve t = _ from htr,hself] at hle
    exact absurd (hle.trans_lt hr) (not_lt.2 hge)

end Draft

theorem Arg.Gives.passed {arg : Arg} {lent : Bool} (h : arg.Gives f d r e) (hd : d.Valid)
    (hd' : d' = if lent then e else e.handOver r) :
    d'.Valid ∧ d.Quiet d' ∧ (∃ ops, d.Extends d' ops) ∧ r < d'.size ∧ (lent = false → d'.Gone r) := by
  obtain ⟨handed,apart,rebound,ops,hline,hhanded⟩ : ∃ handed apart rebound ops,
      Draft.Straight f.table.callees d e [r] [] apart rebound ops ∧ d.Handed e r handed := by
    cases h with
    | thread h => exact ⟨_, _, _, _, .pick hd h, .of_scope h⟩
    | value h =>
      obtain ⟨⟨ops,hops⟩,hhanded⟩ := Expr.straight f.table.callees_cover _ hd h
      exact ⟨_, _, _, ops, hops, hhanded r rfl⟩
  have he := hline.valid hd
  have hr : r < e.size := hline.lt_size hd (mem_singleton_self r)
  subst hd'
  cases lent with
  | true => exact ⟨he, hline.quiet, ⟨_, hline.extend⟩, hr, nofun⟩
  | false =>
    refine ⟨?_, hline.quiet_handOver hd,
      ⟨_, hline.extend.trans (Draft.extends_handOver he)⟩, ?_, fun _ =>
      Draft.gone_handOver he.sorted r⟩
    · by_cases hheap : e.registers.layout.heap r
      · exact (hline.give hd hheap hhanded).valid hd
      · exact (hline.lend hd hheap).valid hd
    · exact hr.trans_le (e.registers.size_release r).symm.le

theorem PassedIn.settles {params : List (String × Kind)} {args : List Arg} {regs : List Register}
    (h : PassedIn f d params args regs e) (hd : d.Valid) :
    e.Valid ∧ d.Quiet e ∧ (∃ ops, d.Extends e ops) ∧
      ∀ q ∈ regs.zip params, q.2.2.borrowed = false → q.1 < e.size ∧ e.Gone q.1 := by
  induction h with
  | nil => exact ⟨hd, .refl, ⟨_, .refl hd.sound.wf hd.sorted⟩, by simp⟩
  | cons harg _ ih =>
    obtain ⟨hm,hquiet,⟨_,hext⟩,hr,hgone⟩ := harg.passed hd rfl
    obtain ⟨he,hquiet',⟨_,hext'⟩,hrest⟩ := ih hm
    refine ⟨he, hquiet.trans hext hd hquiet', ⟨_, hext.trans hext'⟩, fun q hq howned => ?_⟩
    rw [zip_cons_cons] at hq
    rcases mem_cons.1 hq with rfl | hq
    · exact ⟨hr.trans_le hext'.grows.size_le, (hgone howned).later hr hext' hquiet' hm⟩
    · exact hrest q hq howned

theorem passedIn_of_lowerAll {f : Frame} {function : String} :
    (params : List (String × Kind)) → (args : List Arg) →
    {d e : Draft} → {passed : List Passed} → args.length = params.length →
    Arg.lowerAll f function params args d = .ok (passed, e) →
    PassedIn f d params args (passed.map (·.register)) e ∧
      passed.map (fun p => p.thread.map (·.1)) = args.map Arg.threaded?
  | [], [], _, _, _, _, h => by
    obtain ⟨rfl,rfl⟩ := (pure_eq_ok _ _).1 h
    exact ⟨.nil, rfl⟩
  | param :: params, .thread x :: args, d, e, passed, hlen, h => by
    simp only [Arg.lowerAll,bind_eq_ok,read_eq_ok,kindOf_eq_ok,passTo_eq_ok,pure_eq_ok] at h
    obtain ⟨r,_,⟨hx,rfl⟩,_,_,⟨rfl,rfl⟩,_,_,⟨-,rfl⟩,_,_,hrest,rfl,rfl⟩ := h
    obtain ⟨hpassed,hthreads⟩ := passedIn_of_lowerAll params args (by simpa using hlen) hrest
    exact ⟨.cons (.thread hx) hpassed, by simp [hthreads,Arg.threaded?]⟩
  | param :: params, .value v :: args, d, e, passed, hlen, h => by
    simp only [Arg.lowerAll,bind_eq_ok,single_eq_ok,passTo_eq_ok,pure_eq_ok] at h
    obtain ⟨r,_,hv,_,_,⟨-,rfl⟩,_,_,hrest,rfl,rfl⟩ := h
    obtain ⟨hpassed,hthreads⟩ := passedIn_of_lowerAll params args (by simpa using hlen) hrest
    exact ⟨.cons (.value hv) hpassed, by simp [hthreads,Arg.threaded?]⟩

theorem leftOver_eq_filter (results : List Register) (passed : List Passed) (start : Nat)
    (free : Nat → Bool) (hfree : ∀ i, free (start + i) = (passed[i]?.bind (·.thread)).isNone) :
    leftOver results passed = ((results.zipIdx start).filter fun q => free q.2).map (·.1) := by
  induction results generalizing passed start with
  | nil => simp [leftOver]
  | cons r results ih =>
    have hhead := hfree 0
    have htail := ih passed.tail (start + 1) fun i => by
      rw [Nat.add_assoc,Nat.add_comm 1,hfree,getElem?_tail]
    cases passed with
    | nil =>
      have hall : leftOver results [] = results := by cases results <;> rfl
      have hhead : free start = true := by simpa using hhead
      rw [tail_nil,hall] at htail
      rw [leftOver,zipIdx_cons,filter_cons,if_pos hhead,map_cons,← htail]
    | cons p passed =>
      have hhead : free start = p.thread.isNone := by simpa using hhead
      rw [tail_cons] at htail
      rw [leftOver,zipIdx_cons,htail]
      cases hp : p.thread <;> simp [hhead,hp]

/-- A threaded variable is bound at the last of its positions, since later results go to other names. -/
theorem get?_of_last {function : String} {results : List Register} {passed : List Passed}
    {position : Nat} {p : Passed} {k : Kind} (h : rebindThreads function results position passed d =
      .ok ((), d')) (hsorted : d.scope.Sorted)
    (hapart : ∀ (i j : Nat) r t, i < j → results[i]? = some r → results[j]? = some t →
      d.registers.resolve r ≠ d.registers.resolve t)
    (hp : passed[i]? = some p) (hx : p.thread = some (x, k))
    (hlast : ∀ (j : Nat) q y k, i < j → passed[j]? = some q → q.thread = some (y, k) → y.node ≠ x.node) :
    ∃ r, results[position + i]? = some r ∧ d'.scope.get? x.node = some r ∧ d.registers.kind r = k := by
  induction passed generalizing position i d with
  | nil => simp at hp
  | cons q passed ih =>
    obtain ⟨e,hrest,hstep⟩ := rebindThreads_cons h
    cases i with
    | zero =>
      obtain rfl : q = p := by simpa using hp
      obtain ⟨hnone,-⟩ | ⟨y,r,hy,hresult,rfl⟩ := hstep
      · cases hnone.symm.trans hx
      · obtain ⟨rfl,rfl⟩ := Prod.mk.inj (Option.some.inj (hy.symm.trans hx))
        refine ⟨r, hresult, get?_of_rebindThreads hrest (Draft.sorted_giveName hsorted _) ?_ ?_ ?_, rfl⟩
        · intro q' hq' z k' hz
          obtain ⟨j,hj⟩ := mem_iff_getElem?.1 hq'
          exact hlast (j + 1) q' z k' (Nat.succ_pos j) (by simpa using hj) hz
        · exact fun j t hj ht => hapart position j r t hj hresult ht
        · exact (Draft.get?_giveName hsorted).2 (.inl ⟨rfl, rfl⟩)
    | succ i =>
      have hnext : e.scope.Sorted ∧ e.registers = d.registers := by
        obtain ⟨-,rfl⟩ | ⟨y,r,-,-,rfl⟩ := hstep
        · exact ⟨hsorted, rfl⟩
        · exact ⟨Draft.sorted_giveName hsorted _, rfl⟩
      rw [← hnext.2] at hapart ⊢
      obtain ⟨r,hr,hbound⟩ := ih hrest hnext.1 hapart (by simpa using hp) fun j q' y k' hj hq' =>
        hlast (j + 1) q' y k' (Nat.succ_lt_succ hj) (by simpa using hq')
      exact ⟨r, by rw [← hr]; congr 1; omega, hbound⟩

section

variable {sig : Signature} {args : List Arg} {passed : List Passed} {results : List Register}
  {op : Op} {mid : Draft}
variable (h : Draft.AtCall sig passed results op e mid d')

include h

theorem Draft.AtCall.gone (he : e.Valid) (hr : r < e.size) (hgone : e.Gone r) : d'.Gone r := by
  have hres := h.reserves fun _ => none
  have hreb := h.rebound
  have hself := fun t => @Draft.AtCall.resolve_self _ _ _ _ _ _ _ t h
  obtain ⟨_,_,_,rfl⟩ := h.draft
  obtain ⟨scope,rfl⟩ := hreb.draft
  have hgone' := (hgone.later hr hres.extend hres.quiet he).rescope scope (hres.valid he).sound.wf hr ?_
  · exact ⟨hgone'.1, hgone'.2⟩
  · intro x t hx
    rcases hreb.scope x t hx with ⟨hx,-⟩ | ⟨i,_,_,_,-,-,-,ht,-⟩
    · exact .inl hx
    · have hmem := mem_of_getElem? ht
      exact .inr ⟨h.size_le hmem, hself t hmem⟩

variable (hthreads : passed.map (fun p => p.thread.map (·.1)) = args.map Arg.threaded?)

include hthreads

omit h in
theorem thread_eq (i : Nat) : (passed[i]?.bind (·.thread)).map (·.1) = args[i]?.bind Arg.threaded? := by
  have hi := congrArg (·[i]?) hthreads
  simp only [getElem?_map] at hi
  generalize passed[i]? = p, args[i]? = arg at hi ⊢
  cases p <;> cases arg <;> simp_all

theorem Draft.AtCall.threaded (hx : args[i]? = some (.thread x))
    (hlast : ∀ (j : Nat) (y : Located String), i < j → args[j]? = some (.thread y) → y.node ≠ x.node) :
    ∃ p r, p ∈ passed ∧ p.thread = some (x, mid.registers.kind r) ∧ results[i]? = some r ∧
      d'.scope.get? x.node = some r := by
  have hthread := thread_eq hthreads i
  rw [hx] at hthread
  obtain ⟨⟨_,k⟩,hp,rfl⟩ := Option.map_eq_some_iff.1 hthread
  obtain ⟨p,hpi,hp⟩ := Option.bind_eq_some_iff.1 hp
  have hroots : ∀ (i j : Nat) r t, i < j → results[i]? = some r → results[j]? = some t →
      mid.registers.resolve r ≠ mid.registers.resolve t := by
    intro i j r t hij hr ht heq
    rw [h.resolve_self (mem_of_getElem? hr),h.resolve_self (mem_of_getElem? ht)] at heq
    subst heq
    exact hij.ne ((List.getElem?_inj (List.getElem?_eq_some_iff.1 hr).1 h.nodup).1 (hr.trans ht.symm))
  obtain ⟨r,hr,hbound,rfl⟩ := get?_of_last h.rebinds h.valid.sorted hroots hpi hp
    fun j q y k hj hq hy => by
    have hthread := thread_eq hthreads j
    rw [hq,Option.bind_some,hy] at hthread
    obtain ⟨arg,harg,hy⟩ := Option.bind_eq_some_iff.1 hthread.symm
    cases arg with
    | value v => cases hy
    | thread z => exact hlast j y hj (by rw [harg,Option.some.inj hy])
  exact ⟨p, r, mem_of_getElem? hpi, hp, Nat.zero_add i ▸ hr, hbound⟩

end

/-- What a call leaves behind, for every callee and all arguments. -/
theorem call_bookkeeping {f : Frame} {d d' : Draft} {span : Span} {callee : Located String}
    {args : List Arg} {rs : List Register} (hd : d.Valid)
    (h : (Expr.call span callee args).lower f d = .ok (rs, d')) :
    ∃ sig regs results e, f.table.lookup? callee.node = some sig ∧ PassedIn f d sig.params args regs e ∧
      Draft.Called sig args regs results rs d e d' := by
  simp only [Expr.lower,bind_eq_ok] at h
  obtain ⟨sig,_,hsig,passed,e,hargs,hcall⟩ := h
  obtain ⟨hlookup,hlen,rfl⟩ := calleeOf_eq_ok hsig
  obtain ⟨hpassed,hthreads⟩ := passedIn_of_lowerAll sig.params args hlen hargs
  obtain ⟨he,-,⟨_,hext⟩,hgone⟩ := hpassed.settles hd
  have hkept := ((Arg.lowers sig.params args hlen hargs).straight f.table.callees_cover hd).threads
  obtain ⟨results,_,mid,hat,rfl⟩ := callWith_spec he hcall
  have hregisters : d'.registers = mid.registers ∧ d'.ops = mid.ops := by
    obtain ⟨_,rfl⟩ := hat.rebound.draft
    exact ⟨rfl, rfl⟩
  refine ⟨sig, _, results, e, hlookup, hpassed, ?_, ⟨hext.grows.size_le, hat.results_eq⟩, ?_, ?_, ?_, ?_⟩
  · obtain ⟨slot,done,rfl,hflag⟩ := hat.call
    refine ⟨slot, done, ?_, ?_⟩
    · obtain ⟨_,_,_,rfl⟩ := hat.draft
      rw [hregisters.2,← hext.current]
    · rcases hflag with ⟨_,rfl,-⟩ | ⟨_,rfl,-⟩ <;> simp_all [hat.results_eq]
  · rw [hregisters.1,hat.kinds]
  · intro q hq howned
    obtain ⟨hlt,hq⟩ := hgone q hq howned
    exact hat.gone he hlt hq
  · intro i x hx hlast
    obtain ⟨p,r,hp,hthread,hr,hbound⟩ := hat.threaded hthreads hx hlast
    obtain ⟨t,ht,hk⟩ := hkept p hp x _ hthread
    exact ⟨r, t, hr, hbound, ht, by rw [hregisters.1,hk]⟩
  · refine leftOver_eq_filter results passed 0
      (fun i => (args[i]?.bind Arg.threaded?).isNone) fun i => ?_
    rw [Nat.zero_add,← thread_eq hthreads i,Option.isNone_map]

/-- `sync native func heat(cup: String): String` and
`native func stir(spoon: &Integer, cup: String, again: &Integer): Integer, String, Integer` -/
def stirTable : SignatureTable where
  entries :=
    [⟨"heat", "main", true, true, [("cup", .owned .string)], [.owned .string], .nowhere⟩,
      ⟨"stir", "main", false, true,
        [("spoon", .lent .integer), ("cup", .owned .string), ("again", .lent .integer)],
        [.owned .integer, .owned .string, .owned .integer], .nowhere⟩]

def stirFrame : Frame :=
  ⟨stirTable, "serve", false, [("spoon", .owned .integer), ("cup", .owned .string)], [], false⟩

/-- `stir(&spoon, heat(cup), &spoon)` -/
def stirring : List Arg :=
  [.thread (bare "spoon"), .value (.call .nowhere (bare "heat") [.value (.name .nowhere "cup")]),
    .thread (bare "spoon")]

def stirred : Draft :=
  match (Expr.call .nowhere (bare "stir") stirring).lower stirFrame (.start stirFrame.params []) with
  | .ok (_, d) => d
  | .error _ => .start stirFrame.params []

theorem lower_stirring :
    (Expr.call .nowhere (bare "stir") stirring).lower stirFrame (.start stirFrame.params []) =
      .ok ([4], stirred) := by
  cbv

theorem stirring_bookkeeping : stirred.scope.get? "spoon" = some 5 ∧ stirred.scope.get? "cup" = none ∧
      ∃ sig regs results e, stirTable.lookup? "stir" = some sig ∧
        PassedIn stirFrame (.start stirFrame.params []) sig.params stirring regs e ∧
        Draft.Called sig stirring regs results [4] (.start stirFrame.params []) e stirred :=
  ⟨by decide +kernel, by decide +kernel, call_bookkeeping (Draft.valid_start _ _) lower_stirring⟩

end Polled
