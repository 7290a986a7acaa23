import Polled.Proofs.Apart
import Polled.Proofs.Growth

/-!
Work in a straight line.

`Draft.Straight` says of work under a single condition that, whatever a path has done before, it takes
the same steps and ends up holding the values. Pieces of work are put together by `Straight.seq`.
-/

namespace Polled

open List

variable {k : Kind} {xs : List String} {param : String × Kind} {ops : List GuardedOp} {H : List Register}

theorem Kind.ownsHeap_of_convert {target : Kind} (h : k.convert target = .ok ())
    (hb : target.borrowed = false) :
    target.ownsHeap = k.ownsHeap := by
  obtain ⟨b,_,_⟩ := k
  obtain ⟨_,_,_⟩ := target
  have hfits := (convert_eq_ok_iff _ _).1 h
  simp only [fits,Bool.and_eq_true,decide_eq_true_eq,Bool.or_eq_true,Bool.not_eq_true'] at hfits
  simp_all [ownsHeap]

theorem Kind.not_ownsHeap_of_convert {family : Family} (h : k.convert (.lent family) = .ok ())
    (hs : family ≠ .string) (ht : family ≠ .tuple) : k.ownsHeap = false := by
  obtain ⟨b,_,_⟩ := k
  have hfits := (convert_eq_ok_iff _ _).1 h
  simp only [lent,fits,Bool.and_eq_true,decide_eq_true_eq] at hfits
  obtain ⟨⟨rfl,-⟩,-⟩ := hfits
  simp [ownsHeap,hs,ht]

namespace Registers

def given (f : Registers) (operands : List (Register × Bool)) : List Register :=
  (operands.filter fun p => p.2 && (f.kind p.1).ownsHeap).map (·.1)

def lent (f : Registers) (operands : List (Register × Bool)) : List Register :=
  (operands.filter fun p => !(p.2 && (f.kind p.1).ownsHeap)).map (·.1)

section

variable {f g : Registers} {operands : List (Register × Bool)}
  (h : ∀ p ∈ operands, f.kind p.1 = g.kind p.1)

include h

theorem given_congr : f.given operands = g.given operands := by
  unfold given
  rw [filter_congr fun p hp => by rw [h p hp]]

theorem lent_congr : f.lent operands = g.lent operands := by
  unfold lent
  rw [filter_congr fun p hp => by rw [h p hp]]

end

theorem mem_lent_or_given (f : Registers) {operands : List (Register × Bool)} {p : Register × Bool}
    (hp : p ∈ operands) : p.1 ∈ f.lent operands ∨ p.1 ∈ f.given operands := by
  cases hg : p.2 && (f.kind p.1).ownsHeap with
  | true => exact .inr (mem_map.2 ⟨p, mem_filter.2 ⟨hp, hg⟩, rfl⟩)
  | false => exact .inl (mem_map.2 ⟨p, mem_filter.2 ⟨hp, by simp [hg]⟩, rfl⟩)

section

variable (f : Registers) (p : Register × Bool) (operands : List (Register × Bool))

theorem given_cons : f.given (p :: operands) = f.given [p] ++ f.given operands := by
  simp only [given,filter_cons]
  split <;> simp

theorem lent_cons : f.lent (p :: operands) = f.lent [p] ++ f.lent operands := by
  simp only [lent,filter_cons]
  split <;> simp

end

end Registers

def Fits (kind : Register → Kind) (rs : List Register) (ks : List Kind) : Prop :=
  rs.length = ks.length ∧ ∀ p ∈ rs.zip ks, (kind p.1).convert p.2 = .ok ()

/-- The registers of passed arguments, each with whether the parameter takes it over. -/
def operands (passed : List Passed) (params : List (String × Kind)) : List (Register × Bool) :=
  ((passed.map (·.register)).zip (params.map (·.2))).map fun (r, k) => (r, !k.borrowed)

def Arg.rebinds : Arg → List String
  | .thread _ => []
  | .value e => e.rebinds

def Arg.handed : Arg → List String
  | .thread x => [x.node]
  | .value e => e.handed

def Arg.apart (table : SignatureTable) (held : List String) : Arg → Bool
  | .thread _ => true
  | .value e => e.apart table held

/-- What is noted of an argument: a threaded variable with its kind, and nothing of a value. -/
def Arg.Noted (d : Draft) (thread : Option (Located String × Kind)) : Arg → Prop
  | .thread x => ∃ r, d.scope.get? x.node = some r ∧ thread = some (x, d.registers.kind r)
  | .value _ => thread = none

@[simp] theorem stillHeld_nil (xs : List String) : stillHeld xs [] = xs := by
  simp [stillHeld]

theorem apartArgs_cons {table : SignatureTable} {params : List (String × Kind)} {arg : Arg}
    {args : List Arg} (h : apartArgs table xs (param :: params) (arg :: args) = true) :
    (arg.apart table xs = true ∧
      (param.2.ownsHeap = true → ∀ x ∈ arg.handed, x ∉ stillHeld xs arg.rebinds)) ∧
      apartArgs table (if param.2.borrowed then arg.handed ++ stillHeld xs arg.rebinds
        else stillHeld xs arg.rebinds) params args = true := by
  cases arg with
  | thread x =>
    simp only [apartArgs,Bool.and_eq_true,Bool.not_eq_true',Bool.and_eq_false_iff] at h
    simp only [Arg.apart,Arg.handed,Arg.rebinds,stillHeld_nil,mem_singleton,forall_eq,true_and,
      singleton_append]
    refine ⟨fun howns => ?_, h.2⟩
    simpa [howns] using h.1
  | value e =>
    simp only [apartArgs,Bool.and_eq_true,Bool.not_eq_true',Bool.and_eq_false_iff] at h
    refine ⟨⟨h.1.1, fun howns y hy hmem => ?_⟩, h.2⟩
    have hany := any_eq_false.1 (h.1.2.resolve_left (by simp [howns])) y hy
    exact hany (by simpa [Arg.rebinds] using hmem)

theorem Lower.passTo_eq_ok {d d' : Draft} (function : String) (param : String × Kind) (span : Span)
    (r : Register) (a : Unit) :
    Lower.passTo function param span r d = .ok (a, d') ↔
      (d.registers.kind r).convert param.2 = .ok () ∧
        d' = if param.2.borrowed then d else d.handOver r := by
  simp only [Lower.passTo,Lower.bind_eq_ok,Lower.kindOf_eq_ok,Lower.ensure_eq_ok]
  constructor
  · rintro ⟨_,_,⟨rfl,rfl⟩,_,_,⟨hconv,rfl⟩,h⟩
    refine ⟨hconv, ?_⟩
    cases hb : param.2.borrowed <;> simp_all [Lower.handOver_eq_ok,Lower.pure_eq_ok]
  · rintro ⟨hconv,rfl⟩
    refine ⟨_, _, ⟨rfl, rfl⟩, (), _, ⟨hconv, rfl⟩, ?_⟩
    cases hb : param.2.borrowed <;> simp_all [Lower.handOver_eq_ok,Lower.pure_eq_ok]

namespace Draft

variable {callees : Callees} {d e d' : Draft}

/-- What an expression leaves alone: names keep their kinds, and values without a name stay as they
are. -/
structure Quiet (d d' : Draft) : Prop where
  keeps : ∀ x r, d'.scope.get? x = some r → ∃ t, d.scope.get? x = some t ∧
    d'.registers.kind r = d.registers.kind t ∧ (r = t ∨ d.registers.size ≤ r)
  live : ∀ r, r < d.registers.size → ¬d.Named r → d.registers.isLive r = true →
    d'.registers.isLive r = true

theorem Quiet.refl : d.Quiet d where
  keeps _ r hx := ⟨r, hx, rfl, .inl rfl⟩
  live _ _ _ h := h

theorem Quiet.not_named (h : d.Quiet d') (hext : d.Extends d' ops) (hd : d.Valid) {r : Register}
    (hr : r < d.size) (hn : ¬d.Named r) : ¬d'.Named r := by
  rintro ⟨x,t,hx,htr⟩
  obtain ⟨hlt,hroot⟩ := hext.grows.root_eq hd.sound.wf hr htr
  obtain ⟨u,hu,-,rfl | hge⟩ := h.keeps x t hx
  · exact hn ⟨x, t, hu, hroot⟩
  · exact absurd hlt (not_lt.2 hge)

theorem Quiet.trans (h : d.Quiet e) (hext : d.Extends e ops) (hd : d.Valid) (h' : e.Quiet d') :
    d.Quiet d' where
  keeps x r hx := by
    obtain ⟨t,ht,hk,hrt⟩ := h'.keeps x r hx
    obtain ⟨u,hu,hk',htu⟩ := h.keeps x t ht
    refine ⟨u, hu, hk.trans hk', ?_⟩
    rcases hrt with rfl | hge
    · exact htu
    · exact .inr (hext.grows.size_le.trans hge)
  live r hr hn hlive :=
    h'.live r (hr.trans_le hext.grows.size_le) (h.not_named hext hd hr hn)
      (h.live r hr hn hlive)

/-- Every name of a held heap value is among `xs`. -/
def NamedBy (d : Draft) (H : List Register) (xs : List String) : Prop :=
  ∀ t ∈ H, d.registers.layout.heap t → ∀ x r, d.scope.get? x = some r →
    d.registers.resolve r = d.registers.resolve t → x ∈ xs

/-- Work under one condition that picks up `rs`, gives up `gs` and binds `rebound` anew. -/
structure Straight (callees : Callees) (d d' : Draft) (rs gs : List Register)
    (apart : List String → Prop) (rebound : List String) (ops : List Op) : Prop where
  extend : d.Extends d' (ops.map (GuardedOp.mk d.current))
  plain : ∀ op ∈ ops, op.isBranch = false ∧ op.endsActivation = false
  quiet : d.Quiet d'
  known : ∀ r ∈ rs, d.Known r
  rebinds : ∀ x ∈ rebound, ∀ r, d'.scope.get? x = some r → d.registers.size ≤ r
  steps : ∀ (strict : Prop) (floor : Nat) (T : List Op) (H P : List Register) (xs : List String),
    (∀ r ∈ H, r < d.registers.size) → (strict → d.NamedBy H xs ∧ apart xs) →
    Passage.Steps callees strict floor (d.along T H P) (d'.along (T ++ ops) (rs ++ H) (gs ++ P))

/-- A single value on the heap is new and has no name, or it is one of the variables `xs`. -/
def Handed (d d' : Draft) (r : Register) (xs : List String) : Prop :=
  d'.registers.layout.heap r →
    (d.registers.size ≤ r ∧ ¬d'.Named r) ∨ ∃ x ∈ xs, d'.scope.get? x = some r

theorem NamedBy.still {rebound : List String} (h : d.NamedBy H xs) (hext : d.Extends d' ops)
    (hq : d.Quiet d') (hd : d.Valid) (hH : ∀ r ∈ H, r < d.size)
    (hre : ∀ x ∈ rebound, ∀ r, d'.scope.get? x = some r → d.size ≤ r) :
    d'.NamedBy H (stillHeld xs rebound) := by
  intro t ht hheap x r hx hrt
  obtain ⟨hlt,hroot⟩ := hext.grows.root_eq hd.sound.wf (hH t ht) hrt
  have hold : d.registers.layout.heap t := by
    rw [Layout.heap,← hext.grows.kind_old t (hH t ht)]
    exact hheap
  obtain ⟨u,hu,-,rfl | hge⟩ := hq.keeps x r hx
  · refine mem_filter.2 ⟨h t ht hold x r hu hroot, ?_⟩
    simp only [Bool.not_eq_true',contains_eq_mem,decide_eq_false_iff_not]
    intro hmem
    exact absurd hlt (not_lt.2 (hre x hmem r hx))
  · exact absurd hlt (not_lt.2 hge)

section

variable {rs gs rs' gs' : List Register} {apart apart' : List String → Prop}
variable {rebound rebound' : List String} {ops ops' : List Op} {r : Register}

section

variable (h : Straight callees d d' rs gs apart rebound ops) (hd : d.Valid)

include h hd

theorem Straight.sound : (d'.along ops rs gs).Sound := by
  have hsteps := h.steps False 0 [] [] [] [] (by simp) (by simp)
  simpa using Passage.Steps.sound hsteps hd.sound

theorem Straight.valid : d'.Valid := .of_along (h.sound hd) h.extend.sorted

theorem Straight.lt_size (hr : r ∈ rs) : r < d'.size := (h.sound hd).lt_of_held hr

end

/-- One piece of work after another, when the second knows what the first holds. -/
theorem Straight.seq (h : Straight callees d e rs gs apart rebound ops)
    (h' : Straight callees e d' rs' gs' apart' rebound' ops') (hd : d.Valid)
    (next : List String → List String)
    (hnext : ∀ H xs, (∀ r ∈ H, r < d.size) → d.NamedBy H xs → e.NamedBy (rs ++ H) (next xs)) :
    Straight callees d d' (rs ++ rs') (gs ++ gs') (fun xs => apart xs ∧ apart' (next xs))
      (rebound ++ rebound') (ops ++ ops') where
  extend := by
    have htrans := h.extend.trans h'.extend
    rwa [h.extend.current,← map_append] at htrans
  plain op hop := by
    rcases mem_append.1 hop with hop | hop
    · exact h.plain op hop
    · exact h'.plain op hop
  quiet := h.quiet.trans h.extend hd h'.quiet
  known r hr := by
    rcases mem_append.1 hr with hr | hr
    · exact h.known r hr
    · exact h.extend.known (h'.known r hr)
  rebinds x hx r hr := by
    rcases mem_append.1 hx with hx | hx
    · obtain ⟨t,ht,-,rfl | hge⟩ := h'.quiet.keeps x r hr
      · exact h.rebinds x hx r ht
      · exact h.extend.grows.size_le.trans hge
    · exact h.extend.grows.size_le.trans (h'.rebinds x hx r hr)
  steps strict floor T H P xs hH hstrict := by
    have hfirst := h.steps strict floor T H P xs hH fun hs => ⟨(hstrict hs).1, (hstrict hs).2.1⟩
    have hH' : ∀ r ∈ rs ++ H, r < e.size := by
      intro r hr
      rcases mem_append.1 hr with hr | hr
      · exact h.lt_size hd hr
      · exact (hH r hr).trans_le h.extend.grows.size_le
    have hsecond := h'.steps strict floor (T ++ ops) (rs ++ H) (gs ++ P) (next xs) hH'
      fun hs => ⟨hnext H xs hH (hstrict hs).1, (hstrict hs).2.2⟩
    rw [append_assoc] at hsecond
    refine (hfirst.trans hsecond).trans (.tail (.single (step_drop ?_)) (.arrange ?_))
    · intro r hr
      simp only [mem_append] at hr ⊢
      tauto
    · show (gs ++ gs' ++ P).Perm (gs' ++ (gs ++ P))
      rw [← append_assoc]
      exact List.Perm.append_right P perm_append_comm

theorem quiet_reserve (hd : d.Valid) (k : Kind) : d.Quiet (d.reserve k) where
  keeps x r hx := by
    have hlt : r < d.size := hd.sound.lt_of_scope hx
    refine ⟨r, hx, ?_, .inl rfl⟩
    rw [show (d.reserve k).registers.kind r = _ from d.registers.kind_alloc k r,if_neg hlt.ne]
  live r hr _ hlive := by
    rwa [show (d.reserve k).registers.isLive r = _ from d.registers.isLive_alloc k r,
      if_neg hr.ne]

theorem not_heap_reserve (d : Draft) (hk : k.ownsHeap = false) :
    ¬(d.reserve k).registers.layout.heap d.size := by
  intro hheap
  have hkind : (d.reserve k).registers.kind d.size = k := by
    rw [show (d.reserve k).registers.kind _ = _ from d.registers.kind_alloc k _,if_pos rfl]
  have hheap : ((d.reserve k).registers.kind d.size).ownsHeap = true := hheap
  rw [hkind,hk] at hheap
  cases hheap

theorem Straight.produce (h : Straight callees d e rs [] apart rebound ops) (hd : d.Valid) (k : Kind)
    {op : Op} (hplain : op.Inline) (hfrees : op.frees = [])
    (hpasses : op.passes callees = op.reads.map fun r => (r, false)) (hreads : ∀ r ∈ op.reads, r ∈ rs)
    (hprovides : op.provides = [e.size]) :
    Straight callees d ((e.reserve k).emit e.current op) [e.size] [] apart rebound
      (ops ++ [op]) where
  extend := by
    have he := h.valid hd
    have hcurrent : (e.reserve k).current = d.current := h.extend.current
    have hres := (extends_reserve he k).trans (extends_emit (he.reserve k) op (.inl rfl))
    simpa [hcurrent,h.extend.current] using h.extend.trans hres
  plain o ho := by
    rcases mem_append.1 ho with ho | ho
    · exact h.plain o ho
    · rw [mem_singleton.1 ho]
      exact hplain
  quiet :=
    have hq := quiet_reserve (h.valid hd) k
    h.quiet.trans h.extend hd ⟨hq.keeps, hq.live⟩
  known r hr := by
    rw [mem_singleton.1 hr]
    exact .inl h.extend.grows.size_le
  rebinds x hx r hr := h.rebinds x hx r hr
  steps strict floor T H P xs hH hstrict := by
    have hemit : Passage.Step callees strict floor
        ((e.reserve k).along (T ++ ops) (e.size :: (rs ++ H)) P)
        ((e.reserve k).along (T ++ ops ++ [op]) (e.size :: (rs ++ H)) P) := by
      refine step_emit hplain.2 hfrees hpasses ?_ ?_
      · intro r hr
        exact mem_cons_of_mem _ (mem_append_left H (hreads r hr))
      · intro r hr
        rw [hprovides,mem_singleton] at hr
        subst hr
        refine ⟨mem_cons_self, fun _ => ?_⟩
        rw [show (e.reserve k).registers.isLive _ = _ from e.registers.isLive_alloc k _,if_pos rfl]
    rw [← append_assoc]
    refine (h.steps strict floor T H P xs hH hstrict).trans ?_
    refine .head (step_reserve k) (.head hemit (.single (.drop ?_)))
    intro r hr
    rcases mem_cons.1 hr with rfl | hr
    · exact mem_cons_self
    · exact mem_cons_of_mem _ (mem_append_right rs hr)

theorem Straight.nil (hd : d.Valid) : Straight callees d d [] [] (fun _ => True) [] [] where
  extend := .refl hd.sound.wf hd.sorted
  plain := by simp
  quiet := .refl
  known := by simp
  rebinds := by simp
  steps strict floor T H P xs _ _ := by
    rw [append_nil]
    exact .refl

theorem Straight.pick (hd : d.Valid) {x : String} (hx : d.scope.get? x = some r) :
    Straight callees d d [r] [] (fun _ => True) [] [] where
  extend := .refl hd.sound.wf hd.sorted
  plain := by simp
  quiet := .refl
  known t ht := by
    rw [mem_singleton.1 ht]
    exact .inr ⟨x, r, hx, rfl⟩
  rebinds := by simp
  steps strict floor T H P xs _ _ := by
    rw [append_nil]
    exact .single (step_pick hx)

theorem Handed.of_scope {x : String} (hx : d'.scope.get? x = some r) : d.Handed d' r [x] :=
  fun _ => .inr ⟨x, mem_singleton_self x, hx⟩

theorem Handed.namedBy {handed : List String} (h : d.Handed d' r handed) (hd' : d'.Valid)
    (hH : d'.NamedBy H xs) :
    d'.NamedBy (r :: H) (handed ++ xs) := by
  intro t ht hheap x u hx hut
  rcases mem_cons.1 ht with rfl | ht
  · rcases h hheap with ⟨-,hn⟩ | ⟨y,hy,hyr⟩
    · exact absurd ⟨x, u, hx, hut⟩ hn
    · obtain rfl := hd'.sound.single y x t u hyr hx hheap hut.symm
      exact mem_append_left _ hy
  · exact mem_append_right _ (hH t ht hheap x u hx hut)

theorem not_heap_namedBy (h : ¬d.registers.layout.heap r) (hH : d.NamedBy H xs) :
    d.NamedBy (r :: H) xs := by
  intro t ht hheap
  rcases mem_cons.1 ht with rfl | ht
  · exact absurd hheap h
  · exact hH t ht hheap

section

variable (h : Straight callees d e [r] [] apart rebound ops) (hd : d.Valid)

include h hd

/-- A value that is handed over takes no unnamed value with it, since it was named or is new. -/
theorem Straight.quiet_handOver : d.Quiet (e.handOver r) where
  keeps x t hx := by
    have hx' := (((h.valid hd).sorted.get?_forget _ r x t).1 hx).1
    obtain ⟨u,hu,hk,hrt⟩ := h.quiet.keeps x t hx'
    exact ⟨u, hu, (e.registers.kind_release r t).trans hk, hrt⟩
  live t ht hn hlive := by
    refine (e.registers.isLive_release r t).2 ⟨h.quiet.live t ht hn hlive, fun heq => ?_⟩
    obtain ⟨hlt,hroot⟩ := h.extend.grows.root_eq hd.sound.wf ht heq.symm
    rcases h.known r (mem_singleton_self r) with hge | ⟨x,u,hx,hur⟩
    · exact absurd hlt (not_lt.2 hge)
    · exact hn ⟨x, u, hx, hur.trans hroot⟩

theorem Straight.give {handed : List String} (hheap : e.registers.layout.heap r)
    (hr : d.Handed e r handed) :
    Straight callees d (e.handOver r) [] [r]
      (fun xs => apart xs ∧ ∀ x ∈ handed, x ∉ stillHeld xs rebound) rebound ops where
  extend := by simpa using h.extend.trans (extends_handOver (h.valid hd))
  plain := h.plain
  quiet := h.quiet_handOver hd
  known := by simp
  rebinds x hx t ht := h.rebinds x hx t (((h.valid hd).sorted.get?_forget _ r x t).1 ht).1
  steps strict floor T H P xs hH hstrict := by
    refine (h.steps strict floor T H P xs hH fun hs => ⟨(hstrict hs).1, (hstrict hs).2.1⟩).tail ?_
    refine step_take (h.valid hd).sorted hheap fun hs t ht heq => ?_
    obtain ⟨hlt,-⟩ := h.extend.grows.root_eq hd.sound.wf (hH t ht) heq.symm
    rcases hr hheap with ⟨hge,-⟩ | ⟨x,hx,hxr⟩
    · exact absurd hlt (not_lt.2 hge)
    · have htheap : e.registers.layout.heap t := Passage.heap_of_root_eq (h.sound hd) heq.symm hheap
      have hnamed := (hstrict hs).1.still h.extend h.quiet hd hH h.rebinds
      exact (hstrict hs).2.2 x hx (hnamed t ht htheap x r hxr heq.symm)

theorem Straight.lend (hheap : ¬e.registers.layout.heap r) :
    Straight callees d (e.handOver r) [r] [] apart rebound ops where
  extend := by simpa using h.extend.trans (extends_handOver (h.valid hd))
  plain := h.plain
  quiet := h.quiet_handOver hd
  known := h.known
  rebinds x hx t ht := h.rebinds x hx t (((h.valid hd).sorted.get?_forget _ r x t).1 ht).1
  steps strict floor T H P xs hH hstrict :=
    (h.steps strict floor T H P xs hH hstrict).tail (step_lend (h.valid hd) hheap)

omit h hd in
theorem Straight.weaken (h : Straight callees d d' rs gs apart rebound ops)
    (hapart : ∀ xs, apart' xs → apart xs) :
    Straight callees d d' rs gs apart' rebound ops :=
  { h with steps := fun strict floor T H P xs hH hstrict =>
      h.steps strict floor T H P xs hH fun hs => ⟨(hstrict hs).1, hapart xs (hstrict hs).2⟩ }

theorem Straight.passTo {handed : List String} (hr : d.Handed e r handed)
    (hconv : (e.registers.kind r).convert param.2 = .ok ())
    (hd' : d' = if param.2.borrowed then e else e.handOver r) :
    Straight callees d d' (d'.registers.lent [(r, !param.2.borrowed)])
        (d'.registers.given [(r, !param.2.borrowed)])
        (fun xs => apart xs ∧ (param.2.ownsHeap = true → ∀ x ∈ handed, x ∉ stillHeld xs rebound))
        rebound ops ∧
      ∀ H xs, (∀ r ∈ H, r < d.size) → d.NamedBy H xs →
        d'.NamedBy (d'.registers.lent [(r, !param.2.borrowed)] ++ H)
          (if param.2.borrowed then handed ++ stillHeld xs rebound else stillHeld xs rebound) := by
  subst hd'
  have hstill : ∀ H xs, (∀ r ∈ H, r < d.size) → d.NamedBy H xs →
      e.NamedBy H (stillHeld xs rebound) :=
    fun H xs hH hn => hn.still h.extend h.quiet hd hH h.rebinds
  have hforget : ∀ H xs, e.NamedBy H xs → (e.handOver r).NamedBy H xs := by
    intro H xs hn t ht hheap x u hx hut
    have hx' := (((h.valid hd).sorted.get?_forget _ r x u).1 hx).1
    have hheap' : e.registers.layout.heap t := by
      rwa [Layout.heap,show (e.handOver r).registers.layout =
        _ from e.registers.layout_release r] at hheap
    exact hn t ht hheap' x u hx' (by simpa [handOver] using hut)
  cases hb : param.2.borrowed with
  | true =>
    simp only [if_true,Registers.lent,Registers.given,Bool.not_true]
    refine ⟨h.weaken fun xs hxs => hxs.1, fun H xs hH hn => ?_⟩
    exact hr.namedBy (h.valid hd) (hstill H xs hH hn)
  | false =>
    have howns := Kind.ownsHeap_of_convert hconv hb
    have hkind : (e.handOver r).registers.kind r = e.registers.kind r := e.registers.kind_release r r
    by_cases hheap : e.registers.layout.heap r
    · have hk : (e.registers.kind r).ownsHeap = true := hheap
      simp only [Bool.false_eq_true,if_false,Registers.lent,Registers.given,Bool.not_false,
        Bool.true_and,filter_cons,hkind,hk]
      refine ⟨(h.give hd hheap hr).weaken fun xs hxs => ⟨hxs.1, hxs.2 (howns.trans hk)⟩, ?_⟩
      exact fun H xs hH hn => hforget H _ (hstill H xs hH hn)
    · have hk : (e.registers.kind r).ownsHeap = false := Bool.eq_false_iff.2 hheap
      simp only [Bool.false_eq_true,if_false,Registers.lent,Registers.given,Bool.not_false,
        Bool.true_and,filter_cons,hkind,hk]
      refine ⟨(h.lend hd hheap).weaken fun xs hxs => hxs.1, fun H xs hH hn => ?_⟩
      exact hforget _ _ (not_heap_namedBy hheap (hstill H xs hH hn))

end

/-- Arguments that have been lowered and passed on. -/
structure Arguments (callees : Callees) (table : SignatureTable) (d d' : Draft)
    (params : List (String × Kind)) (args : List Arg) (passed : List Passed) : Prop where
  fits : Fits d'.registers.kind (passed.map (·.register)) (params.map (·.2))
  lt_size : ∀ p ∈ passed, p.register < d'.registers.size
  threads : ∀ p ∈ passed, ∀ x k, p.thread = some (x, k) →
    ∃ t, d.scope.get? x.node = some t ∧ k = d.registers.kind t
  names : ∀ x ∈ rebindsOfArgs args, x ∈ args.flatMap Arg.rebinds ∨
    ∃ p ∈ passed, ∃ y k, p.thread = some (y, k) ∧ y.node = x
  straight : ∃ ops, Straight callees d d' (d'.registers.lent (operands passed params))
    (d'.registers.given (operands passed params)) (fun xs => apartArgs table xs params args = true)
    (args.flatMap Arg.rebinds) ops

theorem Arguments.cons {table : SignatureTable} {param : String × Kind}
    {params : List (String × Kind)} {arg : Arg} {args : List Arg}
    {thread : Option (Located String × Kind)} {passed : List Passed} {e' : Draft} (hd : d.Valid)
    (h : Straight callees d e [r] [] (fun xs => arg.apart table xs = true) arg.rebinds ops)
    (hr : d.Handed e r arg.handed) (hnoted : arg.Noted d thread)
    (hconv : (e.registers.kind r).convert param.2 = .ok ())
    (he' : e' = if param.2.borrowed then e else e.handOver r)
    (hrest : Arguments callees table e' d' params args passed) :
    Arguments callees table d d' (param :: params) (arg :: args) (⟨r, thread⟩ :: passed) := by
  obtain ⟨hpassed,hnext⟩ := h.passTo hd hr hconv he'
  obtain ⟨ops',hops'⟩ := hrest.straight
  have hkept : e'.size = e.size ∧ e'.registers.kind r = e.registers.kind r := by
    rw [he']
    split
    · exact ⟨rfl, rfl⟩
    · exact ⟨e.registers.size_release r, e.registers.kind_release r r⟩
  have hlt : r < e'.size := hkept.1 ▸ h.lt_size hd (mem_singleton_self r)
  have hkind : d'.registers.kind r = e'.registers.kind r := hops'.extend.grows.kind_old r hlt
  refine ⟨⟨by simpa using hrest.fits.1, ?_⟩, ?_, ?_, ?_, ops ++ ops', ?_⟩
  · rw [map_cons,map_cons,zip_cons_cons,forall_mem_cons]
    exact ⟨by rw [hkind,hkept.2]; exact hconv, hrest.fits.2⟩
  · exact forall_mem_cons.2 ⟨hlt.trans_le hops'.extend.grows.size_le, hrest.lt_size⟩
  · intro q hq x k hqx
    rcases mem_cons.1 hq with rfl | hq
    · cases arg with
      | thread y =>
        obtain ⟨t,ht,rfl⟩ := hnoted
        cases hqx
        exact ⟨t, ht, rfl⟩
      | value v => cases hnoted.symm.trans hqx
    · obtain ⟨t,ht,hk⟩ := hrest.threads q hq x k hqx
      obtain ⟨u,hu,hk',-⟩ := hpassed.quiet.keeps x.node t ht
      exact ⟨u, hu, hk.trans hk'⟩
  · intro x hx
    have hcases : x ∈ arg.rebinds ∨ x ∈ rebindsOfArgs args ∨ ∃ y k, thread = some (y, k) ∧
        y.node = x := by
      cases arg with
      | thread y =>
        obtain ⟨t,-,rfl⟩ := hnoted
        rcases mem_cons.1 hx with rfl | hx
        · exact .inr (.inr ⟨y, _, rfl, rfl⟩)
        · exact .inr (.inl hx)
      | value v => exact (mem_append.1 hx).imp_right .inl
    rw [flatMap_cons,mem_append]
    rcases hcases with hx | hx | hx
    · exact .inl (.inl hx)
    · rcases hrest.names x hx with hx | ⟨q,hq,hqx⟩
      · exact .inl (.inr hx)
      · exact .inr ⟨q, mem_cons_of_mem _ hq, hqx⟩
    · exact .inr ⟨_, mem_cons_self, hx⟩
  · have hseq := hpassed.seq hops' hd _ hnext
    have hoperands : operands (⟨r, thread⟩ :: passed) (param :: params) =
        (r, !param.2.borrowed) :: operands passed params := rfl
    have hlent : d'.registers.lent [(r, !param.2.borrowed)] =
        e'.registers.lent [(r, !param.2.borrowed)] := by
      simp only [Registers.lent,filter_cons,filter_nil,hkind]
    have hgiven : d'.registers.given [(r, !param.2.borrowed)] =
        e'.registers.given [(r, !param.2.borrowed)] := by
      simp only [Registers.given,filter_cons,filter_nil,hkind]
    rw [hoperands,Registers.lent_cons,Registers.given_cons,hlent,hgiven]
    exact hseq.weaken fun xs hxs => apartArgs_cons hxs

theorem Straight.reserveAll (hd : d.Valid) (ks : List Kind) :
    Straight callees d (d.reserveAll ks) (List.range' d.size ks.length) [] (fun _ => True) [] [] := by
  induction ks generalizing d with
  | nil => exact .nil hd
  | cons k ks ih =>
    have hhead : Straight callees d (d.reserve k) [d.size] [] (fun _ => True) [] [] :=
      { extend := extends_reserve hd k
        plain := by simp
        quiet := quiet_reserve hd k
        known := fun r hr => .inl (mem_singleton.1 hr).symm.le
        rebinds := by simp
        steps := fun strict floor T H P xs _ _ => by
          rw [append_nil]
          exact .single (step_reserve k) }
    have hsize : (d.reserve k).size = d.size + 1 := d.registers.size_alloc k
    have hseq := hhead.seq (ih (hd.reserve k)) hd id fun H xs hH hn => ?_
    · rw [hsize] at hseq
      rw [length_cons,range'_succ]
      exact hseq.weaken fun _ _ => ⟨trivial, trivial⟩
    · have hstill : (d.reserve k).NamedBy H (stillHeld xs []) :=
        hn.still hhead.extend hhead.quiet hd hH (by simp)
      have hnone : Draft.Handed d (d.reserve k) d.size [] := by
        refine fun _ => .inl ⟨le_rfl, ?_⟩
        rintro ⟨x,t,hx,ht⟩
        have hlt : t < d.size := hd.sound.lt_of_scope hx
        simp only [reserve,Registers.resolve_alloc] at ht
        rw [d.registers.resolve_of_size_le le_rfl] at ht
        have hroot : d.registers.resolve t < d.size := hd.sound.wf.root_lt hlt
        rw [ht] at hroot
        exact absurd hroot (lt_irrefl _)
      simpa [stillHeld] using hnone.namedBy (hd.reserve k) hstill

theorem isLive_reserveAll (d : Draft) (ks : List Kind) (hr : r ∈ List.range' d.size ks.length) :
    (d.reserveAll ks).registers.isLive r = true := by
  have hmono : ∀ (ks : List Kind) (d : Draft), d.registers.isLive r = true →
      (d.reserveAll ks).registers.isLive r = true := by
    intro ks
    induction ks with
    | nil => exact fun d h => h
    | cons k ks ih =>
      intro d h
      refine ih (d.reserve k) ?_
      rw [show (d.reserve k).registers.isLive r = _ from d.registers.isLive_alloc k r,h]
      simp
  induction ks generalizing d with
  | nil => simp at hr
  | cons k ks ih =>
    rw [length_cons,range'_succ] at hr
    rcases mem_cons.1 hr with rfl | _
    · refine hmono ks (d.reserve k) ?_
      rw [show (d.reserve k).registers.isLive _ = _ from d.registers.isLive_alloc k _,if_pos rfl]
    · exact ih (d.reserve k) (by rwa [show (d.reserve k).size = _ from d.registers.size_alloc k])

theorem exists_reserveAll (d : Draft) (ks : List Kind) :
    ∃ registers, d.reserveAll ks = { d with registers } ∧ registers.resolve = d.registers.resolve := by
  induction ks generalizing d with
  | nil => exact ⟨_, rfl, rfl⟩
  | cons k ks ih =>
    obtain ⟨registers,heq,hroot⟩ := ih (d.reserve k)
    exact ⟨registers, heq, hroot.trans (funext (d.registers.resolve_alloc k))⟩

@[simp] theorem size_reserveAll (ks : List Kind) : (d.reserveAll ks).size = d.size + ks.length := by
  induction ks generalizing d with
  | nil => rfl
  | cons k ks ih =>
    have hsize : (d.reserve k).size = d.size + 1 := d.registers.size_alloc k
    rw [reserveAll,ih,hsize,length_cons]
    omega

theorem kind_reserveAll (ks : List Kind) (hr : r < d.registers.size) :
    (d.reserveAll ks).registers.kind r = d.registers.kind r := by
  induction ks generalizing d with
  | nil => rfl
  | cons k ks ih =>
    have hkind : (d.reserve k).registers.kind r = _ := d.registers.kind_alloc k r
    rw [reserveAll,ih (by simpa [reserve] using Nat.lt_succ_of_lt hr),hkind,if_neg hr.ne]

theorem kinds_reserveAll (d : Draft) (ks : List Kind) :
    (List.range' d.registers.size ks.length).map (d.reserveAll ks).registers.kind = ks := by
  induction ks generalizing d with
  | nil => rfl
  | cons k ks ih =>
    have hsize : (d.reserve k).registers.size = d.registers.size + 1 := d.registers.size_alloc k
    have hkind : (d.reserve k).registers.kind d.registers.size = _ := d.registers.kind_alloc k _
    have hrest := ih (d.reserve k)
    rw [hsize] at hrest
    rw [length_cons,range'_succ,map_cons,reserveAll,hrest,
      kind_reserveAll ks (by rw [hsize]; exact Nat.lt_succ_self _),hkind,if_pos rfl]

end

end Draft

end Polled
