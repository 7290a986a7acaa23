import Polled.Proofs.Evaluation
import Polled.Proofs.Routes

/-!
One scan of the operations of a routine.

On a path where everything is written once and before it is read, a scan fires one operation after the
other up to the exit, and all that it has fired is obeyed at the end (`scan_follows`).
-/

namespace Polled

open Function Lower List

variable {g : GuardedOp} {later : List Op}

namespace Machine

variable {α : Type} {memory : Register → Datum α} {slots : List Register} {vs : List (Datum α)}

theorem store_of_notMem {x : Register} (hx : x ∉ slots) : store memory slots vs x = memory x := by
  induction slots generalizing memory vs with
  | nil => rfl
  | cons s slots ih =>
    cases vs with
    | nil => rfl
    | cons v vs =>
      obtain ⟨hne,hx⟩ := ne_and_not_mem_of_not_mem_cons hx
      rw [store,ih hx,update_of_ne hne]

theorem map_store (hnodup : slots.Nodup) (hlen : slots.length = vs.length) :
    slots.map (store memory slots vs) = vs := by
  induction slots generalizing memory vs with
  | nil => exact (length_eq_zero_iff.1 hlen.symm).symm
  | cons s slots ih =>
    cases vs with
    | nil => cases hlen
    | cons v vs =>
      obtain ⟨hs,hnodup⟩ := nodup_cons.1 hnodup
      rw [map_cons,store,store_of_notMem hs,update_self,ih hnodup (Nat.succ.inj hlen)]

end Machine

namespace Op

variable {α : Type} (natives : Natives α)

/-- What a scan can carry out. Calls give as many values as they have results. -/
def Runs : Op → Prop
  | .callSync callee _ results _ => ∀ vs, (natives callee vs).length = results.length
  | .rename _ _ | .loadInteger _ _ | .loadString _ _ | .compare _ _ _ _ | .branch _ _ _ | .free _ _
      | .ret _ _ => True
  | _ => False

/-- The values that the operation writes are there, and a branch has gone the way of its test. -/
def Obeyed (slot : Register → Register) (took : Condition → Prop)
    (memory : Register → Datum α) : Op → Prop
  | .rename source dest => memory (slot dest) = memory (slot source)
  | .loadInteger target n => memory (slot target) = .integer n
  | .loadString target s => memory (slot target) = .text s
  | .callSync callee args results _ =>
    results.map (fun t => memory (slot t)) = natives callee (args.map fun t => memory (slot t))
  | .compare op lhs rhs result =>
    memory (slot result) = .truth (op.holds (memory (slot lhs)).toInt (memory (slot rhs)).toInt)
  | .branch test ifTrue ifFalse =>
    (took ifTrue → (memory (slot test)).isTrue = true) ∧
      (took ifFalse → (memory (slot test)).isTrue = false)
  | _ => True

variable {natives} {op : Op}

theorem exists_ret (hruns : op.Runs natives) (hexit : op.endsActivation = true) :
    ∃ values garbage, op = .ret values garbage := by
  cases op with
  | ret values garbage => exact ⟨values, garbage, rfl⟩
  | restartLoop => exact hruns.elim
  | _ => cases hexit

theorem exists_branch (hbranch : op.isBranch = true) : ∃ test a b, op = .branch test a b := by
  cases op with
  | branch test a b => exact ⟨test, a, b, rfl⟩
  | _ => cases hbranch

theorem Obeyed.congr {slot : Register → Register} {took took' : Condition → Prop}
    {memory memory' : Register → Datum α} (h : op.Obeyed natives slot took memory)
    (hreads : (∀ t done, op ≠ .free t done) → ∀ t ∈ op.reads, memory' (slot t) = memory (slot t))
    (hprovides : ∀ t ∈ op.provides, memory' (slot t) = memory (slot t))
    (htook : ∀ c ∈ op.completionFlags, took' c → took c) : op.Obeyed natives slot took' memory' := by
  cases op with
  | callSync callee args results done =>
    have hargs := map_congr_left (hreads (by simp))
    have hresults := map_congr_left hprovides
    exact hresults.trans (h.trans (congrArg _ hargs.symm))
  | _ => simp_all [Obeyed,reads,needs,provides,completionFlags]

end Op

/-- On the path everything is written once, and before it is read. -/
structure Clean {α : Type} (natives : Natives α) (slot : Register → Register) (base : Register → Prop)
    (p : List Op) :
    Prop where
  fed : Fed slot base p
  nodup : (writes slot p).Nodup
  apart : ∀ x ∈ writes slot p, ¬base x
  runs : ∀ op ∈ p, op.Runs natives

section

variable {α : Type} {natives : Natives α} {slot : Register → Register} {base : Register → Prop}
  {T : List Op} {op : Op}

section

variable (h : Clean natives slot base (T ++ op :: later))

include h

theorem Clean.runs_next : op.Runs natives := h.runs op (by simp)

theorem Clean.given (hfree : ∀ t done, op ≠ .free t done) :
    ∀ t ∈ op.reads, Given slot base T (slot t) := h.fed T op later rfl hfree

theorem Clean.new : (op.provides.map slot).Nodup ∧ ∀ x ∈ op.provides.map slot, ¬Given slot base T x := by
  have hnodup := h.nodup
  have happart := h.apart
  simp only [writes,flatMap_append,flatMap_cons] at hnodup happart
  obtain ⟨-,hrest,hdisjoint⟩ := nodup_append.1 hnodup
  refine ⟨(nodup_append.1 hrest).1, fun x hx hgiven => ?_⟩
  rcases hgiven with hbase | hwritten
  · exact happart x (mem_append_right _ (mem_append_left _ hx)) hbase
  · exact hdisjoint x hwritten x (mem_append_left _ hx) rfl

end

theorem Fed.left (h : Fed slot base (T ++ later)) : Fed slot base T := by
  rintro before op after rfl
  exact h before op (after ++ later) (by simp)

theorem Fed.given_of_mem (h : Fed slot base T) (hop : op ∈ T) :
    ((∀ t done, op ≠ .free t done) → ∀ t ∈ op.reads, Given slot base T (slot t)) ∧
      ∀ t ∈ op.provides, Given slot base T (slot t) := by
  obtain ⟨before,after,rfl⟩ := append_of_mem hop
  refine ⟨fun hfree t ht => (h before op after rfl hfree t ht).append _, fun t ht => ?_⟩
  exact .inr (mem_flatMap.2 ⟨op, by simp, mem_map_of_mem ht⟩)

end

section

variable {w v : Walk} {gs : List GuardedOp}

theorem Walk.exists_next (w : Walk) (g : GuardedOp) : ∃ v, v ∈ w.next g := by
  unfold next
  split
  · exact ⟨w, mem_singleton_self w⟩
  · split <;> exact ⟨_, mem_cons_self⟩

theorem Walk.exists_through (w : Walk) (gs : List GuardedOp) : ∃ v, v ∈ w.through gs := by
  induction gs generalizing w with
  | nil => exact ⟨w, mem_singleton_self w⟩
  | cons g gs ih =>
    obtain ⟨u,hu⟩ := w.exists_next g
    obtain ⟨v,hv⟩ := ih u
    exact ⟨v, mem_flatMap.2 ⟨u, hu, hv⟩⟩

theorem Walk.trace_of_next (h : v ∈ w.next g) : w.Passes g ∧ v = w ∨ v.trace = w.trace ++ [g.op] := by
  unfold next at h
  split at h
  · rename_i hpasses
    exact .inl ⟨by simpa [Passes] using hpasses, mem_singleton.1 h⟩
  · split at h
    · rename_i hop
      simp only [mem_cons,not_mem_nil,or_false] at h
      rcases h with rfl | rfl <;> exact .inr (by rw [hop])
    · exact .inr (by rw [mem_singleton.1 h])

theorem Walk.mem_of_trace {gs : List GuardedOp} {op : Op} (h : v ∈ w.through gs) (hop : op ∈ v.trace) :
    op ∈ w.trace ∨ ∃ g ∈ gs, g.op = op := by
  induction gs generalizing w with
  | nil =>
    rw [mem_singleton.1 h] at hop
    exact .inl hop
  | cons g gs ih =>
    obtain ⟨u,hu,hv⟩ := mem_flatMap.1 h
    rcases ih hv with hop | ⟨g',hg',rfl⟩
    · rcases trace_of_next hu with ⟨-,rfl⟩ | hnext
      · exact .inl hop
      · rw [hnext,mem_append,mem_singleton] at hop
        exact hop.imp_right fun hop => ⟨g, mem_cons_self, hop.symm⟩
    · exact .inr ⟨g', mem_cons_of_mem _ hg', rfl⟩

theorem Walk.trace_of_through (h : v ∈ w.through gs) : ∃ T, v.trace = w.trace ++ T := by
  induction gs generalizing w with
  | nil => exact ⟨[], by simp [mem_singleton.1 h]⟩
  | cons g gs ih =>
    obtain ⟨u,hu,hv⟩ := mem_flatMap.1 h
    obtain ⟨T,hT⟩ := ih hv
    rcases trace_of_next hu with ⟨-,rfl⟩ | hnext
    · exact ⟨T, hT⟩
    · exact ⟨g.op :: T, by rw [hT,hnext,append_assoc,singleton_append]⟩

theorem Walk.exists_trace {P : List Op → Prop} (hgoes : w.ended = false) (hc : g.condition ∈ w.chosen)
    (h : ∀ v ∈ w.through (g :: gs), P v.trace) : ∃ T, P (w.trace ++ g.op :: T) := by
  obtain ⟨u,hu⟩ := w.exists_next g
  obtain ⟨v,hv⟩ := u.exists_through gs
  obtain ⟨T,hT⟩ := trace_of_through hv
  have hP := h v (mem_flatMap.2 ⟨u, hu, hv⟩)
  rcases trace_of_next hu with ⟨hpasses,-⟩ | hnext
  · exact (hpasses.elim (by simp [hgoes]) fun hnot => hnot hc).elim
  · rw [hT,hnext,append_assoc,singleton_append] at hP
    exact ⟨T, hP⟩

end

namespace Routine

variable {α : Type} (r : Routine) (natives : Natives α)

theorem holds_iff {m : Machine α} : (r.guard g).holds m.ready m.flags = true ↔
    g.condition ∈ m.flags ∧ (∀ t ∈ g.op.needs, r.slot t ∈ m.ready) ∧
      (∀ x ∈ g.op.provides.map r.slot, x ∉ m.ready) ∧ ∀ c ∈ g.op.completionFlags, c ∉ m.flags := by
  simp [Guard.holds,guard,and_assoc]

variable {natives}

theorem fire_plain {m : Machine α} {op : Op} (hruns : op.Runs natives) (hbranch : op.isBranch = false)
    (hgoes : op.endsActivation = false) : ∃ memory, r.fire natives m op =
        .going ⟨op.provides.map r.slot ++ m.ready, op.completionFlags ++ m.flags, memory⟩ ∧
      (∀ x, x ∉ op.provides.map r.slot → memory x = m.memory x) ∧
      ((op.provides.map r.slot).Nodup → (∀ t ∈ op.needs, r.slot t ∉ op.provides.map r.slot) →
        ∀ took, op.Obeyed natives r.slot took memory) := by
  have hone : ∀ {x : Register} {v : Datum α} {t : Register}, r.slot t ∉ [x] →
      Machine.store m.memory [x] [v] (r.slot t) = r.look m t := Machine.store_of_notMem
  cases op with
  | callSync callee args results done =>
    refine ⟨Machine.store m.memory (results.map r.slot) (natives callee (args.map (r.look m))), rfl,
      fun x hx => Machine.store_of_notMem hx, fun hnodup hneeds took => ?_⟩
    have hargs : args.map
      (fun t => Machine.store m.memory (results.map r.slot) (natives callee (args.map (r.look m)))
        (r.slot t)) = args.map (r.look m) := map_congr_left fun t ht =>
          Machine.store_of_notMem (hneeds t ht)
    rw [Op.Obeyed,hargs]
    have hresults := @Machine.map_store _ m.memory _ _ hnodup
      (by rw [length_map]; exact (hruns (args.map (r.look m))).symm)
    rwa [map_map] at hresults
  | rename source dest =>
    refine ⟨_, rfl, fun x hx => Machine.store_of_notMem hx, fun _ hneeds took => ?_⟩
    exact (update_self ..).trans (hone (hneeds source (mem_singleton_self _))).symm
  | loadInteger target n =>
    exact ⟨_, rfl, fun x hx => Machine.store_of_notMem hx, fun _ _ took => update_self ..⟩
  | loadString target s =>
    exact ⟨_, rfl, fun x hx => Machine.store_of_notMem hx, fun _ _ took => update_self ..⟩
  | compare op lhs rhs result =>
    refine ⟨_, rfl, fun x hx => Machine.store_of_notMem hx, fun _ hneeds took => ?_⟩
    rw [Op.Obeyed]
    refine (update_self ..).trans ?_
    rw [hone (hneeds lhs (by simp [Op.needs])),hone (hneeds rhs (by simp [Op.needs]))]
  | free t done => exact ⟨_, rfl, fun _ _ => rfl, fun _ _ _ => trivial⟩
  | branch => cases hbranch
  | ret => cases hgoes
  | _ => exact hruns.elim

variable (natives)

/-- The machine has come as far as the walk, with the operations `gs` still before it. The conditions
that they stand under are among `known` or are opened by them. -/
structure Tracks (base : Register → Prop) (known : List Condition) (gs : List GuardedOp) (w : Walk)
    (m : Machine α) :
    Prop where
  goes : w.ended = false
  ready : ∀ x, x ∈ m.ready ↔ Given r.slot base w.trace x
  chosen : ∀ c ∈ w.chosen, c ∈ m.flags
  known : ∀ c ∈ known, c ∉ flagsIn gs ∧ (c ∈ m.flags → c ∈ w.chosen)
  unset : ∀ c ∈ m.flags, c ∉ flagsIn gs
  past : ∀ op ∈ w.trace, ∀ c ∈ op.completionFlags, c ∉ flagsIn gs
  obeyed : ∀ op ∈ w.trace, op.Obeyed natives r.slot (· ∈ w.chosen) m.memory

/-- From one machine to the next, what is ready stays as it is. -/
def Keeps (m m' : Machine α) : Prop := ∀ x ∈ m.ready, x ∈ m'.ready ∧ m'.memory x = m.memory x

variable {r natives} {base : Register → Prop} {known : List Condition} {gs : List GuardedOp}
  {g : GuardedOp} {w : Walk}
variable {m : Machine α}

theorem Tracks.tail (h : r.Tracks natives base known (g :: gs) w m)
    (hnodup : (flagsIn (g :: gs)).Nodup) :
    r.Tracks natives base (g.op.targets ++ known) gs w m where
  goes := h.goes
  ready := h.ready
  chosen := h.chosen
  known c hc := by
    rcases mem_append.1 hc with hc | hc
    · have hflag := Op.targets_subset _ hc
      refine ⟨fun hlater => (nodup_append.1 hnodup).2.2 c hflag c hlater rfl, fun hset => ?_⟩
      exact absurd (mem_append_left _ hflag) (h.unset c hset)
    · exact ⟨fun hlater => (h.known c hc).1 (mem_append_right _ hlater), (h.known c hc).2⟩
  unset c hc hlater := h.unset c hc (mem_append_right _ hlater)
  past op hop c hc hlater := h.past op hop c hc (mem_append_right _ hlater)
  obeyed := h.obeyed

theorem Tracks.extend {m' : Machine α} {opened : List Condition}
    (h : r.Tracks natives base known (g :: gs) w m) (hnodup : (flagsIn (g :: gs)).Nodup)
    (hfed : Fed r.slot base w.trace) (hready : ∀ x, x ∈ m'.ready ↔
      x ∈ g.op.provides.map r.slot ∨ x ∈ m.ready)
    (hset : ∀ c ∈ m.flags, c ∈ m'.flags)
    (hflags : ∀ c ∈ m'.flags, c ∈ g.op.completionFlags ∨ c ∈ m.flags)
    (hopened : ∀ c ∈ opened, c ∈ g.op.completionFlags ∧ c ∈ m'.flags)
    (htargets : ∀ c ∈ g.op.targets, c ∈ m'.flags → c ∈ opened)
    (hmemory : ∀ x ∈ m.ready, m'.memory x = m.memory x)
    (hobeyed : g.op.Obeyed natives r.slot (· ∈ opened ++ w.chosen) m'.memory) :
    r.Tracks natives base (g.op.targets ++ known) gs ⟨opened ++ w.chosen, w.trace ++ [g.op],
      false⟩ m' := by
  have hfirst : ∀ c ∈ g.op.completionFlags, c ∉ flagsIn gs := fun c hc hlater =>
    (nodup_append.1 hnodup).2.2 c hc c hlater rfl
  have htail := h.tail hnodup
  constructor
  · rfl
  · intro x
    rw [hready,h.ready,Given,Given,writes,writes,flatMap_append,mem_append]
    simp only [flatMap_cons,flatMap_nil,append_nil]
    tauto
  · intro c hc
    rcases mem_append.1 hc with hc | hc
    · exact (hopened c hc).2
    · exact hset c (h.chosen c hc)
  · intro c hc
    refine ⟨(htail.known c hc).1, fun hraised => ?_⟩
    rcases mem_append.1 hc with hc | hc
    · exact mem_append_left _ (htargets c hc hraised)
    · rcases hflags c hraised with hown | hold
      · exact absurd (mem_append_left _ hown) (h.known c hc).1
      · exact mem_append_right _ ((h.known c hc).2 hold)
  · intro c hc
    exact (hflags c hc).elim (hfirst c) (htail.unset c)
  · intro op hop
    rcases mem_append.1 hop with hop | hop
    · exact htail.past op hop
    · rw [mem_singleton.1 hop]
      exact hfirst
  · intro op hop
    rcases mem_append.1 hop with hop | hop
    · obtain ⟨hreads,hprovides⟩ := hfed.given_of_mem hop
      refine (h.obeyed op hop).congr (fun hfree t ht => ?_) (fun t ht => ?_) fun c hc hmem => ?_
      · exact hmemory _ ((h.ready _).2 (hreads hfree t ht))
      · exact hmemory _ ((h.ready _).2 (hprovides t ht))
      · refine (mem_append.1 hmem).resolve_left fun hmem => h.past op hop c hc ?_
        exact mem_append_left _ (hopened c hmem).1
    · rw [mem_singleton.1 hop]
      exact hobeyed

theorem scan_of_fire {m' : Machine α} (hholds : (r.guard g).holds m.ready m.flags = true)
    (hfire : r.fire natives m g.op = .going m') : r.scan natives (g :: gs) m = r.scan natives gs m' := by
  rw [scan,if_pos hholds,hfire]

theorem scan_of_not_holds (hholds : ¬(r.guard g).holds m.ready m.flags = true) :
    r.scan natives (g :: gs) m = r.scan natives gs m := by
  rw [scan,if_neg hholds]

section

variable (h : r.Tracks natives base known (g :: gs) w m)

include h

/-- An operation on a clean path may fire, a release apart. -/
theorem Tracks.holds (hc : g.condition ∈ w.chosen)
    (hclean : Clean natives r.slot base (w.trace ++ g.op :: later))
    (hfree : ∀ t done, g.op ≠ .free t done) :
    (r.guard g).holds m.ready m.flags = true := by
  refine r.holds_iff.2 ⟨h.chosen _ hc, fun t ht => ?_, fun x hx hmem => ?_, fun c hflag hset => ?_⟩
  · exact (h.ready _).2 (hclean.given hfree t (g.op.needs_subset_reads ht))
  · exact hclean.new.2 x hx ((h.ready x).1 hmem)
  · exact h.unset c hset (mem_append_left _ hflag)

theorem Tracks.next_branch (hnodup : (flagsIn (g :: gs)).Nodup)
    (hc : g.condition ∈ w.chosen) (hclean : Clean natives r.slot base (w.trace ++ g.op :: later))
    (hbranch : g.op.isBranch = true) :
    ∃ w' ∈ w.next g, ∃ m', r.scan natives (g :: gs) m = r.scan natives gs m' ∧ Keeps m m' ∧
      r.Tracks natives base (g.op.targets ++ known) gs w' m' := by
  obtain ⟨c,_⟩ := g
  obtain ⟨test,a,b,rfl⟩ := Op.exists_branch hbranch
  have hne : a ≠ b := fun heq => (nodup_cons.1 hnodup).1 (heq ▸ mem_cons_self)
  have hold : ∀ c ∈ [a, b], c ∉ w.chosen :=
    fun c hc hmem => h.unset c (h.chosen c hmem) (mem_append_left _ hc)
  refine ⟨⟨[if (r.look m test).isTrue then a else b] ++ w.chosen, w.trace ++ [.branch test a b],
    false⟩, ?_, _, scan_of_fire (h.holds hc hclean (by simp)) rfl, fun x hx => ⟨hx, rfl⟩, ?_⟩
  · rw [Walk.next_branch h.goes hc]
    cases (r.look m test).isTrue <;> simp
  · refine h.extend hnodup hclean.fed.left (fun x => by simp [Op.provides,Machine.raise])
      (fun c hc => mem_append_right _ hc) (fun c hc => ?_) (fun c hc => ?_) (fun c hc hset => ?_)
      (fun _ _ => rfl) ⟨fun htook => ?_, fun htook => ?_⟩
    · refine (mem_append.1 hc).imp_left fun hc => ?_
      rw [mem_singleton.1 hc]
      cases (r.look m test).isTrue <;> simp [Op.completionFlags]
    · refine ⟨?_, mem_append_left _ hc⟩
      rw [mem_singleton.1 hc]
      cases (r.look m test).isTrue <;> simp [Op.completionFlags]
    · exact (mem_append.1 hset).resolve_right fun hset => h.unset c hset (mem_append_left _ hc)
    · have hopened := (mem_append.1 htook).resolve_right (hold a (by simp))
      show (r.look m test).isTrue = true
      by_contra hfalse
      simp [hfalse,hne] at hopened
    · have hopened := (mem_append.1 htook).resolve_right (hold b (by simp))
      show (r.look m test).isTrue = false
      by_contra htrue
      simp [htrue,hne.symm] at hopened

theorem Tracks.next (hnodup : (flagsIn (g :: gs)).Nodup) (hknown : g.condition ∈ known)
    (hclean : ∀ v ∈ w.through (g :: gs), Clean natives r.slot base v.trace)
    (hgoes : g.condition ∈ w.chosen → g.op.endsActivation = false) :
    ∃ w' ∈ w.next g, ∃ m', r.scan natives (g :: gs) m = r.scan natives gs m' ∧ Keeps m m' ∧
      r.Tracks natives base (g.op.targets ++ known) gs w' m' := by
  by_cases hc : g.condition ∈ w.chosen
  · obtain ⟨_,hclean⟩ := Walk.exists_trace h.goes hc hclean
    have hfed := hclean.fed.left
    cases hbranch : g.op.isBranch with
    | true => exact h.next_branch hnodup hc hclean hbranch
    | false =>
      have hnext := @Walk.next_op w g.condition g.op h.goes hc hbranch
      rw [hgoes hc] at hnext
      have hmem : (⟨w.chosen, w.trace ++ [g.op], false⟩ : Walk) ∈ w.next g :=
        hnext ▸ mem_singleton_self _
      by_cases hholds : (r.guard g).holds m.ready m.flags = true
      · obtain ⟨-,hneeds,hnew,-⟩ := r.holds_iff.1 hholds
        obtain ⟨memory,hfire,hold,hobeyed⟩ := r.fire_plain (m := m) hclean.runs_next hbranch (hgoes hc)
        have hkeeps : ∀ x ∈ m.ready, memory x = m.memory x :=
          fun x hx => hold x fun hmem => hnew x hmem hx
        refine ⟨_, hmem, _, scan_of_fire hholds hfire,
          fun x hx => ⟨mem_append_right _ hx, hkeeps x hx⟩, ?_⟩
        refine @extend _ _ _ _ _ _ _ _ _ _ [] h hnodup hfed (fun x => mem_append)
          (fun c hc => mem_append_right _ hc) (fun c hc => mem_append.1 hc) (by simp) ?_ hkeeps ?_
        · simp [Op.targets_of_not_branch hbranch]
        · exact hobeyed hclean.new.1 (fun t ht hmem => hnew _ hmem (hneeds t ht)) _
      · -- only a release may still wait
        obtain ⟨t,done,hfree⟩ : ∃ t done, g.op = .free t done := by
          by_contra hfree
          exact hholds (h.holds hc hclean fun t done heq => hfree ⟨t, done, heq⟩)
        refine ⟨_, hmem, m, scan_of_not_holds hholds, fun x hx => ⟨hx, rfl⟩, ?_⟩
        refine @extend _ _ _ _ _ _ _ _ _ _ [] h hnodup hfed (fun x => ?_) (fun c hc => hc)
          (fun c hc => .inr hc) (by simp) ?_ (fun _ _ => rfl) ?_
        · simp [hfree,Op.provides]
        · simp [Op.targets_of_not_branch hbranch]
        · rw [hfree]
          trivial
  · have hholds : ¬(r.guard g).holds m.ready m.flags = true := fun hholds =>
      hc ((h.known _ hknown).2 (r.holds_iff.1 hholds).1)
    exact ⟨w, Walk.next_of_passes (.inr hc) ▸ mem_singleton_self w, m, scan_of_not_holds hholds,
      fun x hx => ⟨hx, rfl⟩, h.tail hnodup⟩

end

/-- A scan follows a walk to its exit, if all walks come to one. -/
theorem scan_follows (h : r.Tracks natives base known gs w m) (hherald : Heralded known gs)
    (hnodup : (flagsIn gs).Nodup) (hclean : ∀ v ∈ w.through gs, Clean natives r.slot base v.trace)
    (hends : ∀ v ∈ w.through gs, v.ended = true) :
    ∃ v ∈ w.through gs, ∃ memory values garbage front,
      r.scan natives gs m = .returned (values.map fun t => memory (r.slot t)) ∧
        v.trace = front ++ [.ret values garbage] ∧
          (∀ op ∈ v.trace, op.Obeyed natives r.slot (· ∈ v.chosen) memory) ∧ ∀ x ∈ m.ready,
            memory x = m.memory x := by
  induction gs generalizing known w m with
  | nil => exact absurd (hends w (mem_singleton_self w)) (by simp [h.goes])
  | cons g gs ih =>
    by_cases hexit : g.condition ∈ w.chosen ∧ g.op.endsActivation = true
    · obtain ⟨hc,hexit⟩ := hexit
      obtain ⟨_,hclean⟩ := Walk.exists_trace h.goes hc hclean
      obtain ⟨values,garbage,hop⟩ := Op.exists_ret hclean.runs_next hexit
      have hnext : w.next g = [⟨w.chosen, w.trace ++ [.ret values garbage], true⟩] := by
        rw [← hop,← hexit]
        exact Walk.next_op h.goes hc (by rw [hop]; rfl)
      refine ⟨⟨w.chosen, w.trace ++ [.ret values garbage], true⟩, ?_, m.memory, values, garbage,
        w.trace, ?_, rfl, ?_,
        fun _ _ => rfl⟩
      · refine mem_flatMap.2 ⟨_, hnext ▸ mem_singleton_self _, ?_⟩
        rw [Walk.through_of_passes fun _ _ => .inl rfl]
        exact mem_singleton_self _
      · rw [scan,if_pos (h.holds hc hclean (by simp [hop])),hop]
        rfl
      · intro op hop
        rcases mem_append.1 hop with hop | hop
        · exact h.obeyed op hop
        · rw [mem_singleton.1 hop]
          trivial
    · obtain ⟨w',hw',_,hscan,hkeeps,htracks⟩ := h.next hnodup hherald.1 hclean fun hc =>
        Bool.eq_false_iff.2 fun hend => hexit ⟨hc, hend⟩
      have hthrough : ∀ v ∈ w'.through gs, v ∈ w.through (g :: gs) :=
        fun v hv => mem_flatMap.2 ⟨w', hw', hv⟩
      obtain ⟨v,hv,memory,values,garbage,front,hreturned,htrace,hobeyed,hmemory⟩ :=
        ih htracks hherald.2 (nodup_append.1 hnodup).2.1 (fun v hv => hclean v (hthrough v hv))
          fun v hv => hends v (hthrough v hv)
      refine ⟨v, hthrough v hv, memory, values, garbage, front, hscan.trans hreturned, htrace, hobeyed,
        fun x hx => ?_⟩
      obtain ⟨hready,hsame⟩ := hkeeps x hx
      exact (hmemory x hready).trans hsame

end Routine

end Polled
