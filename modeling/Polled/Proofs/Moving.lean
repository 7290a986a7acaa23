import Polled.Proofs.Resources

/-!
Values that are moved.

A value on the heap that an operation passes on for good is nobody else's. Lowering keeps to that for
every body in which no expression moves a variable that it already holds, but not for all bodies.
-/

namespace Polled

open Passage List

def Op.call? : Op → Option (String × List Register)
  | .callSync callee args _ _ | .callAsync callee args _ _ _ => some (callee, args)
  | _ => none

/-- Along the path, an owned value on the heap that goes to an owned parameter is passed once and used no
more. -/
def Routine.MovesAlone (r : Routine) (callees : Callees) (p : List Op) : Prop :=
  ∀ before op after callee args kinds, p = before ++ op :: after → op.call? = some (callee, args) →
    callees callee = some kinds → ∀ (i : Nat) (a : Register) (k : Kind), args[i]? = some a →
    kinds[i]? = some k →
    k.borrowed = false →
    r.OwnsSlot (r.slot a) →
    (∀ (j : Nat) (b : Register), args[j]? = some b → j ≠ i → r.slot b ≠ r.slot a) ∧
      ∀ later ∈ after, r.slot a ∉ (later.reads ++ later.frees).map r.slot

theorem Op.passes_of_call? {op : Op} {callees : Callees} {callee : String} {args : List Register}
    {kinds : List Kind} (hcall : op.call? = some (callee, args)) (hkinds : callees callee = some kinds) :
    op.reads = args ∧ op.passes callees = (args.zip kinds).map fun (r, k) => (r, !k.borrowed) := by
  cases op with
  | callSync callee' args' results done =>
    cases hcall
    simp [reads,needs,passes,hkinds]
  | callAsync callee' args' results slot done =>
    cases hcall
    simp [reads,passes,hkinds]
  | _ => cases hcall

section

variable {table : SignatureTable} {d : Decl} {body : Block} {log : List Event} {l : Lowered}
  {r : Routine} {p : List Op}

theorem movesAlone_of_apart (h : lowerFunction table d body log = .ok l)
    (hapart : body.apart table = true) (hr : r ∈ l.routine :: l.closures) (hp : p ∈ r.paths) :
    r.MovesAlone (l.callees table) p := by
  obtain ⟨params,f,-,hkinds,hslots,hpaths⟩ :=
    @traced_of_lowerFunction _ _ _ _ _ True h (fun _ => hapart) r hr
  have hstart := Draft.valid_start params []
  have hsound := Steps.sound (hpaths p hp) hstart.sound
  have hwhole := Steps.passes_eq_reads (hpaths p hp) (by simp [Draft.along])
  have hexclusive := Steps.exclusive (hpaths p hp) trivial hstart.sound
    ⟨by simp [Draft.along], by simp [Draft.along], by simp [Draft.along], by simp [Draft.along],
      by simp [Draft.along], by simp [Draft.along]⟩
  have howns := Routine.ownsSlot_iff hkinds hslots hsound.wf
  rintro before op after _ args kinds rfl hcall hcallee i a k ha hk howned hheap
  obtain ⟨hreads,hpasses⟩ := Op.passes_of_call? hcall hcallee
  have hmem : op ∈ before ++ op :: after := mem_append_right _ mem_cons_self
  have hheap := (howns a).1 hheap
  rw [Routine.slot_eq hslots]
  have hi : (op.passes (l.callees table))[i]? = some (a, true) := by
    have hzip : (args.zip kinds)[i]? = some (a, k) := getElem?_zip_eq_some.2 ⟨ha, hk⟩
    simp [hpasses,hzip,howned]
  refine ⟨fun j b hb hne heq => ?_, fun later hlater hused => ?_⟩
  · have hj : ((op.passes (l.callees table)).map (·.1))[j]? = some b := by
      rw [hwhole op hmem,hreads]
      exact hb
    rw [getElem?_map] at hj
    obtain ⟨q,hq,rfl⟩ := Option.map_eq_some_iff.1 hj
    have hheap' : f.layout.heap q.1 := heap_of_root_eq hsound heq.symm hheap
    have hpair := pairwise_iff_getElem.1 (hexclusive.alone op hmem)
    obtain ⟨hilt,hi⟩ := List.getElem?_eq_some_iff.1 hi
    obtain ⟨hjlt,hq⟩ := List.getElem?_eq_some_iff.1 hq
    rcases Nat.lt_or_gt_of_ne hne with hlt | hlt
    · have hapart := hpair j i hjlt hilt hlt
      rw [hi,hq] at hapart
      exact hapart (.inr rfl) hheap' heq
    · have hapart := hpair i j hilt hjlt hlt
      rw [hi,hq] at hapart
      exact hapart (.inl rfl) hheap heq.symm
  · obtain ⟨t,ht,heq⟩ := mem_map.1 hused
    have hpair := (pairwise_append.1 hexclusive.later).2.1
    exact (pairwise_cons.1 hpair).1 later hlater a ⟨mem_of_getElem? hi, hheap⟩ t ht heq

end

/-- The path of `refill` that enters the loop and gives the cup to its closure. -/
def refillRound : List Op :=
  [.branch 0 1 2, .branch 0 3 4, .callAsync "refill_1" [0, 1] [2, 3] 0 none,
    .callSync "brew" [] [4] none, .ret [4] [3]]

theorem refill_movesAlone : refillBody.apart refillTable = true ∧ refillRound ∈ refilled.routine.paths ∧
      refilled.routine.MovesAlone (refilled.callees refillTable) refillRound :=
  have hapart : refillBody.apart refillTable = true := by decide +kernel
  have hpath : refillRound ∈ refilled.routine.paths := by decide +kernel
  ⟨hapart, hpath, movesAlone_of_apart lowerFunction_refill hapart mem_cons_self hpath⟩

def lunchTable : SignatureTable where
  entries :=
    [⟨"eat", "main", true, true, [("s", .owned .string)], [.owned .integer], .nowhere⟩,
      ⟨"rate", "main", true, true, [("s", .lent .string), ("n", .owned .integer)],
        [.owned .integer], .nowhere⟩]

/-- `func lunch(x: String): Integer` -/
def lunch : Decl where
  span := .nowhere
  name := bare "lunch"
  isSync := false
  isNative := false
  params := [⟨bare "x", bare (.owned .string)⟩]
  returns := [bare (.owned .integer)]
  body := none

/-- `return rate(x, eat(x))` -/
def lunchBody : Block where
  span := .nowhere
  stmts :=
    [.ret .nowhere (some (.call .nowhere (bare "rate")
      [.value (.name .nowhere "x"),
        .value (.call .nowhere (bare "eat") [.value (.name .nowhere "x")])]))]

def lunched : Lowered :=
  match lowerFunction lunchTable lunch lunchBody [] with
  | .ok l => l
  | .error halt => ⟨.native lunch.name.node false [] [], [], halt.log⟩

theorem lowerFunction_lunch : lowerFunction lunchTable lunch lunchBody [] = .ok lunched := by cbv

/-- A variable may be lent to a call one of whose later arguments has given it away. -/
theorem not_movesAlone : ¬∀ table d body log l, lowerFunction table d body log = .ok l →
    ∀ r ∈ l.routine :: l.closures, ∀ p ∈ r.paths, r.MovesAlone (l.callees table) p := by
  intro hall
  have hmoves := hall _ _ _ _ _ lowerFunction_lunch _ mem_cons_self
    [.callSync "eat" [0] [1] none, .callSync "rate" [0, 1] [2] none, .ret [2] []] (by decide +kernel)
  have hlater := (hmoves [] _ _ "eat" [0] [.owned .string] rfl rfl (by decide +kernel) 0 0
    (.owned .string) rfl rfl rfl ⟨by decide +kernel, .inl (by decide +kernel)⟩).2 _ mem_cons_self
  exact hlater (by decide +kernel)

end Polled
