import Polled.Generation
import Polled.Proofs.Unfailing

/-!
How often the calls of a lowered routine start a child.

`once_iff_awaits` says which calls run on one child, if no other call has their child slot and they do
not stand under their own flag. Lowering makes only such calls (`calls_apart_of_lowerFunction`).
-/

namespace Polled

open List CSource

variable {p : Program} {r : Routine} {g : GuardedOp} {callee : String} {args results : List Register}
  {k : ChildSlot}
variable {done : Option Condition}

namespace Routine.WellFormed

variable (h : r.WellFormed) (hop : g.op = .callAsync callee args results k done)

include h hop

theorem sole_call (hg : g ∈ r.ops) : ∀ g' ∈ r.ops, g'.op.childSlot? = some k → g' = g := by
  intro g' hg' hk
  have hslots : (r.ops.flatMap fun g => g.op.child.map (·.2)).Nodup := by
    have hchildren := congrArg (map (·.2)) h.children
    rw [childrenIn,map_flatMap,zipIdx_map_snd] at hchildren
    rw [hchildren]
    exact nodup_range'
  have hdisjoint := (nodup_flatMap.1 hslots).2
  have : Std.Symm (Function.onFun List.Disjoint fun g : GuardedOp => g.op.child.map (·.2)) :=
    ⟨fun _ _ => List.Disjoint.symm⟩
  by_contra hne
  have hapart := hdisjoint.forall hg' hg hne
  refine hapart (a := k) ?_ (by simp [hop,Op.child])
  cases hop' : g'.op <;> simp_all [Op.childSlot?,Op.child]

/-- The branch that opens an operation sets flags of its own. -/
theorem condition_ne (hfresh : Fresh 1 r.conditionCount r.ops) (hg : g ∈ r.ops) :
    ∀ x ∈ done, g.condition ≠ x := by
  rintro x hx rfl
  obtain ⟨before,after,hops⟩ := append_of_mem hg
  have hflag : g.condition ∈ g.op.completionFlags := by simpa [hop,Op.completionFlags] using hx
  have hmem : g.condition ∈ flagsIn r.ops := mem_flatMap.2 ⟨g, hg, hflag⟩
  rcases h.governed before g after hops with hentry | ⟨b,hb,t,c,_,hbranch,htarget⟩
  · have hlow := (hfresh.bound _ hmem).1
    rw [hentry] at hlow
    exact absurd hlow (by decide)
  · have hnodup := hfresh.nodup
    rw [hops,flagsIn,flatMap_append,flatMap_cons] at hnodup
    have htwice : g.condition ∈ flagsIn before :=
      mem_flatMap.2 ⟨b, hb, by rcases htarget with h | h <;> simp [hbranch,Op.completionFlags,h]⟩
    exact disjoint_of_nodup_append hnodup htwice (mem_append_left _ hflag)

end Routine.WellFormed

theorem calls_apart_of_lowerFunction {table : SignatureTable} {d : Decl} {body : Block}
    {log : List Event} {l : Lowered} (h : lowerFunction table d body log = .ok l)
    (hr : r ∈ l.routine :: l.closures) (hg : g ∈ r.ops)
    (hop : g.op = .callAsync callee args results k done) :
    (∀ g' ∈ r.ops, g'.op.childSlot? = some k → g' = g) ∧ ∀ x ∈ done, g.condition ≠ x := by
  have hwf := wellFormed_of_lowerFunction h hr
  have hordered : r.Ordered True :=
    ordered_of_lowerFunction h ((mem_cons.1 hr).symm.imp_right fun hr => ⟨hr, fun _ => trivial⟩)
  exact ⟨hwf.sole_call hop hg, hwf.condition_ne hop hordered.fresh hg⟩

/-- The calls that run on one child are those that wait for results and those without a flag. Until its
flag is set, every call does. -/
theorem once_iff_awaits (hop : g.op = .callAsync callee args results k done) (hg : g ∈ r.ops)
    (hsole : ∀ g' ∈ r.ops, g'.op.childSlot? = some k → g' = g) (hne : ∀ x ∈ done, g.condition ≠ x) :
    ((∀ s deeds s', s.child k = false → s.done k = false →
        Lives p r k (results.map r.slot) s deeds s' → Once deeds) ↔ results ≠ [] ∨ done = none) ∧
      ∀ s deeds s', s.child k = false → s.done k = false → Lives p r k (results.map r.slot) s deeds s' →
        (∀ x ∈ done, s'.flag x = false) → Once deeds := by
  refine ⟨⟨fun h => ?_, fun h s deeds s' hchild hdone hl => ?_⟩,
    fun s deeds s' hchild hdone hl hflag => ?_⟩
  · by_contra hbad
    obtain ⟨rfl,x,rfl⟩ : results = [] ∧ ∃ x, done = some x := by
      simpa [Option.ne_none_iff_exists'] using hbad
    obtain ⟨s,deeds,s',hchild,hdone,hl,_⟩ := exists_created_twice (p := p) hop hg (hne x rfl)
    have := (h s deeds s' hchild hdone hl).1
    omega
  · exact (phase_of_lives hop hsole hchild hdone hl (h.imp_right (by simp [·]))).once
  · exact (phase_of_lives hop hsole hchild hdone hl (.inr hflag)).once

def CSource.Fields.fresh : Fields :=
  ⟨fun c => decide (c = .entry), fun _ => false, fun _ => false, fun _ => false⟩

/-- The call of a bell that gives nothing back. -/
def ringing.call : GuardedOp := ⟨.entry, .callAsync "bell" [] [] 0 (some 1)⟩

/-- Rings the bell, and returns what comes as an answer. -/
def ringing : Routine where
  name := "ring"
  isSync := false
  isNative := false
  paramCount := 0
  returnKinds := [.owned .integer]
  registerKinds := [.owned .integer]
  slots := [0]
  ops := [ringing.call, ⟨.entry, .callAsync "answer" [] [0] 1 none⟩, ⟨.entry, .ret [0] []⟩]
  childCalls := ["bell", "answer"]
  conditionCount := 2

/-- What `ringing` is lowered from. -/
def ringText : String :=
  "native func bell(): () native func answer(): Integer " ++
    "func ring(): Integer \x7b bell() return answer() \x7d"

def ringLowered : Option Lowered := do
  let tree ← (SourceModule.parse ringText.toList 0).toOption
  let table ← (Bundle.signatures ⟨"ring", [⟨"ring", 0, tree⟩]⟩).toOption
  let d ← tree.functions.find? (·.name.node == "ring")
  (lowerFunction table d (← d.body) []).toOption

theorem exists_lowers_ringing :
    ∃ table d body l, lowerFunction table d body [] = .ok l ∧ l.routine = ringing := by
  have hlowered : ringLowered.map (·.routine) = some ringing := by decide +kernel
  simp only [ringLowered,bind,Option.map_eq_some_iff,Option.bind_eq_some_iff] at hlowered
  obtain ⟨l,⟨_,-,table,-,d,-,body,-,hl⟩,hringing⟩ := hlowered
  cases hlower : lowerFunction table d body [] with
  | error halt => simp [hlower,Except.toOption] at hl
  | ok l' =>
    obtain rfl : l' = l := by simpa [hlower,Except.toOption] using hl
    exact ⟨table, d, body, l', hlower, hringing⟩

theorem once_iff_awaits_ringing : (¬ ∀ s deeds s', s.child 0 = false → s.done 0 = false →
        Lives ⟨"ring", [ringing]⟩ ringing 0 [] s deeds s' → Once deeds) ∧
      ∀ s deeds s', s.child 0 = false → s.done 0 = false →
        Lives ⟨"ring", [ringing]⟩ ringing 0 [] s deeds s' → s'.flag 1 = false → Once deeds := by
  obtain ⟨_,_,_,_,hl,hringing⟩ := exists_lowers_ringing
  have hcall : ringing.call ∈ ringing.ops := mem_cons_self
  obtain ⟨hsole,hne⟩ := calls_apart_of_lowerFunction hl (hringing ▸ mem_cons_self) hcall rfl
  simpa using once_iff_awaits (p := ⟨"ring", [ringing]⟩) rfl hcall hsole hne

/-- Of two polls with the end of the child between them, the first waits after one pass, and the second
creates another child. -/
theorem rings_twice :
    let first := ringing.sweepBlocks ⟨"ring", [ringing]⟩ (fun _ => false) .fresh
    let second := ringing.sweepBlocks ⟨"ring", [ringing]⟩ (fun _ => false) (first.1.finish 0 [])
    Action.progress ∉ first.2 ∧ Action.leave ∉ first.2 ∧
      Lives ⟨"ring", [ringing]⟩ ringing 0 [] .fresh
        [.created, .scheduled, .finished, .created, .scheduled] second.1 := by
  have hstart : Lives ⟨"ring", [ringing]⟩ ringing 0 [] .fresh [] .fresh := .start
  exact ⟨by decide, by decide, ((hstart.sweepBlocks fun _ => false).finish rfl rfl).sweepBlocks
    fun _ => false⟩

end Polled
