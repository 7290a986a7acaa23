import Mathlib
import Polled.Proofs.Leaks
import Polled.Proofs.Moves
import Polled.Proofs.Releases
import Polled.Proofs.Statements

/-!
Owned values on the paths of lowered functions.

Along every path nothing is freed twice or read once it was freed, and every owned value on the heap is
given away or freed. A value that is moved has no other user, as long as no expression moves a variable
that it already holds.
-/

namespace Polled

open Lower Passage List

variable {table : SignatureTable} {l : Lowered}

def Lowered.callees (table : SignatureTable) (l : Lowered) : Callees := fun name =>
  match table.lookup? name with
  | some sig => some (sig.params.map (·.2))
  | none => (l.closures.find? (·.name == name)).map fun c => c.registerKinds.take c.paramCount

theorem SignatureTable.name_of_lookup {name : String} {sig : Signature}
    (h : table.lookup? name = some sig) :
    sig.name = name := by
  have hname := find?_some h
  simpa using hname

theorem Lowered.callees_cover (table : SignatureTable) (l : Lowered) :
    (l.callees table).Cover table := by
  intro name sig hsig
  rw [callees,SignatureTable.name_of_lookup hsig,hsig]

theorem Lowered.callees_know (hnodup : (l.closures.map (·.name)).Nodup)
    (hnew : ∀ c ∈ l.closures, table.lookup? c.name = none) : (l.callees table).Know l.closures := by
  intro c hc
  have hfind : l.closures.find? (·.name == c.name) = some c := by
    cases hfound : l.closures.find? (·.name == c.name) with
    | none => exact absurd (find?_eq_none.1 hfound c hc) (by simp)
    | some c' =>
      have hname : c'.name = c.name := by simpa using find?_some hfound
      rw [inj_on_of_nodup_map hnodup (mem_of_find?_eq_some hfound) hc hname]
  simp [callees,hnew c hc,hfind]

theorem Draft.Sprouts.callees_know {f : Frame} {d : Draft} {params : List (String × Kind)}
    {log : List Event} (h : Draft.Sprouts f (.start params log) d) :
    (Lowered.callees f.table ⟨d.routine f, d.closures, d.log⟩).Know d.closures := by
  obtain ⟨new,hnew,-,_,hfresh⟩ := h
  have hnew : d.closures = new := hnew
  exact Lowered.callees_know (by rwa [hnew]) fun c hc => (hfresh c (hnew ▸ hc)).1

def Decl.frame (d : Decl) (table : SignatureTable) : Frame where
  table
  name := d.name.node
  isSync := d.isSync
  params := d.typedParams
  returnKinds := d.returnKinds
  inLoop := false

theorem lowerFunction_eq_ok {d : Decl} {body : Block} {log : List Event}
    (h : lowerFunction table d body log = .ok l) :
    ∃ draft, body.lower (d.frame table) (.start d.typedParams log) = .ok (.returns, draft) ∧
      l = ⟨draft.routine (d.frame table), draft.closures, draft.log⟩ := by
  rw [lowerFunction] at h
  split at h
  · rename_i draft hbody
    cases h
    obtain ⟨flow,e,hlower,hend⟩ := (bind_eq_ok _ _ _).1 hbody
    cases flow with
    | returns =>
      obtain ⟨-,rfl⟩ := (pure_eq_ok _ _).1 hend
      exact ⟨_, hlower, rfl⟩
    | continues => exact ((refuse_eq_ok _ _ _).1 hend).elim
  · cases h

theorem traced_of_lowerFunction {table : SignatureTable} {d : Decl} {body : Block}
    {log : List Event} {l : Lowered} {strict : Prop} (h : lowerFunction table d body log = .ok l)
    (hapart : strict → body.apart table = true) {r : Routine} (hr : r ∈ l.routine :: l.closures) :
    r.Traced (l.callees table) strict := by
  obtain ⟨_,hlower,rfl⟩ := lowerFunction_eq_ok h
  have hknow := (Block.grows (d.frame table) body _ _ _ hlower).callees_know
  have hproceeds := Block.proceeding (f := d.frame table) (Lowered.callees_cover table _)
    body hapart _ _ _ (Draft.valid_start d.typedParams log) (lt_add_one 0) hknow hlower
  rcases mem_cons.1 hr with rfl | hr
  · obtain ⟨_,hops⟩ := hproceeds.advances
    exact Draft.Advances.traced (f := d.frame table) hops
  · rcases hproceeds.traced r hr with hr | hr
    · cases hr
    · exact hr

theorem Kind.ownsHeap_iff (k : Kind) :
    k.ownsHeap = true ↔ k.borrowed = false ∧ (k.family = .string ∨ k.family = .tuple) := by
  obtain ⟨borrowed,family,_⟩ := k
  cases borrowed <;> cases family <;> simp [ownsHeap]

namespace Routine

/-- The slot holds an owned `String` or an owned `Tuple`. -/
def OwnsSlot (r : Routine) (g : Register) : Prop :=
  (r.registerKind g).borrowed = false ∧
    ((r.registerKind g).family = .string ∨ (r.registerKind g).family = .tuple)

variable {r : Routine} {f : Registers}

theorem slot_eq (h : f.slots = r.slots) : r.slot = f.resolve := by
  funext t
  rw [slot,← h,Registers.slots,getD_eq_getElem?_getD,getElem?_map]
  rfl

theorem registerKind_eq (h : f.kinds = r.registerKinds) : r.registerKind = f.kind := by
  funext t
  rw [registerKind,← h,Registers.kinds,getD_eq_getElem?_getD,getElem?_map]
  rfl

theorem ownsSlot_iff (hkinds : f.kinds = r.registerKinds) (hslots : f.slots = r.slots)
    (hwf : f.layout.WellFormed) (t : Register) : r.OwnsSlot (r.slot t) ↔ f.layout.heap t := by
  rw [OwnsSlot,← Kind.ownsHeap_iff,registerKind_eq hkinds,slot_eq hslots,Layout.heap]
  rw [show f.kind (f.resolve t) = f.layout.kind t from hwf.kind_root t]

end Routine

/-- A part of a tree that was read from nowhere. -/
def bare {α : Type} (a : α) : Located α := ⟨a, .nowhere⟩

def refillTable : SignatureTable where
  entries :=
    [⟨"brew", "main", true, true, [], [.owned .string], .nowhere⟩,
      ⟨"pour", "main", true, true, [("cup", .owned .string)],
        [.owned .boolean, .owned .string], .nowhere⟩]

/-- `func refill(again: Boolean, cup: String): String` -/
def refill : Decl where
  span := .nowhere
  name := bare "refill"
  isSync := false
  isNative := false
  params := [⟨bare "again", bare (.owned .boolean)⟩, ⟨bare "cup", bare (.owned .string)⟩]
  returns := [bare (.owned .string)]
  body := none

/-- `if again { return cup } while again { let again, cup = pour(cup) } return brew()` -/
def refillBody : Block where
  span := .nowhere
  stmts :=
    [.branch .nowhere (.name .nowhere "again") ⟨.nowhere, [.ret .nowhere (some (.name .nowhere "cup"))]⟩
      ⟨.nowhere, []⟩,
      .loop .nowhere (.name .nowhere "again")
        ⟨.nowhere, [.bind .nowhere [bare "again", bare "cup"]
          (.call .nowhere (bare "pour") [.value (.name .nowhere "cup")])]⟩,
      .ret .nowhere (some (.call .nowhere (bare "brew") []))]

def refilled : Lowered :=
  match lowerFunction refillTable refill refillBody [] with
  | .ok l => l
  | .error halt => ⟨.native refill.name.node false [] [], [], halt.log⟩

theorem lowerFunction_refill : lowerFunction refillTable refill refillBody [] = .ok refilled := by cbv

/-- The path that leaves the loop out. -/
def refillPath : List Op :=
  [.branch 0 1 2, .branch 0 3 4, .rename 0 2, .rename 1 3, .callSync "brew" [] [4] none, .ret [4] [3]]

theorem refillPath_mem : refillPath ∈ refilled.routine.paths := by decide +kernel

section

variable {table : SignatureTable} {d : Decl} {body : Block} {log : List Event} {l : Lowered}
  {r : Routine} {p : List Op}

theorem unread_of_lowerFunction (h : lowerFunction table d body log = .ok l)
    (hr : r ∈ l.routine :: l.closures) {p : List Op} (hp : p ∈ r.paths) :
    p.Pairwise fun op later => ∀ g ∈ op.frees.map r.slot, g ∉ later.reads.map r.slot := by
  obtain ⟨params,f,-,-,hslots,hpaths⟩ := @traced_of_lowerFunction _ _ _ _ _ False h False.elim r hr
  have hrel := Passage.Steps.released (hpaths p hp) (Draft.valid_start params []).sound
    (Passage.released_of_trace_eq_nil rfl)
  rw [Routine.slot_eq hslots]
  refine hrel.unread.imp fun {op later} hne g hg hread => ?_
  obtain ⟨t,ht,rfl⟩ := mem_map.1 hg
  obtain ⟨u,hu,heq⟩ := mem_map.1 hread
  exact hne t ht u hu heq

/-- Along every path, what is freed is an owned value on the heap that is freed once, and nothing reads
it afterwards or hands it on. -/
theorem freed_once_and_last (h : lowerFunction table d body log = .ok l)
    (hr : r ∈ l.routine :: l.closures) (hp : p ∈ r.paths) :
    (∀ op ∈ p, ∀ g ∈ op.frees.map r.slot, r.OwnsSlot g) ∧
      (p.flatMap fun op => op.frees.map r.slot).Nodup ∧
      (p.Pairwise fun op later => ∀ g ∈ op.frees.map r.slot, g ∉ later.reads.map r.slot) ∧
      ∀ op ∈ p, op.endsActivation = true → ∀ g ∈ op.frees.map r.slot, g ∉ op.needs.map r.slot := by
  obtain ⟨params,f,-,hkinds,hslots,hpaths⟩ := @traced_of_lowerFunction _ _ _ _ _ False h False.elim r hr
  have hstart := Draft.valid_start params []
  have hsound := Steps.sound (hpaths p hp) hstart.sound
  have hrel := Steps.released (hpaths p hp) hstart.sound (released_of_trace_eq_nil rfl)
  have howns := Routine.ownsSlot_iff hkinds hslots hsound.wf
  rw [Routine.slot_eq hslots] at howns ⊢
  refine ⟨?_, ?_, ?_, ?_⟩
  · intro op hop g hg
    obtain ⟨t,ht,rfl⟩ := mem_map.1 hg
    exact (howns t).2 (hrel.gone op hop t ht).1
  · rw [← map_flatMap]
    exact hrel.once
  · rw [← Routine.slot_eq hslots]
    exact unread_of_lowerFunction h hr hp
  · intro op hop hend g hg hneed
    obtain ⟨t,ht,rfl⟩ := mem_map.1 hg
    obtain ⟨u,hu,heq⟩ := mem_map.1 hneed
    exact hrel.kept op hop hend t ht u hu heq

theorem refill_freed_once_and_last :
    (refillPath.flatMap fun op => op.frees.map refilled.routine.slot) = [3] ∧
      (∀ op ∈ refillPath, ∀ g ∈ op.frees.map refilled.routine.slot, refilled.routine.OwnsSlot g) ∧
      (refillPath.flatMap fun op => op.frees.map refilled.routine.slot).Nodup ∧
      (refillPath.Pairwise fun op later =>
        ∀ g ∈ op.frees.map refilled.routine.slot, g ∉ later.reads.map refilled.routine.slot) ∧
      ∀ op ∈ refillPath, op.endsActivation = true →
        ∀ g ∈ op.frees.map refilled.routine.slot, g ∉ op.needs.map refilled.routine.slot :=
  ⟨by decide +kernel, freed_once_and_last lowerFunction_refill mem_cons_self refillPath_mem⟩

/-- Along every path, each owned value on the heap that is a parameter or comes into being is given away,
handed on or freed. -/
theorem consumed_on_path (h : lowerFunction table d body log = .ok l) (hr : r ∈ l.routine :: l.closures)
    (hp : p ∈ r.paths) {g : Register} (hg : r.OwnsSlot g)
    (horigin : g ∈ (List.range r.paramCount).map r.slot ∨ ∃ op ∈ p, g ∈ op.provides.map r.slot) :
    ∃ op ∈ p, g ∈ (op.consumes (l.callees table)).map r.slot := by
  obtain ⟨params,f,hcount,hkinds,hslots,hpaths⟩ :=
    @traced_of_lowerFunction _ _ _ _ _ False h False.elim r hr
  have hstart := Draft.valid_start params []
  have hsound := Steps.sound (hpaths p hp) hstart.sound
  obtain ⟨hentry,hparams⟩ := Draft.entry_start params []
  have hsize : (Draft.start params []).registers.size = r.paramCount := by
    have hlen := congrArg List.length hparams
    rw [← hcount]
    simpa [Registers.kinds,Registers.size] using hlen
  have hcovered : ((Draft.start params []).along [] [] []).Covered (l.callees table) r.paramCount := by
    refine ⟨hsize.symm.le, fun t hheap ht => .inl ⟨t, ⟨hentry.live t ?_, hheap⟩, rfl⟩⟩
    rcases ht with ht | ⟨op,hop,-⟩
    · exact hsize ▸ ht
    · cases hop
  have hcov := Steps.covered (hpaths p hp) hstart.sound hcovered
  have howns := Routine.ownsSlot_iff hkinds hslots hsound.wf
  -- the slot comes from a register of its kind
  obtain ⟨t,rfl,ht⟩ : ∃ t, r.slot t = g ∧ (t < r.paramCount ∨ ∃ op ∈ p, t ∈ op.provides) := by
    rcases horigin with hg | ⟨op,hop,hg⟩
    · obtain ⟨t,ht,rfl⟩ := mem_map.1 hg
      exact ⟨t, rfl, .inl (mem_range.1 ht)⟩
    · obtain ⟨t,ht,rfl⟩ := mem_map.1 hg
      exact ⟨t, rfl, .inr ⟨op, hop, ht⟩⟩
  rcases hcov.covers t ((howns t).1 hg) ht with ⟨u,hu,-⟩ | ⟨u,hu,-⟩ | ⟨op,hop,u,hu,heq⟩
  · exact hu.elim
  · cases hu
  · refine ⟨op, hop, mem_map.2 ⟨u, hu, ?_⟩⟩
    rw [Routine.slot_eq hslots]
    exact heq

theorem refill_consumed_on_path : refilled.routine.OwnsSlot 3 ∧
      ∃ op ∈ refillPath, 3 ∈ (op.consumes (refilled.callees refillTable)).map refilled.routine.slot :=
  have howns : refilled.routine.OwnsSlot 3 := ⟨by decide +kernel, .inl (by decide +kernel)⟩
  ⟨howns, consumed_on_path lowerFunction_refill mem_cons_self refillPath_mem howns
    (.inr (by decide +kernel))⟩

end

end Polled
