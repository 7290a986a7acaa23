import Mathlib.Data.List.Pairwise
import Mathlib.Data.String.Basic
import Polled.Activation.Scope

/-!
What the operations on registers and scopes do, seen through `resolve`, `kind`, `isLive` and `get?`.

Proofs about lowering use these equations and do not look into the lists of cells and bindings again.
-/

namespace Polled

open List

variable {r : Register}

section Ordered

variable {α : Type} [LT α] [DecidableEq α] [DecidableLT α]
variable [IsTrans α (fun a b : α => a < b)] [Std.Trichotomous (fun a b : α => a < b)]

theorem pairwise_insertOrdered (a : α) (bs : List α) (h : bs.Pairwise (· < ·)) :
    (insertOrdered a bs).Pairwise (· < ·) := by
  induction bs with
  | nil => simp [insertOrdered]
  | cons b bs ih =>
    obtain ⟨hb,hbs⟩ := pairwise_cons.1 h
    unfold insertOrdered
    split
    · exact h
    split
    · rename_i hab
      refine pairwise_cons.2 ⟨?_, h⟩
      intro c hc
      rcases mem_cons.1 hc with rfl | hc
      · exact hab
      · exact IsTrans.trans _ _ _ hab (hb c hc)
    · rename_i hne hlt
      refine pairwise_cons.2 ⟨?_, ih hbs⟩
      intro c hc
      rcases (mem_insertOrdered a c bs).1 hc with rfl | hc
      · by_contra hbc
        exact hne (Std.Trichotomous.trichotomous c b hlt hbc)
      · exact hb c hc

theorem pairwise_orderedSet (as : List α) : (orderedSet as).Pairwise (· < ·) := by
  induction as with
  | nil => simp [orderedSet]
  | cons a as ih => exact pairwise_insertOrdered a (orderedSet as) ih

theorem nodup_orderedSet [Std.Irrefl (fun a b : α => a < b)] (as : List α) : (orderedSet as).Nodup := by
  refine (pairwise_orderedSet as).imp ?_
  rintro a _ h rfl
  exact Std.Irrefl.irrefl a h

end Ordered

namespace Registers

variable (f : Registers)

theorem resolve_of_size_le (h : f.size ≤ r) : f.resolve r = r := by
  have hn : f.cells[r]? = none := getElem?_eq_none h
  simp [resolve,hn]

theorem isLive_of_size_le (h : f.size ≤ r) : f.isLive r = false := by
  have hn : f.cells[r]? = none := getElem?_eq_none h
  simp [isLive,hn]

theorem lt_size_of_isLive (h : f.isLive r = true) : r < f.size := by
  by_contra hr
  rw [f.isLive_of_size_le (Nat.le_of_not_lt hr)] at h
  contradiction

theorem exists_cell (h : r < f.size) : ∃ c, f.cells[r]? = some c := ⟨_, getElem?_eq_getElem h⟩

theorem getElem?_alloc (k : Kind) (r : Register) :
    (f.alloc k).2.cells[r]? = if r = f.size then some ⟨k, f.size, true⟩ else f.cells[r]? := by
  simp only [alloc,size,getElem?_append]
  split
  · rename_i h
    simp [h.ne]
  · rename_i h
    by_cases hr : r = f.cells.length
    · simp [hr]
    · have h1 : f.cells.length < r := Nat.lt_of_le_of_ne (Nat.le_of_not_lt h) (Ne.symm hr)
      have h2 : r - f.cells.length ≠ 0 := Nat.sub_ne_zero_of_lt h1
      simp [hr,h2,getElem?_eq_none h1.le]

@[simp] theorem resolve_alloc (k : Kind) (r : Register) : (f.alloc k).2.resolve r = f.resolve r := by
  by_cases h : r = f.size
  · subst h
    rw [resolve_of_size_le f le_rfl,resolve,getElem?_alloc]
    simp
  · simp [resolve,getElem?_alloc,h]

theorem kind_alloc (k : Kind) (r : Register) :
    (f.alloc k).2.kind r = if r = f.size then k else f.kind r := by
  by_cases h : r = f.size <;> simp [kind,getElem?_alloc,h]

theorem isLive_alloc (k : Kind) (r : Register) :
    (f.alloc k).2.isLive r = if r = f.size then true else f.isLive r := by
  by_cases h : r = f.size <;> simp [isLive,getElem?_alloc,h]

theorem getElem?_release (s r : Register) : (f.release s).cells[r]? =
      f.cells[r]?.map fun c => if c.root = f.resolve s then { c with live := false } else c := by
  simp [release]

@[simp] theorem resolve_release (s r : Register) : (f.release s).resolve r = f.resolve r := by
  unfold resolve
  rw [getElem?_release]
  cases f.cells[r]? with
  | none => rfl
  | some c =>
    simp only [Option.map_some,Option.getD_some]
    split <;> rfl

@[simp] theorem kind_release (s r : Register) : (f.release s).kind r = f.kind r := by
  simp only [kind,getElem?_release]
  cases f.cells[r]? with
  | none => rfl
  | some c => simp only [Option.map_some]; split <;> rfl

theorem isLive_release (s r : Register) :
    (f.release s).isLive r = true ↔ f.isLive r = true ∧ f.resolve r ≠ f.resolve s := by
  have hroot : ∀ c, f.cells[r]? = some c → f.resolve r = c.root := by
    intro c h
    simp [resolve,h]
  simp only [isLive,getElem?_release]
  cases h : f.cells[r]? with
  | none => simp
  | some c =>
    rw [hroot c h]
    simp only [Option.map_some,Option.getD_some]
    split <;> simp_all

theorem getElem?_withLive (flags : List Bool) (r : Register) : (f.withLive flags).cells[r]? =
      f.cells[r]?.map fun c => { c with live := flags.getD r false } := by
  simp [withLive,getElem?_mapIdx]

@[simp] theorem resolve_withLive (flags : List Bool) (r : Register) :
    (f.withLive flags).resolve r = f.resolve r := by
  simp [resolve,getElem?_withLive,Option.map_map,Function.comp_def]

@[simp] theorem kind_withLive (flags : List Bool) (r : Register) :
    (f.withLive flags).kind r = f.kind r := by
  simp [kind,getElem?_withLive,Option.map_map,Function.comp_def]

theorem isLive_withLive (flags : List Bool) (r : Register) :
    (f.withLive flags).isLive r = true ↔ r < f.size ∧ flags.getD r false = true := by
  simp only [isLive,getElem?_withLive]
  by_cases h : r < f.size
  · obtain ⟨c,hc⟩ := f.exists_cell h
    simp [hc,h]
  · have hn : f.cells[r]? = none := getElem?_eq_none (Nat.le_of_not_lt h)
    simp [hn,h]

theorem getD_liveness (r : Register) : f.liveness.getD r false = f.isLive r := by
  simp [liveness,isLive,getD_eq_getElem?_getD]

@[simp] theorem length_liveness : f.liveness.length = f.size := by
  simp [liveness,size]

theorem getElem?_join (a b r : Register) : (f.join a b).2.cells[r]? = f.cells[r]?.map fun c =>
      if c.root = max (f.resolve a) (f.resolve b) then
        { c with root := min (f.resolve a) (f.resolve b) } else c := by
  simp [join]

theorem resolve_join (a b r : Register) (h : r < f.size) : (f.join a b).2.resolve r =
      if f.resolve r = max (f.resolve a) (f.resolve b) then min (f.resolve a) (f.resolve b)
      else f.resolve r := by
  obtain ⟨c,hc⟩ := f.exists_cell h
  simp only [resolve,getElem?_join,hc,Option.map_some,Option.getD_some]
  split <;> simp_all

@[simp] theorem kind_join (a b r : Register) : (f.join a b).2.kind r = f.kind r := by
  simp only [kind,getElem?_join]
  cases f.cells[r]? with
  | none => rfl
  | some c => simp only [Option.map_some]; split <;> rfl

@[simp] theorem isLive_join (a b r : Register) : (f.join a b).2.isLive r = f.isLive r := by
  simp only [isLive,getElem?_join]
  cases f.cells[r]? with
  | none => rfl
  | some c => simp only [Option.map_some]; split <;> rfl

theorem getD_releaseFlags (s : Register) (flags : List Bool) (r : Register) :
    (f.releaseFlags s flags).getD r false = true ↔
      flags.getD r false = true ∧ f.resolve r ≠ f.resolve s := by
  simp only [releaseFlags,getD_eq_getElem?_getD,getElem?_mapIdx,isJoined]
  cases flags[r]? with
  | none => simp
  | some b => simp

@[simp] theorem length_releaseFlags (s : Register) (flags : List Bool) :
    (f.releaseFlags s flags).length = flags.length := by
  simp [releaseFlags]

@[simp] theorem releaseFlags_alloc (k : Kind) (r : Register) (flags : List Bool) :
    (f.alloc k).2.releaseFlags r flags = f.releaseFlags r flags := by
  simp [releaseFlags,isJoined]

theorem mem_unreachable (keep : List Register) (g : Register) : g ∈ f.unreachable keep ↔
      (∃ r, f.isLive r = true ∧ (f.kind r).ownsHeap = true ∧ f.resolve r = g) ∧ g ∉ keep := by
  simp only [unreachable,mem_orderedSet,mem_filter,mem_map,Bool.not_eq_true',
    contains_eq_mem,decide_eq_false_iff_not,Bool.and_eq_true]
  constructor
  · rintro ⟨⟨c,⟨hc,hl,hk⟩,hg⟩,hkeep⟩
    obtain ⟨r,hr⟩ := getElem?_of_mem hc
    exact ⟨⟨r, by simp [isLive,hr,hl], by simp [kind,hr,hk], by simp [resolve,hr,hg]⟩, hkeep⟩
  · rintro ⟨⟨r,hl,hk,hg⟩,hkeep⟩
    obtain ⟨c,hc⟩ := f.exists_cell (f.lt_size_of_isLive hl)
    simp only [isLive,kind,resolve,hc,Option.map_some,Option.getD_some] at hl hk hg
    exact ⟨⟨c, ⟨mem_of_getElem? hc, hl, hk⟩, hg⟩, hkeep⟩

theorem nodup_unreachable (keep : List Register) : (f.unreachable keep).Nodup := nodup_orderedSet _

end Registers

namespace Scope

/-- Names stand in their order, so each of them stands once. -/
def Sorted (s : Scope) : Prop := s.names.Pairwise (· < ·)

theorem sorted_empty : empty.Sorted := List.Pairwise.nil

theorem map_fst_insertBinding (x : String) (r : Register) (bs : List (String × Register)) :
    (insertBinding x r bs).map (·.1) = insertOrdered x (bs.map (·.1)) := by
  induction bs with
  | nil => rfl
  | cons b bs ih =>
    obtain ⟨y,s⟩ := b
    simp only [insertBinding,insertOrdered,map_cons]
    split
    · subst_vars; rfl
    split
    · rfl
    · rw [map_cons,ih]

section

variable {s : Scope} (h : s.Sorted)

include h

theorem Sorted.bind (x : String) (r : Register) : (s.bind x r).Sorted := by
  unfold Sorted names Scope.bind
  rw [map_fst_insertBinding]
  exact pairwise_insertOrdered x _ h

theorem Sorted.forget (f : Registers) (r : Register) : (s.forget f r).Sorted :=
  List.Pairwise.sublist (filter_sublist.map _) h

omit h in
theorem lookup_eq_some_iff {x : String} {r : Register} :
    {bs : List (String × Register)} → (bs.map (·.1)).Pairwise (· < ·) →
      (bs.lookup x = some r ↔ (x, r) ∈ bs)
  | [], _ => by simp
  | (y, s) :: bs, h => by
    obtain ⟨hy,hbs⟩ := pairwise_cons.1 h
    have ih := lookup_eq_some_iff (x := x) (r := r) hbs
    by_cases hx : x = y
    · subst hx
      have hnot : (x, r) ∉ bs := fun hm =>
        String.lt_irrefl x (hy x (mem_map.2 ⟨(x, r), hm, rfl⟩))
      simp [hnot,eq_comm]
    · have hb : (x == y) = false := by simp [hx]
      simp [lookup_cons,hb,ih,hx]

theorem Sorted.get?_eq_some_iff (x : String) (r : Register) : s.get? x = some r ↔ (x, r) ∈ s.bindings :=
  lookup_eq_some_iff h

theorem Sorted.get?_forget (f : Registers) (r : Register) (x : String) (t : Register) :
    (s.forget f r).get? x = some t ↔ s.get? x = some t ∧ f.resolve t ≠ f.resolve r := by
  rw [(h.forget f r).get?_eq_some_iff,h.get?_eq_some_iff]
  simp [Scope.forget,Registers.isJoined]

theorem Sorted.mem_reachable (f : Registers) (g : Register) :
    g ∈ s.reachable f ↔ ∃ x r, s.get? x = some r ∧ f.resolve r = g := by
  simp only [reachable,mem_orderedSet,mem_map,registers]
  constructor
  · rintro ⟨r,⟨⟨x,r'⟩,hb,rfl⟩,hg⟩
    exact ⟨x, r', (h.get?_eq_some_iff x r').2 hb, hg⟩
  · rintro ⟨x,r,hx,hg⟩
    exact ⟨r, ⟨(x, r), (h.get?_eq_some_iff x r).1 hx, rfl⟩, hg⟩

theorem Sorted.mem_names (x : String) : x ∈ s.names ↔ ∃ r, s.get? x = some r := by
  simp only [names,mem_map]
  constructor
  · rintro ⟨⟨y,r⟩,hb,rfl⟩
    exact ⟨r, (h.get?_eq_some_iff y r).2 hb⟩
  · rintro ⟨r,hx⟩
    exact ⟨(x, r), (h.get?_eq_some_iff x r).1 hx, rfl⟩

end

@[simp] theorem get?_empty (x : String) : empty.get? x = none := rfl

end Scope

end Polled
