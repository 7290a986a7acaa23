import Polled.Proofs.Advance

/-!
Joins of two arms, seen from either of them.

A path on one arm copies its own values where a join needs that, and lets the other arm do the same.
Joined groups are new to it (`Clear`).
-/

namespace Polled

open Function Lower Passage List

variable {r v : Register} {before : Nat} {x : String} {merged : Scope}

/-- A path between two statements, with nothing in its hands. -/
def side (R : Registers) (owned : Register → Prop) (scope : String → Option Register)
    (T : List Op) : Passage where
  layout := R.layout
  owned
  scope
  trace := T
  held := []
  pending := []

/-- What making a register safe to join does, with the flags of its arm. -/
inductive Secured (before : Nat) (R : Registers) (r : Register) (live : List Bool) :
    Registers → Register → List Bool → List Op → Prop where
  | keep (hroot : before ≤ R.resolve r) : Secured before R r live R r live []
  | copy : Secured before R r live (R.alloc (R.kind r)).2 R.size (R.releaseFlags r live)
      [.rename r R.size]

/-- A register is kept only if its group has not been secured yet, and counts as secured from then on. -/
def Claims (R : Registers) (r r' : Register) (secured secured' : List Register) : Prop :=
  r' = r ∧ R.resolve r ∉ secured ∧ secured' = R.resolve r :: secured ∨ r' = R.size ∧ secured ⊆ secured'

theorem secure_eq_ok {arm arm' : Arm} {r' : Register} {d d' : Draft}
    (h : secure arm r before d = .ok ((r', arm'), d')) :
    ∃ R ops live secured, arm' = { arm with live, secured } ∧
      d' = { d with registers := R, ops := d.ops ++ ops.map (GuardedOp.mk arm.condition) } ∧
      Secured before d.registers r arm.live R r' live ops ∧
        Claims d.registers r r' arm.secured secured := by
  simp only [secure,bind_eq_ok,get_eq_ok] at h
  obtain ⟨_,_,⟨heq,rfl⟩,h⟩ := h
  subst heq
  split at h
  · simp only [bind_eq_ok,alloc_eq_ok,pushUnder_eq_ok,get_eq_ok,pure_eq_ok,Prod.mk.injEq] at h
    obtain ⟨_,_,⟨rfl,rfl⟩,_,_,rfl,_,_,⟨rfl,rfl⟩,⟨rfl,rfl⟩,rfl⟩ := h
    refine ⟨_, [.rename r _], _, _, rfl, rfl, ?_, .inr ⟨rfl, subset_cons_self _ _⟩⟩
    simp only [Draft.emit,Draft.reserve,Registers.releaseFlags_alloc]
    exact .copy
  · simp only [pure_eq_ok,Prod.mk.injEq] at h
    obtain ⟨⟨rfl,rfl⟩,rfl⟩ := h
    rename_i hcond
    simp only [Bool.or_eq_true,decide_eq_true_eq,not_or,not_lt,contains_eq_mem] at hcond
    exact ⟨_, [], _, _, rfl, by simp, .keep hcond.1, .inl ⟨rfl, hcond.2, rfl⟩⟩

section

variable {callees : Callees} {strict : Prop} {floor before : Nat} {R R' : Registers}
variable {O : Register → Prop} {σ : String → Option Register} {T : List Op}
variable {r r' : Register} {live live' : List Bool} {ops : List Op}

/-- What is owned when a value has been copied to a new register. -/
def copied (R : Registers) (O : Register → Prop) (r : Register) (v : Register) : Prop :=
  O v ∧ (R.layout.heap r → R.resolve v ≠ R.resolve r) ∨ v = R.size ∧ R.layout.heap r

theorem steps_copy (h : (side R O σ T).Sound) (hx : σ x = some r) :
    Steps callees strict floor (side R O σ T)
      (side (R.alloc (R.kind r)).2 (copied R O r) (update σ x (some R.size))
        (T ++ [.rename r R.size])) := by
  have hlt : ∀ t, t < R.size → R.resolve t ≠ R.resolve R.size := by
    intro t ht
    rw [R.resolve_of_size_le le_rfl]
    exact ((h.wf.root_le t).trans_lt ht).ne
  have hr : r < R.size := h.lt_of_scope hx
  have hkind : (R.layout.reserve (R.kind r)).kind r = R.kind r := update_of_ne hr.ne _ _
  -- the new register first, then the value on top of it
  let s₁ : Passage :=
    { layout := R.layout.reserve (R.kind r)
      owned := fun v => O v ∨ v = R.size ∧ (R.kind r).ownsHeap = true
      scope := σ, trace := T, held := [r, R.size], pending := [] }
  have hfirst : Steps callees strict floor (side R O σ T) s₁ :=
    .tail (.single (.reserve (R.kind r))) (.pick hx)
  by_cases hheap : R.layout.heap r
  · have hk : (R.kind r).ownsHeap = true := hheap
    have hheap' : (R.layout.reserve (R.kind r)).heap r := by
      rw [Layout.heap,hkind]
      exact hk
    let s₂ : Passage := { s₁.giveUp r with held := [R.size], pending := [r] }
    have htake : Step callees strict floor s₁ s₂ := by
      refine .take rfl hheap' fun _ t ht => ?_
      rw [mem_singleton.1 ht]
      exact (hlt r hr).symm
    have hemit : Step callees strict floor s₂
        { s₂ with trace := T ++ [.rename r R.size], pending := [] } := by
      refine .emit rfl rfl rfl ?_ ?_ ?_
      · intro p hp hng
        obtain rfl := mem_singleton.1 hp
        exact absurd ⟨rfl, hheap'⟩ hng
      · show [r] = _
        simp [Op.passes,s₂,s₁,giveUp,hkind,hk]
      · intro v hv
        obtain rfl := mem_singleton.1 hv
        exact ⟨mem_singleton_self _, fun _ => ⟨.inr ⟨rfl, hk⟩, (hlt r hr).symm⟩⟩
    have hname : Step callees strict floor { s₂ with trace := T ++ [.rename r R.size], pending := [] }
        { s₂ with
          trace := T ++ [.rename r R.size]
          pending := []
          scope := update s₂.scope x (some R.size) } := by
      refine .name (mem_singleton_self _) fun _ y t hy => ?_
      exact hlt t (h.lt_of_scope (scope_giveUp.1 hy).1)
    have hscope : update s₂.scope x (some R.size) = update σ x (some R.size) := by
      funext y
      by_cases hy : y = x
      · simp [hy]
      · rw [update_of_ne hy,update_of_ne hy]
        refine Option.ext fun t => scope_giveUp.trans ⟨fun ht => ht.1, fun ht => ⟨ht, fun heq => hy ?_⟩⟩
        exact (h.single x y r t hx ht hheap heq.symm).symm
    have howned : s₂.owned = copied R O r := by
      funext v
      refine propext ⟨?_, ?_⟩
      · rintro ⟨hv | ⟨rfl,-⟩,hne⟩
        · exact .inl ⟨hv, fun _ => hne⟩
        · exact .inr ⟨rfl, hheap⟩
      · rintro (⟨hv,hne⟩ | ⟨rfl,-⟩)
        · exact ⟨.inl hv, hne hheap⟩
        · exact ⟨.inr ⟨rfl, hk⟩, (hlt r hr).symm⟩
    refine (((hfirst.tail htake).tail hemit).tail hname).tail ?_
    rw [hscope,side,R.layout_alloc,← howned]
    exact .drop (by simp)
  · have hk : (R.kind r).ownsHeap = false := Bool.eq_false_iff.2 hheap
    have hemit : Step callees strict floor s₁ { s₁ with trace := T ++ [.rename r R.size] } := by
      refine .emit rfl rfl rfl ?_ ?_ ?_
      · intro p hp _
        obtain rfl := mem_singleton.1 hp
        exact mem_cons_self
      · show [] = _
        simp [Op.passes,s₁,hkind,hk]
      · intro v hv
        obtain rfl := mem_singleton.1 hv
        refine ⟨mem_cons_of_mem _ (mem_singleton_self _), fun hv => ?_⟩
        have hv : ((R.layout.reserve (R.kind r)).kind R.size).ownsHeap = true := hv
        rw [show (R.layout.reserve (R.kind r)).kind R.size = R.kind r from update_self _ _ _] at hv
        exact .inr ⟨rfl, hv⟩
    have hname : Step callees strict floor { s₁ with trace := T ++ [.rename r R.size] }
        { s₁ with
          trace := T ++ [.rename r R.size]
          scope := update σ x (some R.size) } := by
      refine .name (mem_cons_of_mem _ (mem_singleton_self _)) fun _ y t hy => ?_
      exact hlt t (h.lt_of_scope hy)
    have howned : s₁.owned = copied R O r := by
      funext v
      simp [s₁,copied,hk,hheap]
    refine ((hfirst.tail hemit).tail hname).tail ?_
    rw [side,R.layout_alloc,← howned]
    exact .drop (by simp)

theorem touches_update (hv : (side R O (update σ x (some r)) T).Touches v) :
    (side R O σ T).Touches v ∨ v = r := by
  rcases hv with (hv | ⟨y,hy⟩ | hv) | hv
  · exact .inl (.inl (.inl hv))
  · by_cases hyx : y = x
    · subst hyx
      exact .inr (by simpa [side,eq_comm] using hy)
    · exact .inl (.inl (.inr (.inl ⟨y, by simpa [side,hyx] using hy⟩)))
  · exact .inl (.inl (.inr (.inr hv)))
  · exact .inl (.inr hv)

theorem touches_copy (hx : σ x = some r)
    (hv : (side (R.alloc (R.kind r)).2 (copied R O r) (update σ x (some R.size))
      (T ++ [.rename r R.size])).Touches v) :
    (side R O σ T).Touches v ∨ v = R.size := by
  rcases touches_update hv with ((ho | hv) | ⟨op,hop,hv⟩) | rfl
  · rcases ho with ⟨ho,-⟩ | ⟨rfl,-⟩
    · exact .inl (.inl (.inl ho))
    · exact .inr rfl
  · exact .inl (.inl (.inr hv))
  · rcases mem_append.1 hop with hop | hop
    · exact .inl (.inr ⟨op, hop, hv⟩)
    · obtain rfl := mem_singleton.1 hop
      simp only [Op.mentions,Op.reads,Op.needs,Op.provides,Op.frees,mem_append,mem_singleton,not_mem_nil,
        or_false] at hv
      rcases hv with rfl | rfl
      · exact .inl (.inl (.inr (.inl ⟨x, hx⟩)))
      · exact .inr rfl
  · exact .inr rfl

section

variable (h : Secured before R r live R' r' live' ops)

include h

theorem Secured.resolve_eq : R'.resolve = R.resolve := by
  cases h with
  | keep _ => rfl
  | copy => exact funext (R.resolve_alloc _)

theorem Secured.size_le : R.size ≤ R'.size := by
  cases h with
  | keep _ => exact le_rfl
  | copy => exact Nat.le_of_lt (by rw [Registers.size_alloc]; exact Nat.lt_succ_self _)

theorem Secured.kind_old (hv : v < R.size) : R'.kind v = R.kind v := by
  cases h with
  | keep _ => rfl
  | copy => rw [Registers.kind_alloc,if_neg hv.ne]

theorem Secured.kind_eq : R'.kind r' = R.kind r := by
  cases h with
  | keep _ => rfl
  | copy => rw [Registers.kind_alloc,if_pos rfl]

theorem Secured.lt_size (hr : r < R.size) : r' < R'.size := by
  cases h with
  | keep _ => exact hr
  | copy =>
    rw [Registers.size_alloc]
    exact Nat.lt_succ_self _

theorem Secured.cases_eq : r' = r ∧ before ≤ R.resolve r ∨ r' = R.size ∧ R'.size = R.size + 1 := by
  cases h with
  | keep hroot => exact .inl ⟨rfl, hroot⟩
  | copy => exact .inr ⟨rfl, Registers.size_alloc _ _⟩

theorem Secured.wellFormed (hwf : R.layout.WellFormed) : R'.layout.WellFormed := by
  cases h with
  | keep _ => exact hwf
  | copy =>
    rw [R.layout_alloc]
    exact hwf.reserve _

theorem Secured.grows (hwf : R.layout.WellFormed) : R.layout.Grows R'.layout := by
  cases h with
  | keep _ => exact .refl hwf
  | copy =>
    rw [R.layout_alloc]
    exact .reserve hwf _

theorem Secured.isLive_of (hv : v < R'.size) (hold : v < R.size → R.isLive v = true) :
    R'.isLive v = true := by
  cases h with
  | keep _ => exact hold hv
  | copy =>
    rw [Registers.size_alloc] at hv
    rw [Registers.isLive_alloc]
    split
    · rfl
    · rename_i hne
      exact hold (Nat.lt_of_le_of_ne (Nat.le_of_lt_succ hv) hne)

end

/-- Owned values on an arm agree with its flags, as far as those reach. -/
def Flagged (fin : Nat) (R : Registers) (O : Register → Prop) (live : List Bool) : Prop :=
  ∀ v, v < fin → (O v ↔ live.getD v false = true ∧ R.layout.heap v)

theorem Secured.active {x : String} {fin : Nat} (h : Secured before R r live R' r' live' ops)
    (hx : σ x = some r) (hfin : fin ≤ R.size) (hwf : R.layout.WellFormed)
    (hflags : Flagged fin R O live) :
    ∃ O', Flagged fin R' O' live' ∧ ∀ T, (side R O σ T).Sound →
      Steps callees strict floor (side R O σ T) (side R' O' (update σ x (some r')) (T ++ ops)) ∧
      ∀ v, (side R' O' (update σ x (some r')) (T ++ ops)).Touches v →
        (side R O σ T).Touches v ∨ v = r' ∧ R.size ≤ v := by
  cases h with
  | keep _ =>
    refine ⟨O, hflags, fun T _ => ?_⟩
    rw [update_eq_self_iff.2 hx.symm,append_nil]
    exact ⟨.refl, fun v hv => .inl hv⟩
  | copy =>
    refine ⟨copied R O r, ?_, fun T hsound => ⟨steps_copy hsound hx, fun v hv => ?_⟩⟩
    · intro v hv
      have hvs : v < R.size := hv.trans_le hfin
      have hheap : (R.alloc (R.kind r)).2.layout.heap v ↔ R.layout.heap v := by
        simp only [Layout.heap,Registers.layout,Registers.kind_alloc,if_neg hvs.ne]
      rw [hheap,R.getD_releaseFlags]
      constructor
      · rintro (⟨ho,hne⟩ | ⟨rfl,-⟩)
        · obtain ⟨hlive,hv⟩ := (hflags v hv).1 ho
          refine ⟨⟨hlive, fun heq => hne ?_ heq⟩, hv⟩
          rw [Layout.heap,← hwf.kind_eq heq]
          exact hv
        · exact absurd hvs (lt_irrefl _)
      · rintro ⟨⟨hlive,hne⟩,hheap⟩
        exact .inl ⟨(hflags v hv).2 ⟨hlive, hheap⟩, fun _ => hne⟩
    · rcases touches_copy hx hv with hv | rfl
      · exact .inl hv
      · exact .inr ⟨rfl, le_rfl⟩

theorem Secured.passive (h : Secured before R r live R' r' live' ops) (hwf : R.layout.WellFormed) :
    Steps callees strict floor (side R O σ T) (side R' O σ T) :=
  .single (@Step.elsewhere callees strict floor (side R O σ T) _ (h.grows hwf) (h.wellFormed hwf))

theorem step_join {a b : Register} (ha : a < R.size) (hb : b < R.size)
    (hkind : R.kind a = R.kind b) (haf : floor ≤ R.resolve a) (hbf : floor ≤ R.resolve b)
    (hnew : R.layout.heap b → ∀ v, (side R O σ T).Touches v → R.resolve v ≠ R.resolve b)
    (hlayout : R'.layout = R.layout.merge a b) :
    Step callees strict floor (side R O σ T) (side R' O σ T) := by
  have hend : side R' O σ T = { side R O σ T with layout := R.layout.merge a b } := by
    rw [side,hlayout]
    rfl
  rw [hend]
  exact .merge ha hb haf hbf hkind hnew

theorem step_renamed {x : String} {a b : Register} (hx : σ x = some a) (hb : b < R.size)
    (hroot : R.resolve b = R.resolve a) (hsound : (side R O σ T).Sound) :
    Step callees strict floor (side R O σ T) (side R O (update σ x (some b)) T) := by
  refine .rescope fun y t hy => ?_
  by_cases hyx : y = x
  · subst hyx
    obtain rfl : b = t := by simpa using hy
    exact ⟨hb, a, hx, hroot⟩
  · rw [update_of_ne hyx] at hy
    exact ⟨hsound.lt_of_scope hy, t, hy, rfl⟩

end

/-- What the names of an arm stand for while some of them are joined. -/
def armScope (scope merged : Scope) (todo : List String) (x : String) : Option Register :=
  if x ∈ todo then scope.get? x else merged.get? x

theorem armScope_bind {scope : Scope} {todo : List String} (hx : x ∉ todo) (r : Register) :
    armScope scope (merged.bind x r) todo =
      update (armScope scope merged (x :: todo)) x (some r) := by
  funext y
  by_cases hyx : y = x
  · subst hyx
    simp [armScope,hx,Scope.get?_bind]
  · simp [armScope,hyx,Scope.get?_bind]

theorem armScope_head (scope : Scope) {todo : List String} :
    armScope scope merged (x :: todo) x = scope.get? x :=
  if_pos mem_cons_self

theorem get?_bind_of_eq_some {y : String} {m : Register} (hm : merged.get? y = some m)
    (hx : merged.get? x = none) (r : Register) : (merged.bind x r).get? y = some m := by
  rw [Scope.get?_bind,if_neg]
  · exact hm
  · rintro rfl
    rw [hx] at hm
    cases hm

/-- On the heap, a value is one from before, or joined under a name, or none of the registers from `lo`
to `hi`. -/
def Clear (before lo hi : Nat) (R : Registers) (merged : Scope) (r : Register) : Prop :=
  R.layout.heap r → R.resolve r < before ∨
    (∃ y m, merged.get? y = some m ∧ R.resolve m = R.resolve r) ∨
    ∀ b, lo ≤ b → b < hi → R.resolve b ≠ R.resolve r

/-- A register that the other arm has secured: one of its own that no joined name stands for, or a new
one. -/
def Foreign (before lo hi : Nat) (R : Registers) (merged : Scope) (r : Register) : Prop :=
  before ≤ R.resolve r ∧ (R.size ≤ r ∨ r < R.size ∧ lo ≤ r ∧ r < hi ∧
    (R.layout.heap r → ∀ y m, merged.get? y = some m → R.resolve m ≠ R.resolve r))

theorem Clear.resolve_ne {lo hi : Nat} {R : Registers} (hv : Clear before lo hi R merged v)
    (hwf : R.layout.WellFormed) (hlt : v < R.size) (hr : Foreign before lo hi R merged r)
    (hheap : r < R.size → R.layout.heap r) :
    R.resolve v ≠ R.resolve r := by
  intro heq
  obtain ⟨hroot,hnew | ⟨hrlt,hlo,hhi,hnamed⟩⟩ := hr
  · rw [R.resolve_of_size_le hnew] at heq
    have hle : R.resolve v ≤ v := hwf.root_le v
    rw [heq] at hle
    exact absurd (hle.trans_lt hlt) (not_lt.2 hnew)
  · have hvheap : R.layout.heap v := by
      rw [Layout.heap,hwf.kind_eq heq]
      exact hheap hrlt
    rcases hv hvheap with hv | ⟨y,m,hm,hmv⟩ | hv
    · rw [heq] at hv
      exact absurd hv (not_lt.2 hroot)
    · exact hnamed (hheap hrlt) y m hm (hmv.trans heq)
    · exact hv r hlo hhi heq.symm

/-- The registers behind one join. -/
structure Joint (before : Nat) (R R₂ R₃ : Registers) (a b joined : Register) : Prop where
  wf : R.layout.WellFormed
  wf₂ : R₂.layout.WellFormed
  size_le : R.size ≤ R₂.size
  before_le : before ≤ R.size
  resolve_eq : R₂.resolve = R.resolve
  kind_old : ∀ v, v < R.size → R₂.kind v = R.kind v
  lt_size : a < R₂.size ∧ b < R₂.size
  kind_eq : R₂.kind a = R₂.kind b
  above : before ≤ R.resolve a ∧ before ≤ R.resolve b
  apart : R.size ≤ a → R.size ≤ b → a ≠ b
  fresh : ∀ v, R.size ≤ v → v < R₂.size → v = a ∨ v = b
  layout_eq : R₃.layout = R₂.layout.merge a b
  joined_eq : joined = min (R.resolve a) (R.resolve b)

namespace Joint

variable {before lo hi : Nat} {R R₂ R₃ : Registers} {a b joined v : Register}

section

variable (h : Joint before R R₂ R₃ a b joined)

include h

theorem symm : Joint before R R₂ R₃ b a joined :=
  { h with
    lt_size := h.lt_size.symm
    kind_eq := h.kind_eq.symm
    above := h.above.symm
    apart := fun hb ha => (h.apart ha hb).symm
    fresh := fun v hv hlt => (h.fresh v hv hlt).symm
    layout_eq := by rw [h.layout_eq,Layout.merge_comm]
    joined_eq := by rw [h.joined_eq,Nat.min_comm] }

theorem resolve₃ (v : Register) :
    R₃.resolve v = if R.resolve v = max (R.resolve a) (R.resolve b) then joined else R.resolve v := by
  have hroot : R₃.layout.root v = _ := congrArg (fun l => l.root v) h.layout_eq
  have hroot : R₃.resolve v = (R₂.layout.merge a b).root v := hroot
  rw [hroot,Layout.merge_root,h.joined_eq]
  show (if R₂.resolve v = max (R₂.resolve a) (R₂.resolve b) then min (R₂.resolve a) (R₂.resolve b)
    else R₂.resolve v) = _
  rw [h.resolve_eq]

theorem kind₃ (v : Register) : R₃.kind v = R₂.kind v := congrArg (fun l => l.kind v) h.layout_eq

theorem size₃ : R₃.size = R₂.size := congrArg (fun l => l.size) h.layout_eq

theorem joined_eq_or : joined = R.resolve a ∨ joined = R.resolve b := by
  rw [h.joined_eq]
  rcases Nat.le_total (R.resolve a) (R.resolve b) with hle | hle
  · exact .inl (Nat.min_eq_left hle)
  · exact .inr (Nat.min_eq_right hle)

theorem resolve₃_eq_iff (v : Register) :
    R₃.resolve v = R₃.resolve joined ↔ R.resolve v = R.resolve a ∨ R.resolve v = R.resolve b := by
  have ha := h.wf.root_root a
  have hb := h.wf.root_root b
  have ha : R.resolve (R.resolve a) = R.resolve a := ha
  have hb : R.resolve (R.resolve b) = R.resolve b := hb
  rw [h.resolve₃ v,h.resolve₃ joined,h.joined_eq]
  grind

theorem resolve₃_congr_iff (v w : Register) :
    R₃.resolve v = R₃.resolve w ↔ R.resolve v = R.resolve w ∨ R.resolve v = R.resolve a ∧
      R.resolve w = R.resolve b ∨ R.resolve v = R.resolve b ∧ R.resolve w = R.resolve a := by
  rw [h.resolve₃ v,h.resolve₃ w,h.joined_eq]
  grind

theorem heap₃ (hv : v < R.size) : R₃.layout.heap v ↔ R.layout.heap v := by
  simp only [Layout.heap,Registers.layout,h.kind₃,h.kind_old v hv]

theorem clear (hx : merged.get? x = none) (hv : v < R.size ∧ Clear before lo hi R merged v ∨ v = a) :
    Clear before lo hi R₃ (merged.bind x joined) v := by
  intro hheap
  by_cases hin : R.resolve v = R.resolve a ∨ R.resolve v = R.resolve b
  · refine .inr (.inl ⟨x, joined, ?_, ((h.resolve₃_eq_iff v).2 hin).symm⟩)
    rw [Scope.get?_bind,if_pos rfl]
  · rcases hv with ⟨hlt,hv⟩ | rfl
    · have hself : R₃.resolve v = R.resolve v := by
        rw [h.resolve₃,if_neg]
        grind
      rcases hv ((h.heap₃ hlt).1 hheap) with hv | ⟨y,m,hm,hmv⟩ | hv
      · exact .inl (by rwa [hself])
      · exact .inr (.inl ⟨y, m, get?_bind_of_eq_some hm hx _, by rw [h.resolve₃ m,h.resolve₃ v,hmv]⟩)
      · refine .inr (.inr fun c hlo hhi heq => hv c hlo hhi ?_)
        have hjoined := h.joined_eq_or
        rw [hself,h.resolve₃ c] at heq
        grind
    · exact absurd (.inl rfl) hin

theorem step {callees : Callees} {strict : Prop} {merged : Scope} {O : Register → Prop}
    {σ : String → Option Register} {T : List Op} (hb : Foreign before lo hi R merged b)
    (htouch : ∀ v, (side R₂ O σ T).Touches v → v < R.size ∧ Clear before lo hi R merged v ∨
      v = a ∧ R.size ≤ v) :
    Step callees strict before (side R₂ O σ T) (side R₃ O σ T) := by
  refine step_join h.lt_size.1 h.lt_size.2 h.kind_eq ?_ ?_ ?_ h.layout_eq
  · rw [h.resolve_eq]
    exact h.above.1
  · rw [h.resolve_eq]
    exact h.above.2
  · intro hheap v hv
    rw [h.resolve_eq]
    rcases htouch v hv with ⟨hlt,hclear⟩ | ⟨rfl,hnew⟩
    · refine hclear.resolve_ne h.wf hlt hb fun hblt => ?_
      rw [Layout.heap,show R.layout.kind b = R₂.layout.kind b from (h.kind_old b hblt).symm]
      exact hheap
    · rw [R.resolve_of_size_le hnew]
      rcases lt_or_ge b R.size with hlt | hge
      · have hle : R.resolve b ≤ b := h.wf.root_le b
        exact (hle.trans_lt (hlt.trans_le hnew)).ne'
      · rw [R.resolve_of_size_le hge]
        exact h.apart hnew hge

theorem wf₃ : R₃.layout.WellFormed := by
  rw [h.layout_eq]
  exact h.wf₂.merge h.lt_size.1 h.lt_size.2 h.kind_eq

theorem lt_size₃ : joined < R₃.size := by
  rw [h.size₃]
  rcases h.joined_eq_or with heq | heq
  · rw [heq,← h.resolve_eq]
    exact h.wf₂.root_lt h.lt_size.1
  · rw [heq,← h.resolve_eq]
    exact h.wf₂.root_lt h.lt_size.2

theorem before_le_joined : before ≤ joined := by
  rw [h.joined_eq]
  exact Nat.le_min.2 h.above

theorem resolve₃_of_lt (hv : R.resolve v < before) : R₃.resolve v = R.resolve v := by
  rw [h.resolve₃,if_neg]
  intro heq
  have hmax : before ≤ max (R.resolve a) (R.resolve b) := h.above.1.trans (Nat.le_max_left _ _)
  rw [← heq] at hmax
  exact absurd hv (not_lt.2 hmax)

theorem grows {start : Registers} (hgrows : start.layout.Grows R.layout) (hwf : start.layout.WellFormed)
    (hstart : start.size = before) : start.layout.Grows R₃.layout where
  size_le := by
    have hsize : R₃.layout.size = R₂.size := h.size₃
    rw [hsize]
    exact hgrows.size_le.trans h.size_le
  root_old r hr := by
    have hroot := hgrows.root_old r hr
    refine (h.resolve₃_of_lt ?_).trans hroot
    have hlt := hwf.root_lt hr
    rw [← hroot] at hlt
    exact hstart ▸ hlt
  kind_old r hr :=
    (h.kind₃ r).trans ((h.kind_old r (hr.trans_le hgrows.size_le)).trans (hgrows.kind_old r hr))
  root_fresh r hr := by
    show start.size ≤ R₃.resolve r
    rw [h.resolve₃ r]
    split
    · rw [hstart]
      exact h.before_le_joined
    · exact hgrows.root_fresh r hr

end

end Joint

end Polled
