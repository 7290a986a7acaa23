import Polled.Proofs.Joins

/-!
The names of two arms, joined one after the other.

`Seam` is what holds between two joins, `Crossing` what they do to the paths of either arm.
-/

namespace Polled

open Lower Passage List

variable {T T₂ ops : List Op} {v t u joined r r' : Register} {arms arms' : Arm × Arm} {d d' : Draft}
  {R R' : Registers}
variable {live live' : List Bool}

/-- One arm while names are joined, with what a path on it has. -/
structure Bank where
  registers : Registers
  merged : Scope
  owned : Register → Prop
  scope : String → Option Register

namespace Bank

def passage (s : Bank) (T : List Op) : Passage := side s.registers s.owned s.scope T

def close (s : Bank) : Bank := { s with owned := fun _ => False, scope := fun _ => none }

/-- The path is in order and has met nothing of the other arm. -/
structure Clean (before lo hi : Nat) (s : Bank) (T : List Op) : Prop where
  sound : (s.passage T).Sound
  clear : ∀ v, (s.passage T).Touches v → Clear before lo hi s.registers s.merged v

/-- How the paths of an arm get over a part of the join. -/
def Crosses (callees : Callees) (strict : Prop) (before lo hi : Nat) (s s' : Bank)
    (ops : List Op) : Prop :=
  ∀ T, s.Clean before lo hi T →
    Steps callees strict before (s.passage T) (s'.passage (T ++ ops)) ∧ s'.Clean before lo hi (T ++ ops)

variable {callees : Callees} {strict : Prop} {before lo hi : Nat} {s s' s'' : Bank} {ops' : List Op}

theorem Clean.shorten (h : s.Clean before lo hi T) : s.Clean before lo hi [] := by
  have htouch : ∀ v, (s.passage []).Touches v → (s.passage T).Touches v := by
    rintro v (hv | ⟨_,hop,-⟩)
    · exact .inl hv
    · cases hop
  exact ⟨⟨h.sound.wf, fun r hr => h.sound.bound r (htouch r hr), h.sound.heap, h.sound.single⟩,
    fun v hv => h.clear v (htouch v hv)⟩

theorem crosses_refl : Crosses callees strict before lo hi s s [] := by
  intro T h
  rw [append_nil]
  exact ⟨.refl, h⟩

theorem Crosses.trans (h : Crosses callees strict before lo hi s s' ops)
    (h' : Crosses callees strict before lo hi s' s'' ops') :
    Crosses callees strict before lo hi s s'' (ops ++ ops') := by
  intro T hT
  obtain ⟨hsteps,hT⟩ := h T hT
  obtain ⟨hsteps',hT⟩ := h' (T ++ ops) hT
  rw [← append_assoc]
  exact ⟨hsteps.trans hsteps', hT⟩

theorem crosses_of_clear (h : ∀ T, s.Clean before lo hi T →
      Steps callees strict before (s.passage T) (s'.passage (T ++ ops)) ∧
        ∀ v, (s'.passage (T ++ ops)).Touches v → Clear before lo hi s'.registers s'.merged v) :
    Crosses callees strict before lo hi s s' ops := by
  intro T hT
  obtain ⟨hsteps,hclear⟩ := h T hT
  exact ⟨hsteps, Steps.sound hsteps hT.sound, hclear⟩

end Bank

section

variable {before lo hi : Nat} {merged : Scope} {x : String}

theorem clear_bind_self : Clear before lo hi R (merged.bind x r) r :=
  fun _ => .inr (.inl ⟨x, r, by rw [Scope.get?_bind,if_pos rfl], rfl⟩)

theorem Clear.bind (h : Clear before lo hi R merged v) (hx : merged.get? x = none) :
    Clear before lo hi R (merged.bind x joined) v := by
  intro hheap
  rcases h hheap with hv | ⟨y,m,hm,hmv⟩ | hv
  · exact .inl hv
  · exact .inr (.inl ⟨y, m, get?_bind_of_eq_some hm hx _, hmv⟩)
  · exact .inr (.inr hv)

end

namespace Joint

open Bank

variable {callees : Callees} {strict : Prop} {before lo hi : Nat} {R₂ R₃ : Registers}
variable {a b : Register} {merged : Scope} {x : String}
variable {O O₂ : Register → Prop} {σ σ₂ : String → Option Register}

section

variable (h : Joint before R R₂ R₃ a b joined)

include h

theorem clear_of_touches (hx : merged.get? x = none) (hclean : Clean before lo hi ⟨R, merged, O, σ⟩ T)
    (htouch : ∀ v, (side R₂ O₂ σ₂ T₂).Touches v → (side R O σ T).Touches v ∨ v = a ∧ R.size ≤ v)
    (hv : (side R₂ O₂ σ₂ T₂).Touches v) : Clear before lo hi R₃ (merged.bind x joined) v := by
  refine h.clear hx ?_
  rcases htouch v hv with hv | ⟨rfl,-⟩
  · exact .inl ⟨hclean.sound.bound v hv, hclean.clear v hv⟩
  · exact .inr rfl

theorem steps_of_touches (hb : Foreign before lo hi R merged b)
    (hclean : Clean before lo hi ⟨R, merged, O, σ⟩ T) (htouch : ∀ v, (side R₂ O₂ σ₂ T₂).Touches v →
      (side R O σ T).Touches v ∨ v = a ∧ R.size ≤ v) :
    Step callees strict before (side R₂ O₂ σ₂ T₂) (side R₃ O₂ σ₂ T₂) := by
  refine h.step hb fun v hv => ?_
  rcases htouch v hv with hv | hv
  · exact .inl ⟨hclean.sound.bound v hv, hclean.clear v hv⟩
  · exact .inr hv

section

variable (hx : merged.get? x = none) (hb : Foreign before lo hi R merged b)

include hx hb

/-- A path on the arm of `a` makes its value safe, gets over the join and takes on the common name. -/
theorem crosses (ha : σ₂ x = some a)
    (hsecure : ∀ T, (side R O σ T).Sound →
      Steps callees strict before (side R O σ T) (side R₂ O₂ σ₂ (T ++ ops)) ∧
        ∀ v, (side R₂ O₂ σ₂ (T ++ ops)).Touches v → (side R O σ T).Touches v ∨ v = a ∧ R.size ≤ v) :
    Crosses callees strict before lo hi ⟨R, merged, O, σ⟩
      ⟨R₃, merged.bind x joined, O₂, Function.update σ₂ x (some joined)⟩ ops := by
  refine crosses_of_clear fun T hT => ?_
  obtain ⟨hsteps,htouch⟩ := hsecure T hT.sound
  have hjoin : Step callees strict before (side R₂ O₂ σ₂ (T ++ ops)) (side R₃ O₂ σ₂ (T ++ ops)) :=
    h.steps_of_touches hb hT htouch
  have hsound := hjoin.sound (Steps.sound hsteps hT.sound)
  have hname := @step_renamed callees strict before R₃ O₂ σ₂ (T ++ ops) x a joined ha h.lt_size₃
    ((h.resolve₃_eq_iff a).2 (.inl rfl)).symm hsound
  refine ⟨(hsteps.tail hjoin).tail hname, fun v hv => ?_⟩
  rcases touches_update hv with hv | rfl
  · exact h.clear_of_touches hx hT htouch hv
  · exact clear_bind_self

theorem crosses_aside (hsteps : ∀ T, Steps callees strict before (side R O σ T) (side R₂ O σ T)) :
    Crosses callees strict before lo hi ⟨R, merged, O, σ⟩ ⟨R₃, merged.bind x joined, O, σ⟩ [] := by
  refine crosses_of_clear fun T hT => ?_
  rw [append_nil]
  have htouch : ∀ v, (side R₂ O σ T).Touches v → (side R O σ T).Touches v ∨ v = a ∧ R.size ≤ v :=
    fun v hv => .inl hv
  exact ⟨(hsteps T).tail (h.steps_of_touches hb hT htouch), fun v hv => h.clear_of_touches
    hx hT htouch hv⟩

end

end

end Joint

/-- Where two arms begin, and how many registers there are behind each. -/
structure Fork where
  start : Draft
  mid : Nat
  fin : Nat

namespace Fork

def before (w : Fork) : Nat := w.start.registers.size

def low (w : Fork) : Bool → Nat
  | true => w.before
  | false => w.mid

def high (w : Fork) : Bool → Nat
  | true => w.mid
  | false => w.fin

end Fork

def armOf (arms : Arm × Arm) : Bool → Arm
  | true => arms.1
  | false => arms.2

def conditions (arms : Arm × Arm) (b : Bool) : Condition := (armOf arms b).condition

/-- One arm between two joins. The names in `todo` are still to be joined. -/
structure Shore (w : Fork) (b : Bool) (R : Registers) (merged : Scope) (todo : List String) (arm : Arm)
    (O : Register → Prop) : Prop where
  clean : Bank.Clean w.before (w.low !b) (w.high !b) ⟨R, merged, O, armScope arm.scope merged todo⟩ []
  flagged : Flagged w.fin R O arm.live
  known : ∀ x r, arm.scope.get? x = some r → w.start.Known r
  reach : ∀ x r, arm.scope.get? x = some r → R.resolve r < w.before ∨ w.low b ≤ r ∧ r < w.high b
  mono : ∀ r, r < w.before → arm.live.getD r false = true → w.start.registers.isLive r = true
  group : ∀ r t, r < w.before → t < w.before →
    w.start.registers.resolve r = w.start.registers.resolve t → arm.live.getD r false = true →
    w.start.registers.isLive t = true → arm.live.getD t false = true
  own : ∀ r, arm.live.getD r false = true → r < w.before ∨ w.low b ≤ r ∧ r < w.high b

structure Seam (w : Fork) (R : Registers) (merged : Scope) (todo : List String) (arms : Arm × Arm)
    (O : Bool → Register → Prop) : Prop where
  wf : R.layout.WellFormed
  grows : w.start.registers.layout.Grows R.layout
  fin_le : w.fin ≤ R.size
  live : ∀ r, w.fin ≤ r → r < R.size → R.isLive r = true
  named : ∀ r, w.fin ≤ r → r < R.size → R.layout.heap r →
    ∃ y m, merged.get? y = some m ∧ R.resolve m = R.resolve r
  sorted : merged.Sorted
  done : ∀ y m, merged.get? y = some m → y ∉ todo
  known : ∀ y m, merged.get? y = some m → w.start.Known m
  shore : ∀ b, Shore w b R merged todo (armOf arms b) (O b)

/-- What joins do to the paths of both arms; each arm takes the operations under its own condition. -/
structure Crossing (callees : Callees) (strict : Prop) (w : Fork) (cond : Bool → Condition)
    (s s' : Bool → Bank) (gs : List GuardedOp) : Prop where
  plain : ∀ g ∈ gs, (∃ b, g.condition = cond b) ∧ g.op.isBranch = false ∧ g.op.endsActivation = false
  own : ∀ b, Bank.Crosses callees strict w.before (w.low !b) (w.high !b) (s b) (s' b)
    ((gs.filter (·.condition == cond b)).map (·.op))
  aside : ∀ b, Bank.Crosses callees strict w.before (w.low !b) (w.high !b) (s b).close (s' b).close []

section

variable {callees : Callees} {strict : Prop} {w : Fork} {cond : Bool → Condition}
variable {s s' s'' : Bool → Bank} {gs gs' : List GuardedOp}

theorem crossing_refl : Crossing callees strict w cond s s [] where
  plain := by simp
  own _ := Bank.crosses_refl
  aside _ := Bank.crosses_refl

theorem Crossing.trans (h : Crossing callees strict w cond s s' gs)
    (h' : Crossing callees strict w cond s' s'' gs') :
    Crossing callees strict w cond s s'' (gs ++ gs') where
  plain g hg := (mem_append.1 hg).elim (h.plain g) (h'.plain g)
  own b := by
    rw [filter_append,map_append]
    exact (h.own b).trans (h'.own b)
  aside b := (h.aside b).trans (h'.aside b)

end

theorem joinRegisters_eq_ok {before : Nat}
    (h : joinRegisters t u before arms d = .ok ((joined, arms'), d')) :
    (d.registers.resolve t = d.registers.resolve u ∧ joined = d.registers.resolve t ∧
      arms' = arms ∧ d' = d) ∨ d.registers.resolve t ≠ d.registers.resolve u ∧
        ∃ R₁ R₂ t' u' liveT liveF opsT opsF securedT securedF,
        Secured before d.registers t arms.1.live R₁ t' liveT opsT ∧
        Secured before R₁ u arms.2.live R₂ u' liveF opsF ∧
        Claims d.registers t t' arms.1.secured securedT ∧
        joined = min (R₂.resolve t') (R₂.resolve u') ∧
        arms' = ({ arms.1 with live := liveT, secured := securedT },
          { arms.2 with live := liveF, secured := securedF }) ∧
        d' = { d with
          registers := (R₂.join t' u').2
          ops := d.ops ++ (opsT.map (GuardedOp.mk arms.1.condition) ++
            opsF.map (GuardedOp.mk arms.2.condition)) } := by
  simp only [joinRegisters,bind_eq_ok,get_eq_ok] at h
  obtain ⟨_,_,⟨heq,rfl⟩,h⟩ := h
  subst heq
  split at h
  · rename_i hjoined
    simp only [pure_eq_ok,Prod.mk.injEq] at h
    obtain ⟨⟨rfl,rfl⟩,rfl⟩ := h
    exact .inl ⟨by simpa [Registers.isJoined] using hjoined, rfl, rfl, rfl⟩
  · rename_i hjoined
    simp only [bind_eq_ok,get_eq_ok,set_eq_ok,pure_eq_ok,Prod.mk.injEq] at h
    obtain ⟨⟨t',_⟩,_,hT,⟨u',_⟩,_,hF,_,_,⟨rfl,rfl⟩,_,_,rfl,⟨rfl,rfl⟩,rfl⟩ := h
    obtain ⟨R₁,opsT,liveT,securedT,rfl,rfl,hsT,hclaims⟩ := secure_eq_ok hT
    obtain ⟨R₂,opsF,liveF,securedF,rfl,rfl,hsF,-⟩ := secure_eq_ok hF
    refine .inr ⟨fun heq => hjoined (by simpa [Registers.isJoined] using heq), R₁, R₂, t', u', liveT,
      liveF, opsT, opsF, securedT, securedF, hsT, hsF, hclaims, rfl, rfl, ?_⟩
    simp only [append_assoc]

theorem joinNames_cons_eq_ok {f : Frame} {span : Span} {before : Nat} {x : String} {xs : List String}
    {merged merged' : Scope} (h : joinNames f span before (x :: xs) arms merged d =
      .ok ((merged', arms'), d')) :
    ∃ t u joined arms₁ e, arms.1.scope.get? x = some t ∧ arms.2.scope.get? x = some u ∧
      d.registers.kind u = d.registers.kind t ∧
        joinRegisters t u before arms d = .ok ((joined, arms₁), e) ∧
      joinNames f span before xs arms₁ (merged.bind x joined) (e.logged (.armsJoined f.name x joined)) =
        .ok ((merged', arms'), d') := by
  rw [joinNames] at h
  cases ht : arms.1.scope.get? x with
  | none => simp [ht,refuse_eq_ok] at h
  | some t =>
    cases hu : arms.2.scope.get? x with
    | none => simp [ht,hu,refuse_eq_ok] at h
    | some u =>
      simp only [ht,hu,bind_eq_ok,kindOf_eq_ok,ensure_eq_ok,note_eq_ok] at h
      obtain ⟨_,_,⟨rfl,rfl⟩,_,_,⟨rfl,rfl⟩,_,_,⟨hkind,rfl⟩,⟨joined,arms₁⟩,e,hjoin,_,_,rfl,h⟩ := h
      exact ⟨t, u, joined, arms₁, e, rfl, rfl, (Kind.agree_eq_ok_iff _ _).1 hkind, hjoin, h⟩

theorem Secured.joint {before : Nat} {R₁ R₂ : Registers} {t' u' : Register} {l l' m m' : List Bool}
    {opsT opsF : List Op} (hT : Secured before R t l R₁ t' l' opsT)
    (hF : Secured before R₁ u m R₂ u' m' opsF) (hwf : R.layout.WellFormed) (hbefore : before ≤ R.size)
    (ht : t < R.size) (hu : u < R.size) (hkind : R.kind u = R.kind t) :
    Joint before R R₂ (R₂.join t' u').2 t' u' (min (R₂.resolve t') (R₂.resolve u')) := by
  have hresolve : R₂.resolve = R.resolve := hF.resolve_eq.trans hT.resolve_eq
  have hwf₂ := hF.wellFormed (hT.wellFormed hwf)
  have ht' : t' < R₂.size := (hT.lt_size ht).trans_le hF.size_le
  have hu' : u' < R₂.size := hF.lt_size (hu.trans_le hT.size_le)
  refine
    { wf := hwf
      wf₂ := hwf₂
      size_le := hT.size_le.trans hF.size_le
      before_le := hbefore
      resolve_eq := hresolve
      kind_old := fun v hv => (hF.kind_old (hv.trans_le hT.size_le)).trans (hT.kind_old hv)
      lt_size := ⟨ht', hu'⟩
      kind_eq := ?_
      above := ⟨?_, ?_⟩
      apart := ?_
      fresh := ?_
      layout_eq := R₂.layout_join ht' hu' hwf₂
      joined_eq := by rw [hresolve] }
  · rw [hF.kind_eq,hF.kind_old (hT.lt_size ht),hT.kind_eq,hT.kind_old hu,hkind]
  · rcases hT.cases_eq with ⟨rfl,hroot⟩ | ⟨rfl,-⟩
    · exact hroot
    · rwa [R.resolve_of_size_le le_rfl]
  · rcases hF.cases_eq with ⟨rfl,hroot⟩ | ⟨rfl,-⟩
    · rwa [hT.resolve_eq] at hroot
    · rw [R.resolve_of_size_le hT.size_le]
      exact hbefore.trans hT.size_le
  · intro hge hge' heq
    rcases hF.cases_eq with ⟨rfl,-⟩ | ⟨rfl,-⟩
    · exact absurd hu (not_lt.2 hge')
    · exact absurd (hT.lt_size ht) (not_lt.2 heq.symm.le)
  · intro v hv hlt
    have hsize₁ : t' = R.size ∧ R₁.size = R.size + 1 ∨ R₁.size = R.size := by
      cases hT with
      | keep _ => exact .inr rfl
      | copy => exact .inl ⟨rfl, Registers.size_alloc _ _⟩
    have hsize₂ : u' = R₁.size ∧ R₂.size = R₁.size + 1 ∨ R₂.size = R₁.size := by
      cases hF with
      | keep _ => exact .inr rfl
      | copy => exact .inl ⟨rfl, Registers.size_alloc _ _⟩
    dsimp only [Register] at *
    omega

theorem Secured.getD_live {before : Nat} (h : Secured before R r live R' r' live' ops) :
    (live'.getD v false = true → live.getD v false = true) ∧
      (R.resolve v = R.resolve t → live'.getD v false = true → live.getD t false = true →
        live'.getD t false = true) ∧ live'.length = live.length := by
  cases h with
  | keep _ => exact ⟨id, fun _ _ ht => ht, rfl⟩
  | copy =>
    simp only [R.getD_releaseFlags,R.length_releaseFlags]
    exact ⟨And.left, fun hvt hv ht => ⟨ht, fun heq => hv.2 (hvt.trans heq)⟩, trivial⟩

theorem Flagged.congr {fin : Nat} {O : Register → Prop} (h : Flagged fin R O live)
    (hkind : ∀ v, v < fin → R'.kind v = R.kind v) : Flagged fin R' O live := by
  intro v hv
  rw [h v hv,Layout.heap,Layout.heap,show R'.layout.kind v = R.layout.kind v from hkind v hv]

section

variable {w : Fork} {b : Bool} {R R₁ R₂ R₃ : Registers} {merged : Scope} {x : String}
  {todo : List String}
variable {arm : Arm} {O : Register → Prop} {r r' : Register}

theorem Shore.foreign (h : Shore w b R merged (x :: todo) arm O) (hr : arm.scope.get? x = some r)
    (hdone : ∀ y m, merged.get? y = some m → y ∉ x :: todo) (hbefore : w.before ≤ R.size)
    (hcase : r' = r ∧ w.before ≤ R.resolve r ∨ R.size ≤ r') :
    Foreign w.before (w.low b) (w.high b) R merged r' := by
  have hx : armScope arm.scope merged (x :: todo) x = some r := by simpa [armScope] using hr
  rcases hcase with ⟨rfl,hroot⟩ | hnew
  · refine ⟨hroot, .inr ⟨h.clean.sound.lt_of_scope hx, ?_⟩⟩
    rcases h.reach x r' hr with hlt | ⟨hlo,hhi⟩
    · exact absurd hlt (not_lt.2 hroot)
    · refine ⟨hlo, hhi, fun hheap y m hm heq => hdone y m hm ?_⟩
      have hy : armScope arm.scope merged (x :: todo) y = some m := by
        rw [armScope,if_neg (hdone y m hm)]
        exact hm
      rw [h.clean.sound.single x y r' m hx hy hheap heq.symm]
      exact mem_cons_self
  · refine ⟨?_, .inl hnew⟩
    rw [R.resolve_of_size_le hnew]
    exact hbefore.trans hnew

theorem Shore.next {callees : Callees} {strict : Prop} {live secured} {O' : Register → Prop}
    {joined : Register} {ops ops' : List Op} (h : Shore w b R merged (x :: todo) arm O)
    (hgrows : w.start.registers.layout.Grows R.layout)
    (hcross : Bank.Crosses callees strict w.before (w.low !b) (w.high !b)
      ⟨R, merged, O, armScope arm.scope merged (x :: todo)⟩
      ⟨R₃, merged.bind x joined, O', armScope arm.scope (merged.bind x joined) todo⟩ ops)
    (hflagged : Flagged w.fin R₃ O' live) (hs : Secured w.before R₁ r arm.live R₂ r' live ops')
    (hresolve : R₁.resolve = R.resolve)
    (hlow : ∀ v, R.resolve v < w.before → R₃.resolve v = R.resolve v) :
    Shore w b R₃ (merged.bind x joined) todo { arm with live, secured } O' where
  clean := (hcross [] h.clean).2.shorten
  flagged := hflagged
  known := h.known
  reach y t hy := by
    rcases h.reach y t hy with hlt | hown
    · exact .inl (by rwa [hlow t hlt])
    · exact .inr hown
  mono v hv hlive := h.mono v hv ((hs.getD_live (t := v)).1 hlive)
  group v t hv ht hvt hlive hlive' := by
    have hroot : R₁.resolve v = R₁.resolve t := by
      rw [hresolve]
      exact (hgrows.resolve_eq hv ht).2 hvt
    have ht' := h.group v t hv ht hvt ((hs.getD_live (t := t)).1 hlive) hlive'
    exact hs.getD_live.2.1 hroot hlive ht'
  own v hlive := h.own v ((hs.getD_live (t := v)).1 hlive)

end

theorem taken_map_mk (c c' : Condition) (ops : List Op) :
    ((ops.map (GuardedOp.mk c)).filter (·.condition == c')).map (·.op) = if c = c' then ops else [] := by
  split
  · rename_i hc
    rw [filter_eq_self.2 (by simp [hc]),map_map]
    exact map_id ops
  · rename_i hc
    rw [filter_eq_nil_iff.2 (by simp [hc]),map_nil]

def banks (R : Registers) (merged : Scope) (todo : List String) (arms : Arm × Arm)
    (O : Bool → Register → Prop) (b : Bool) : Bank :=
  ⟨R, merged, O b, armScope (armOf arms b).scope merged todo⟩

section

variable {callees : Callees} {strict : Prop} {w : Fork} {R R₁ R₂ : Registers}
  {merged : Scope} {x : String}
variable {todo : List String} {arms : Arm × Arm} {O : Bool → Register → Prop} {t u t' u' : Register}
variable {liveT liveF : List Bool} {opsT opsF : List Op} {cond : Bool → Condition}

theorem Secured.plain {before : Nat} (h : Secured before R r live R' r' live' ops) :
    ∀ op ∈ ops, op.isBranch = false ∧ op.endsActivation = false := by
  cases h with
  | keep _ => simp
  | copy => simp [Op.isBranch,Op.endsActivation]

section

variable (h : Seam w R merged (x :: todo) arms O)

include h

theorem Seam.get?_head : merged.get? x = none :=
  Option.eq_none_iff_forall_ne_some.2 fun m hm => h.done x m hm mem_cons_self

/-- One name is joined: all that does not depend on how. -/
theorem Seam.bind {R₃ : Registers} {joined : Register} {O' : Bool → Register → Prop} (hx : x ∉ todo)
    (wf : R₃.layout.WellFormed) (grows : w.start.registers.layout.Grows R₃.layout)
    (fin_le : w.fin ≤ R₃.size) (live : ∀ r, w.fin ≤ r → r < R₃.size → R₃.isLive r = true)
    (hresolve : ∀ r t, R.resolve r = R.resolve t → R₃.resolve r = R₃.resolve t)
    (hnamed : ∀ r, r < R₃.size → R₃.layout.heap r → r < R.size ∧ R.layout.heap r ∨
      R₃.resolve joined = R₃.resolve r)
    (hjoined : w.start.Known joined)
    (shore : ∀ b, Shore w b R₃ (merged.bind x joined) todo (armOf arms' b) (O' b)) :
    Seam w R₃ (merged.bind x joined) todo arms' O' where
  wf
  grows
  fin_le
  live
  named r hr hlt hheap := by
    rcases hnamed r hlt hheap with ⟨hlt,hheap⟩ | hroot
    · obtain ⟨y,m,hm,hmr⟩ := h.named r hr hlt hheap
      exact ⟨y, m, get?_bind_of_eq_some hm h.get?_head _, hresolve m r hmr⟩
    · exact ⟨x, joined, by rw [Scope.get?_bind,if_pos rfl], hroot⟩
  sorted := h.sorted.bind x joined
  done y m hm hy := by
    rw [Scope.get?_bind] at hm
    split at hm
    · rename_i hyx
      exact hx (hyx ▸ hy)
    · exact h.done y m hm (mem_cons_of_mem x hy)
  known y m hm := by
    rw [Scope.get?_bind] at hm
    split at hm
    · cases hm
      exact hjoined
    · exact h.known y m hm
  shore

/-- One name is joined, in the case that something has to be done. -/
theorem Seam.join (hbefore : w.before ≤ w.fin)
    (hwf : w.start.registers.layout.WellFormed) (hx : x ∉ todo) (ht : arms.1.scope.get? x = some t)
    (hu : arms.2.scope.get? x = some u) (hkind : R.kind u = R.kind t)
    (hT : Secured w.before R t arms.1.live R₁ t' liveT opsT)
    (hF : Secured w.before R₁ u arms.2.live R₂ u' liveF opsF) (securedT securedF : List Register)
    (hcond : cond true ≠ cond false) :
    ∃ O', Seam w (R₂.join t' u').2 (merged.bind x (min (R₂.resolve t') (R₂.resolve u'))) todo
        ({ arms.1 with live := liveT, secured := securedT },
          { arms.2 with live := liveF, secured := securedF })
        O' ∧
      Crossing callees strict w cond (banks R merged (x :: todo) arms O)
        (banks (R₂.join t' u').2 (merged.bind x (min (R₂.resolve t') (R₂.resolve u'))) todo arms O')
        (opsT.map (GuardedOp.mk (cond true)) ++ opsF.map (GuardedOp.mk (cond false))) := by
  have hle : w.before ≤ R.size := hbefore.trans h.fin_le
  have hxT : armScope arms.1.scope merged (x :: todo) x = some t := (armScope_head _).trans ht
  have hxF : armScope arms.2.scope merged (x :: todo) x = some u := (armScope_head _).trans hu
  have hshoreT : Shore w true R merged (x :: todo) arms.1 (O true) := h.shore true
  have hshoreF : Shore w false R merged (x :: todo) arms.2 (O false) := h.shore false
  have hjoint := hT.joint hF h.wf hle (hshoreT.clean.sound.lt_of_scope hxT)
    (hshoreF.clean.sound.lt_of_scope hxF) hkind
  generalize min (R₂.resolve t') (R₂.resolve u') = joined at hjoint ⊢
  have hjoinlive := R₂.isLive_join t' u'
  generalize (R₂.join t' u').2 = R₃ at hjoint hjoinlive ⊢
  have hnone := h.get?_head
  -- each arm sees a register that the other one has made safe
  have hforeignT : Foreign w.before (w.low true) (w.high true) R merged t' := by
    refine hshoreT.foreign ht h.done hle (hT.cases_eq.imp id fun hnew => ?_)
    exact hnew.1.symm.le
  have hforeignF : Foreign w.before (w.low false) (w.high false) R merged u' := by
    refine hshoreF.foreign hu h.done hle ?_
    rw [← hT.resolve_eq]
    refine hF.cases_eq.imp id fun hnew => ?_
    exact hnew.1 ▸ hT.size_le
  obtain ⟨OT,hflagT,hactT⟩ := @Secured.active callees strict w.before w.before R R₁ (O true) _ t t'
    arms.1.live liveT opsT x w.fin hT hxT h.fin_le h.wf hshoreT.flagged
  have hflagF₁ : Flagged w.fin R₁ (O false) arms.2.live :=
    hshoreF.flagged.congr fun v hv => hT.kind_old (hv.trans_le h.fin_le)
  obtain ⟨OF,hflagF,hactF⟩ := @Secured.active callees strict w.before w.before R₁ R₂ (O false) _ u u'
    arms.2.live liveF opsF x w.fin hF hxF (h.fin_le.trans hT.size_le) (hT.wellFormed h.wf) hflagF₁
  have hcrossT : Bank.Crosses callees strict w.before (w.low false) (w.high false)
      ⟨R, merged, O true, armScope arms.1.scope merged (x :: todo)⟩
      ⟨R₃, merged.bind x joined, OT, armScope arms.1.scope (merged.bind x joined) todo⟩ opsT := by
    have hcross := hjoint.crosses hnone hforeignF (by simp) fun T hsound =>
      ⟨(hactT T hsound).1.trans (hF.passive (hT.wellFormed h.wf)), (hactT T hsound).2⟩
    rwa [Function.update_idem,← armScope_bind hx] at hcross
  have hcrossF : Bank.Crosses callees strict w.before (w.low true) (w.high true)
      ⟨R, merged, O false, armScope arms.2.scope merged (x :: todo)⟩
      ⟨R₃, merged.bind x joined, OF, armScope arms.2.scope (merged.bind x joined) todo⟩ opsF := by
    have hpass : ∀ T, Steps callees strict w.before
        (side R (O false) (armScope arms.2.scope merged (x :: todo)) T)
        (side R₁ (O false) (armScope arms.2.scope merged (x :: todo)) T) := fun T => hT.passive h.wf
    have hcross := hjoint.symm.crosses hnone hforeignT (by simp) fun T hsound =>
      have hact := hactF T (Steps.sound (hpass T) hsound)
      ⟨(hpass T).trans hact.1, fun v hv => (hact.2 v hv).imp id fun hnew =>
        ⟨hnew.1, hT.size_le.trans hnew.2⟩⟩
    rwa [Function.update_idem,← armScope_bind hx] at hcross
  have haside : ∀ T, Steps callees strict w.before (side R (fun _ => False) (fun _ => none) T)
      (side R₂ (fun _ => False) (fun _ => none) T) :=
    fun T => (hT.passive h.wf).trans (hF.passive (hT.wellFormed h.wf))
  have hlow : ∀ v, R.resolve v < w.before → R₃.resolve v = R.resolve v :=
    fun v hv => hjoint.resolve₃_of_lt hv
  have hkind₃ : ∀ v, R₃.kind v = R₂.kind v := hjoint.kind₃
  have hlive : ∀ v, v < R₂.size → (v < R.size → R.isLive v = true) → R₃.isLive v = true :=
    fun v hv hold => (hjoinlive v).trans (hF.isLive_of hv fun hv => hT.isLive_of hv hold)
  refine ⟨fun b => bif b then OT else OF, ?_, ?_⟩
  · refine h.bind hx hjoint.wf₃ (hjoint.grows h.grows hwf rfl) ?_ ?_ ?_ ?_
      (.inl hjoint.before_le_joined) ?_
    · rw [hjoint.size₃]
      exact h.fin_le.trans hjoint.size_le
    · intro r hr hlt
      rw [hjoint.size₃] at hlt
      exact hlive r hlt (h.live r hr)
    · exact fun r m hrm => (hjoint.resolve₃_congr_iff r m).2 (.inl hrm)
    · intro r hlt hheap
      rw [hjoint.size₃] at hlt
      rcases lt_or_ge r R.size with hold | hnew
      · exact .inl ⟨hold, (hjoint.heap₃ hold).1 hheap⟩
      · refine .inr ((hjoint.resolve₃_eq_iff r).2 ?_).symm
        exact (hjoint.fresh r hnew hlt).imp (congrArg R.resolve) (congrArg R.resolve)
    · rintro (_ | _)
      · exact hshoreF.next h.grows hcrossF (hflagF.congr fun v _ => hkind₃ v) hF hT.resolve_eq hlow
      · refine hshoreT.next h.grows hcrossT ?_ hT rfl hlow
        exact hflagT.congr fun v hv => (hkind₃ v).trans
          (hF.kind_old (hv.trans_le (h.fin_le.trans hT.size_le)))
  · refine ⟨?_, ?_, ?_⟩
    · intro g hg
      rcases mem_append.1 hg with hg | hg
      · obtain ⟨op,hop,rfl⟩ := mem_map.1 hg
        exact ⟨⟨true, rfl⟩, hT.plain op hop⟩
      · obtain ⟨op,hop,rfl⟩ := mem_map.1 hg
        exact ⟨⟨false, rfl⟩, hF.plain op hop⟩
    · rintro (_ | _)
      · simp only [filter_append,map_append,taken_map_mk,if_neg hcond,if_true,nil_append]
        exact hcrossF
      · simp only [filter_append,map_append,taken_map_mk,if_neg hcond.symm,if_true,append_nil]
        exact hcrossT
    · rintro (_ | _)
      · exact hjoint.symm.crosses_aside hnone hforeignT haside
      · exact hjoint.crosses_aside hnone hforeignF haside

end

theorem crosses_renamed {before lo hi : Nat} {O : Register → Prop} {σ : String → Option Register}
    (hx : merged.get? x = none) (hr : σ x = some r) (hlt : joined < R.size)
    (hroot : R.resolve joined = R.resolve r) :
    Bank.Crosses callees strict before lo hi ⟨R, merged, O, σ⟩
      ⟨R, merged.bind x joined, O, Function.update σ x (some joined)⟩ [] := by
  refine Bank.crosses_of_clear fun T hT => ?_
  rw [append_nil]
  refine ⟨.single (step_renamed hr hlt hroot hT.sound), fun v hv => ?_⟩
  rcases touches_update hv with hv | rfl
  · exact (hT.clear v hv).bind hx
  · exact clear_bind_self

theorem Draft.Known.resolve (h : d.Known r) (hwf : d.registers.layout.WellFormed)
    (hgrows : d.registers.layout.Grows R.layout) : d.Known (R.resolve r) := by
  rcases lt_or_ge r d.size with hlt | hge
  · rcases h with hge | ⟨y,s,hy,hs⟩
    · exact absurd hlt (not_lt.2 hge)
    · rw [hgrows.resolve hlt]
      exact .inr ⟨y, s, hy, hs.trans (hwf.root_root r).symm⟩
  · exact .inl (hgrows.root_fresh r hge)

theorem Seam.rename (h : Seam w R merged (x :: todo) arms O)
    (hwf : w.start.registers.layout.WellFormed) (hx : x ∉ todo) (ht : arms.1.scope.get? x = some t)
    (hu : arms.2.scope.get? x = some u) (heq : R.resolve t = R.resolve u) :
    Seam w R (merged.bind x (R.resolve t)) todo arms O ∧
      Crossing callees strict w cond (banks R merged (x :: todo) arms O)
        (banks R (merged.bind x (R.resolve t)) todo arms O) [] := by
  have hxT : armScope arms.1.scope merged (x :: todo) x = some t := (armScope_head _).trans ht
  have hxF : armScope arms.2.scope merged (x :: todo) x = some u := (armScope_head _).trans hu
  have hnone := h.get?_head
  have hlt : R.resolve t < R.size := h.wf.root_lt ((h.shore true).clean.sound.lt_of_scope hxT)
  have hself : R.resolve (R.resolve t) = R.resolve t := h.wf.root_root t
  have hcross : ∀ b, Bank.Crosses callees strict w.before (w.low !b) (w.high !b)
      (banks R merged (x :: todo) arms O b)
      (banks R (merged.bind x (R.resolve t)) todo arms O b) [] := by
    intro b
    simp only [banks,armScope_bind hx]
    cases b with
    | true => exact crosses_renamed hnone hxT hlt hself
    | false => exact crosses_renamed hnone hxF hlt (hself.trans heq)
  refine ⟨?_, ?_⟩
  · refine h.bind hx h.wf h.grows h.fin_le h.live (fun _ _ => id) (fun _ hlt hheap => .inl ⟨hlt, hheap⟩)
      (((h.shore true).known x t ht).resolve hwf h.grows) fun b => ?_
    exact { h.shore b with clean := (hcross b [] (h.shore b).clean).2.shorten }
  · refine ⟨by simp, hcross, fun b => Bank.crosses_of_clear fun T hT => ?_⟩
    rw [append_nil]
    exact ⟨.refl, fun v hv => (hT.clear v hv).bind hnone⟩

theorem banks_congr (h : ∀ b, (armOf arms' b).scope = (armOf arms b).scope) :
    banks R merged todo arms' O = banks R merged todo arms O := by
  funext b
  rw [banks,banks,h b]

/-- What is left of the arms when all names are joined. -/
structure Joins (arms arms' : Arm × Arm) : Prop where
  scope : ∀ b, (armOf arms' b).scope = (armOf arms b).scope
  condition : conditions arms' = conditions arms
  length : ∀ b, (armOf arms' b).live.length = (armOf arms b).live.length

theorem Joins.trans {arms'' : Arm × Arm} (h : Joins arms arms') (h' : Joins arms' arms'') :
    Joins arms arms'' where
  scope b := (h'.scope b).trans (h.scope b)
  condition := h'.condition.trans h.condition
  length b := (h'.length b).trans (h.length b)

theorem joinRegisters_seam {d d' : Draft} {joined : Register} {arms' : Arm × Arm}
    (h : joinRegisters t u w.before arms d = .ok ((joined, arms'), d'))
    (hseam : Seam w d.registers merged (x :: todo) arms O) (hbefore : w.before ≤ w.fin)
    (hwf : w.start.registers.layout.WellFormed) (hx : x ∉ todo) (ht : arms.1.scope.get? x = some t)
    (hu : arms.2.scope.get? x = some u) (hkind : d.registers.kind u = d.registers.kind t)
    (hcond : conditions arms true ≠ conditions arms false) :
    ∃ O' gs, Seam w d'.registers (merged.bind x joined) todo arms' O' ∧
      Crossing callees strict w (conditions arms) (banks d.registers merged (x :: todo) arms O)
        (banks d'.registers (merged.bind x joined) todo arms' O') gs ∧
      d' = { d with registers := d'.registers, ops := d.ops ++ gs } ∧ Joins arms arms' := by
  rcases joinRegisters_eq_ok h with ⟨heq,rfl,rfl,rfl⟩ |
    ⟨-, R₁, R₂, t', u', liveT, liveF, opsT, opsF, securedT, securedF, hT, hF, -, rfl, rfl, rfl⟩
  · obtain ⟨hseam',hcross⟩ := hseam.rename hwf hx ht hu heq
    exact ⟨O, [], hseam', hcross, by simp, fun _ => rfl, rfl, fun _ => rfl⟩
  · obtain ⟨O',hseam',hcross⟩ :=
      hseam.join hbefore hwf hx ht hu hkind hT hF securedT securedF hcond
    have hjoins : Joins arms ({ arms.1 with live := liveT, secured := securedT },
        { arms.2 with live := liveF, secured := securedF }) := by
      refine ⟨?_, ?_, ?_⟩
      · rintro (_ | _) <;> rfl
      · funext b
        cases b <;> rfl
      · rintro (_ | _)
        · exact (hF.getD_live (v := 0) (t := 0)).2.2
        · exact (hT.getD_live (v := 0) (t := 0)).2.2
    refine ⟨O', _, hseam', ?_, rfl, hjoins⟩
    rw [banks_congr hjoins.scope]
    exact hcross

theorem joinNames_seam {f : Frame} {span : Span} {xs : List String} {merged' : Scope} {arms' : Arm × Arm}
    {d d' : Draft} (h : joinNames f span w.before xs arms merged d = .ok ((merged', arms'), d'))
    (hseam : Seam w d.registers merged xs arms O) (hbefore : w.before ≤ w.fin)
    (hwf : w.start.registers.layout.WellFormed) (hnodup : xs.Nodup)
    (hcond : conditions arms true ≠ conditions arms false) :
    ∃ O' gs, Seam w d'.registers merged' [] arms' O' ∧
      Crossing callees strict w (conditions arms) (banks d.registers merged xs arms O)
        (banks d'.registers merged' [] arms' O') gs ∧
      d' = { d with registers := d'.registers, ops := d.ops ++ gs, log := d'.log } ∧
        Joins arms arms' := by
  induction xs generalizing arms merged d O with
  | nil =>
    obtain ⟨hresult,rfl⟩ := (pure_eq_ok _ _).1 h
    cases hresult
    exact ⟨O, [], hseam, crossing_refl, by simp, fun _ => rfl, rfl, fun _ => rfl⟩
  | cons x xs ih =>
    obtain ⟨hx,hnodup⟩ := nodup_cons.1 hnodup
    obtain ⟨t,u,_,_,e,ht,hu,hkind,hjoin,h⟩ := joinNames_cons_eq_ok h
    obtain ⟨_,gs₁,hseam₁,hcross₁,hdraft₁,hjoins₁⟩ := @joinRegisters_seam callees strict _ _ _ _
      _ _ _ _ _ _ _ _ hjoin hseam hbefore hwf hx ht hu hkind hcond
    obtain ⟨O₂,gs₂,hseam₂,hcross₂,hdraft₂,hjoins₂⟩ := ih h hseam₁ hnodup (by rwa [hjoins₁.condition])
    rw [hjoins₁.condition] at hcross₂
    refine ⟨O₂, gs₁ ++ gs₂, hseam₂, hcross₁.trans hcross₂, ?_, hjoins₁.trans hjoins₂⟩
    rw [hdraft₂,hdraft₁]
    simp only [Draft.logged,append_assoc]

end

end Polled
