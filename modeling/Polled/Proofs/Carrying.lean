import Polled.Proofs.Acting
import Polled.Proofs.Scanning

/-!
Operations carried out in order, and what source text means beside them.

`carry` goes over operations once and does each one whose condition is set. On the other side, an
expression acts on the values of variables (`Expr.act`). Both know functions by their actions only,
whatever these do to the world.
-/

namespace Polled

open List

variable {g : GuardedOp} {op : Op} {s : Register} {xs : List String}

/-- Functions and closures by name: what they give for values. -/
abbrev Calls (W α : Type) := String → List (Datum α) → Act W (List (Datum α))

/-- Each function of the table gives as many values as it declares. -/
def Calls.Fit {W α : Type} (calls : Calls W α) (table : SignatureTable) : Prop :=
  ∀ sig ∈ table.entries, ∀ args w vs w', calls sig.name args w vs w' → vs.length = sig.returns.length

/-- The conditions that are set and the values in the slots. -/
structure Slate (α : Type) where
  flags : List Condition
  memory : Register → Datum α

namespace Slate

variable {α : Type}

def write (m : Slate α) (slots : List Register) (vs : List (Datum α)) : Slate α :=
  { m with memory := Machine.store m.memory slots vs }

def raise (m : Slate α) (cs : List Condition) : Slate α := { m with flags := cs ++ m.flags }

def entry (slots : List Register) (args : List (Datum α)) : Slate α :=
  Slate.write ⟨[.entry], fun _ => .integer 0⟩ slots args

end Slate

/-- Where operations lead to. -/
inductive Leg (α : Type) where
  | onward (m : Slate α)
  | restart (args : List (Datum α))
  | exit (values : List (Datum α))

section

variable {W α : Type} (calls : Calls W α) (slot : Register → Register)

def Leg.go (next : Slate α → Act W (Leg α)) : Leg α → Act W (Leg α)
  | .onward m => next m
  | leg => pure leg

/-- What an operation does. Those for tuples and unions stay as they are. -/
def Op.act (m : Slate α) : Op → Act W (Leg α)
  | .rename source dest => pure (.onward (m.write [slot dest] [m.memory (slot source)]))
  | .loadInteger target n => pure (.onward (m.write [slot target] [.integer n]))
  | .loadString target s => pure (.onward (m.write [slot target] [.text s]))
  | .callSync callee args results done | .callAsync callee args results _ done => do
    let vs ← calls callee (args.map fun t => m.memory (slot t))
    return .onward ((m.write (results.map slot) vs).raise done.toList)
  | .compare op lhs rhs result =>
    pure (.onward
      (m.write [slot result]
        [.truth (op.holds (m.memory (slot lhs)).toInt (m.memory (slot rhs)).toInt)]))
  | .branch test ifTrue ifFalse =>
    pure (.onward (m.raise [if (m.memory (slot test)).isTrue then ifTrue else ifFalse]))
  | .free _ done => pure (.onward (m.raise [done]))
  | .restartLoop args _ => pure (.restart (args.map fun t => m.memory (slot t)))
  | .ret values _ => pure (.exit (values.map fun t => m.memory (slot t)))
  | .makeTuple _ _ | .unpackTuple _ _ | .checkUnionTag _ _ _ | .extractUnionValue _ _ => pure (.onward m)

/-- The operations in order, each if its condition is set when its turn comes. -/
def carry : List GuardedOp → Slate α → Act W (Leg α)
  | [], m => pure (.onward m)
  | g :: gs, m =>
    if g.condition ∈ m.flags then g.op.act calls slot m >>= Leg.go (carry gs) else carry gs m

variable {calls slot} {m m' : Slate α} {gs hs : List GuardedOp} {w w' : W}

theorem carry_cons_of_mem (h : g.condition ∈ m.flags) :
    carry calls slot (g :: gs) m = g.op.act calls slot m >>= Leg.go (carry calls slot gs) := by
  rw [carry,if_pos h]

theorem carry_cons_of_notMem (h : g.condition ∉ m.flags) :
    carry calls slot (g :: gs) m = carry calls slot gs m := by
  rw [carry,if_neg h]

theorem carry_singleton (h : g.condition ∈ m.flags) :
    carry calls slot [g] m = g.op.act calls slot m := by
  have hgo : Leg.go (carry calls slot []) = pure := by
    funext leg
    cases leg <;> rfl
  rw [carry_cons_of_mem h,hgo,Act.bind_pure]

theorem carry_of_forall_notMem (h : ∀ g ∈ gs, g.condition ∉ m.flags) :
    carry calls slot gs m = pure (.onward m) := by
  induction gs with
  | nil => rfl
  | cons g gs ih =>
    obtain ⟨hg,hgs⟩ := forall_mem_cons.1 h
    rw [carry_cons_of_notMem hg,ih hgs]

theorem carry_of_onward (h : g.condition ∈ m.flags) (hact : g.op.act calls slot m = pure (.onward m')) :
    carry calls slot (g :: gs) m = carry calls slot gs m' := by
  rw [carry_cons_of_mem h,hact,Act.pure_bind]
  rfl

theorem Leg.go_assoc (next next' : Slate α → Act W (Leg α)) (leg : Leg α) :
    leg.go next >>= Leg.go next' = leg.go fun m => next m >>= Leg.go next' := by
  cases leg with
  | onward m => rfl
  | restart args => exact Act.pure_bind _ _
  | exit values => exact Act.pure_bind _ _

theorem carry_append (gs hs : List GuardedOp) (m : Slate α) :
    carry calls slot (gs ++ hs) m = carry calls slot gs m >>= Leg.go (carry calls slot hs) := by
  induction gs generalizing m with
  | nil => rw [nil_append,carry,Act.pure_bind,Leg.go]
  | cons g gs ih =>
    rw [cons_append,carry,carry]
    split
    · rw [Act.bind_assoc]
      congr 1
      funext leg
      rw [Leg.go_assoc]
      congr 1
      exact funext ih
    · exact ih m

theorem along_carry {P : Slate α → Slate α → Prop} (hrefl : ∀ m, P m m)
    (htrans : ∀ m m₁ m', P m m₁ → P m₁ m' → P m m')
    (hact : ∀ g ∈ gs, ∀ m w m' w', g.op.act calls slot m w (.onward m') w' → P m m')
    (h : carry calls slot gs m w (.onward m') w') : P m m' := by
  induction gs generalizing m w with
  | nil =>
    obtain rfl : m' = m := Leg.onward.inj h.1
    exact hrefl m'
  | cons g gs ih =>
    obtain ⟨hg,hgs⟩ := forall_mem_cons.1 hact
    rw [carry] at h
    split at h
    · obtain ⟨leg,w₁,hfirst,hrest⟩ := h
      cases leg with
      | onward m₁ => exact htrans m m₁ m' (hg m w m₁ w₁ hfirst) (ih hgs hrest)
      | restart args => cases hrest.1
      | exit values => cases hrest.1
    · exact ih hgs h

theorem flags_of_act (h : op.act calls slot m w (.onward m') w') :
    m.flags ⊆ m'.flags ∧ ∀ c ∈ m'.flags, c ∈ m.flags ∨ c ∈ op.completionFlags := by
  have hraise : ∀ {cs : List Condition}, cs ⊆ op.completionFlags → m'.flags = cs ++ m.flags →
      m.flags ⊆ m'.flags ∧ ∀ c ∈ m'.flags, c ∈ m.flags ∨ c ∈ op.completionFlags := by
    intro cs hcs hflags
    rw [hflags]
    exact ⟨subset_append_right _ _, fun c hc => (mem_append.1 hc).symm.imp_right fun hc => hcs hc⟩
  cases op with
  | callSync callee args results done =>
    obtain ⟨vs,_,-,hleg,-⟩ := h
    exact hraise (List.Subset.refl _) (congrArg Slate.flags (Leg.onward.inj hleg))
  | callAsync callee args results k done =>
    obtain ⟨_,_,-,hleg,-⟩ := h
    exact hraise (List.Subset.refl _) (congrArg Slate.flags (Leg.onward.inj hleg))
  | branch test ifTrue ifFalse =>
    refine hraise ?_ (congrArg Slate.flags (Leg.onward.inj h.1))
    split <;> simp [Op.completionFlags]
  | free register done => exact hraise (List.Subset.refl _) (congrArg Slate.flags (Leg.onward.inj h.1))
  | restartLoop args garbage => cases h.1
  | ret values garbage => cases h.1
  | _ =>
    obtain rfl := Leg.onward.inj h.1
    exact hraise (nil_subset _) rfl

theorem flags_of_carry (h : carry calls slot gs m w (.onward m') w') :
    m.flags ⊆ m'.flags ∧ ∀ c ∈ m'.flags, c ∈ m.flags ∨ c ∈ flagsIn gs := by
  refine along_carry (P := fun m m' => m.flags ⊆ m'.flags ∧ ∀ c ∈ m'.flags, c ∈ m.flags ∨ c ∈ flagsIn gs)
    (fun m => ⟨List.Subset.refl _, fun c hc => .inl hc⟩) (fun m m₁ m' h h' => ?_)
    (fun g hg m w m' w' hact => ?_) h
  · refine ⟨List.Subset.trans h.1 h'.1, fun c hc => ?_⟩
    rcases h'.2 c hc with hc | hc
    · exact h.2 c hc
    · exact .inr hc
  · obtain ⟨hsub,hnew⟩ := flags_of_act hact
    exact ⟨hsub, fun c hc => (hnew c hc).imp_right fun hc => mem_flatMap.2 ⟨g, hg, hc⟩⟩

theorem memory_of_act (hs : s ∉ op.provides.map slot) (h : op.act calls slot m w (.onward m') w') :
    m'.memory s = m.memory s := by
  have hwrite : ∀ {vs : List (Datum α)}, m'.memory = Machine.store m.memory (op.provides.map slot) vs →
      m'.memory s = m.memory s := by
    intro vs hmemory
    rw [hmemory,Machine.store_of_notMem hs]
  cases op with
  | callSync callee args results done =>
    obtain ⟨vs,_,-,hleg,-⟩ := h
    exact hwrite (congrArg Slate.memory (Leg.onward.inj hleg))
  | callAsync callee args results k done =>
    obtain ⟨_,_,-,hleg,-⟩ := h
    exact hwrite (congrArg Slate.memory (Leg.onward.inj hleg))
  | restartLoop args garbage => cases h.1
  | ret values garbage => cases h.1
  | rename source dest => exact hwrite (congrArg Slate.memory (Leg.onward.inj h.1))
  | loadInteger target n => exact hwrite (congrArg Slate.memory (Leg.onward.inj h.1))
  | loadString target text => exact hwrite (congrArg Slate.memory (Leg.onward.inj h.1))
  | compare op lhs rhs result => exact hwrite (congrArg Slate.memory (Leg.onward.inj h.1))
  | _ => exact congrFun (congrArg Slate.memory (Leg.onward.inj h.1)) s

theorem memory_of_carry (hs : ∀ g ∈ gs, s ∉ g.op.provides.map slot)
    (h : carry calls slot gs m w (.onward m') w') :
    m'.memory s = m.memory s :=
  along_carry (P := fun m m' => m'.memory s = m.memory s) (fun _ => rfl) (fun _ _ _ h h' => h'.trans h)
    (fun g hg _ _ _ _ hact => memory_of_act (hs g hg) hact) h

theorem onward_of_act {leg : Leg α} (hgoes : op.endsActivation = false)
    (h : op.act calls slot m w leg w') :
    ∃ m', leg = .onward m' := by
  cases op with
  | callSync callee args results done =>
    obtain ⟨vs,_,-,hleg,-⟩ := h
    exact ⟨_, hleg⟩
  | callAsync callee args results k done =>
    obtain ⟨_,_,-,hleg,-⟩ := h
    exact ⟨_, hleg⟩
  | restartLoop args garbage => cases hgoes
  | ret values garbage => cases hgoes
  | _ => exact ⟨_, h.1⟩

theorem onward_of_carry {leg : Leg α} (hgoes : ∀ g ∈ gs, g.op.endsActivation = false)
    (h : carry calls slot gs m w leg w') : ∃ m', leg = .onward m' := by
  induction gs generalizing m w with
  | nil => exact ⟨m, h.1⟩
  | cons g gs ih =>
    obtain ⟨hg,hgs⟩ := forall_mem_cons.1 hgoes
    rw [carry] at h
    split at h
    · obtain ⟨_,_,hfirst,hrest⟩ := h
      obtain ⟨_,rfl⟩ := onward_of_act hg hfirst
      exact ih hgs hrest
    · exact ih hgs h

end

/-- A pass over a routine has to come to one of its exits. -/
def Leg.ended {W α : Type} : Leg α → Act W (List (Datum α) ⊕ List (Datum α))
  | .onward _ => Act.never
  | .restart args => pure (.inl args)
  | .exit values => pure (.inr values)

/-- A routine that starts itself over until it returns. -/
def Routine.spin {W α : Type} (r : Routine) (calls : Calls W α) :
    List (Datum α) → Act W (List (Datum α)) :=
  Act.iterate fun args => do
    (← carry calls r.slot r.ops (.entry ((List.range r.paramCount).map r.slot) args)).ended

def Calls.along {W α : Type} (calls : Calls W α) (r : Routine) : Calls W α :=
  Function.update calls r.name (r.spin calls)

section

variable {W α : Type} (calls : Calls W α)

mutual
/-- The values of an expression, and those of the variables behind it. -/
def Expr.act (env : Env α) : Expr → Act W (List (Datum α) × Env α)
  | .name _ x => do return ([← Act.of (env x)], env)
  | .truth _ b => return ([.truth b], env)
  | .integer _ n => return ([.integer n], env)
  | .text _ s => return ([.text s], env)
  | .tuple _ items => Expr.actItems env items
  | .call _ callee args => do
    let (vs, env) ← Arg.actAll env args
    let results ← calls callee.node vs
    let env ← Act.of (env.thread results args)
    return (unthreaded results args, env)
  | .compare _ op lhs rhs => do
    let (a, env) ← (lhs.act env).single
    let (b, env) ← (rhs.act env).single
    return ([.truth (op.holds a.toInt b.toInt)], env)

def Expr.actItems (env : Env α) : List Expr → Act W (List (Datum α) × Env α)
  | [] => return ([], env)
  | e :: es => do
    let (v, env) ← (e.act env).single
    let (vs, env) ← Expr.actItems env es
    return (v :: vs, env)

def Arg.actAll (env : Env α) : List Arg → Act W (List (Datum α) × Env α)
  | [] => return ([], env)
  | .thread x :: args => do
    let v ← Act.of (env x.node)
    let (vs, env) ← Arg.actAll env args
    return (v :: vs, env)
  | .value e :: args => do
    let (v, env) ← (e.act env).single
    let (vs, env) ← Arg.actAll env args
    return (v :: vs, env)
end

def Expr.test (e : Expr) (env : Env α) : Act W (Bool × Env α) := do
  let (v, env) ← (e.act calls env).single
  return (v.isTrue, env)

end

namespace Env

variable {α : Type} {env : Env α}

def all (env : Env α) : List String → Option (List (Datum α))
  | [] => some []
  | x :: xs => do return (← env x) :: (← env.all xs)

theorem all_eq_some {vs : List (Datum α)} : env.all xs = some vs ↔ xs.map env = vs.map some := by
  induction xs generalizing vs with
  | nil => cases vs <;> simp [all]
  | cons x xs ih =>
    cases vs with
    | nil => simp [all,Option.bind_eq_some_iff]
    | cons v vs => simp [all,ih,Option.bind_eq_some_iff]

theorem setAll_of_notMem {y : String} (h : y ∉ xs) (vs : List (Datum α)) :
    env.setAll xs vs y = env y := by
  induction xs generalizing env vs with
  | nil => rfl
  | cons x xs ih =>
    cases vs with
    | nil => rfl
    | cons v vs =>
      obtain ⟨hne,hy⟩ := ne_and_not_mem_of_not_mem_cons h
      exact (ih hy vs).trans (Function.update_of_ne hne ..)

theorem map_setAll {xs : List String} {vs : List (Datum α)} (hnodup : xs.Nodup)
    (hlen : xs.length = vs.length) :
    xs.map (env.setAll xs vs) = vs.map some := by
  induction xs generalizing env vs with
  | nil => simp [length_eq_zero_iff.1 hlen.symm]
  | cons x xs ih =>
    cases vs with
    | nil => cases hlen
    | cons v vs =>
      obtain ⟨hx,hnodup⟩ := nodup_cons.1 hnodup
      rw [map_cons,map_cons,setAll,ih hnodup (Nat.succ.inj hlen),setAll_of_notMem hx]
      exact congrArg (· :: _) (Function.update_self ..)

end Env

def Draft.value {α : Type} (d : Draft) (m : Slate α) (t : Register) : Datum α :=
  m.memory (d.registers.resolve t)

def Draft.env {α : Type} (d : Draft) (m : Slate α) : Env α := fun x => (d.scope.get? x).map (d.value m)

section

variable {W α : Type} (d : Draft)

/-- Behind a body, variables have the values that it leaves in their place. -/
def Draft.handBack (names : List String) (env : Env α) : Leg α → Act W (Env α)
  | .onward m => do return env.setAll names (← Act.of ((d.env m).all names))
  | _ => Act.never

/-- What a drafted body does to variables: its operations start with their values. -/
def Draft.effect (calls : Calls W α) (names : List String) (env : Env α) : Act W (Env α) := do
  let args ← Act.of (env.all names)
  d.handBack names env (← carry calls d.registers.resolve d.ops
    (.entry ((List.range names.length).map d.registers.resolve) args))

variable {d} {names : List String} {env : Env α}

theorem Draft.handBack_onward {m : Slate α} {vs : List (Datum α)} (h : (d.env m).all names = some vs) :
    d.handBack names env (.onward m) = (pure (env.setAll names vs) : Act W (Env α)) := by
  rw [handBack,h,Act.of,Act.pure_bind]

theorem Draft.effect_eq {calls : Calls W α} {args : List (Datum α)} (h : env.all names = some args) :
    d.effect calls names env = carry calls d.registers.resolve d.ops
      (.entry ((List.range names.length).map d.registers.resolve) args) >>= d.handBack names env := by
  rw [effect,h,Act.of,Act.pure_bind]

end

end Polled
