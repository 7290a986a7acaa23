import Polled.Proofs.Carrying
import Polled.Proofs.Meaning

/-!
Lines that perform expressions.

The operations that an expression is lowered to match its action when they are carried out in order: both
come to the same values of the expression, and of the variables behind it.
-/

namespace Polled

open Lower List

variable {α : Type} {op : Op}

theorem Env.thread_of_notMem {env env' : Env α} {results : List (Datum α)} {args : List Arg} {y : String}
    (hy : y ∉ namesOfArgs args) (h : env.thread results args = some env') : env' y = env y := by
  induction args generalizing env results with
  | nil =>
    obtain rfl : env = env' := by simpa [Env.thread] using h
    rfl
  | cons arg args ih =>
    cases arg with
    | value e =>
      rw [namesOfArgs,mem_append,not_or] at hy
      rw [Env.thread] at h
      exact ih hy.2 h
    | thread x =>
      obtain ⟨hne,hy⟩ := ne_and_not_mem_of_not_mem_cons hy
      cases results with
      | nil => simp [Env.thread] at h
      | cons v results =>
        rw [Env.thread] at h
        exact (ih hy h).trans (Function.update_of_ne hne ..)

theorem IsCall.act_eq {callee : String} {args results : List Register}
    (h : IsCall op callee args results) {W : Type} (calls : Calls W α) (slot : Register → Register) :
    ∃ cs, ∀ m : Slate α, op.act calls slot m = (do
      let vs ← calls callee (args.map fun t => m.memory (slot t))
      return .onward ((m.write (results.map slot) vs).raise cs)) := by
  obtain ⟨done,rfl⟩ | ⟨k,done,rfl⟩ := h
  · exact ⟨done.toList, fun m => rfl⟩
  · exact ⟨done.toList, fun m => rfl⟩

namespace Draft

variable {W α X Y Z : Type} {slot : Register → Register}
  {memory memory' : Register → Datum α} {env : Env α}
variable {only : String → Prop} {names names' all : List String} {d e d' : Draft} {line line' : List Op}

theorem HoldsOn.kept (h : d.HoldsOn only slot memory env) (hd : d.Valid)
    (hslot : d.registers.resolve = slot) (hmemory : ∀ s, s < d.size → memory' s = memory s) :
    d.HoldsOn only slot memory' env := by
  subst hslot
  intro x t hx hxt
  have hlt : d.registers.resolve t < d.size := hd.sound.wf.root_lt (hd.sound.lt_of_scope hxt)
  rw [hmemory _ hlt]
  exact h x t hx hxt

theorem HoldsOn.fewer (h : d.HoldsOn only slot memory env)
    (hscope : ∀ x t, d'.scope.get? x = some t → d.scope.get? x = some t) :
    d'.HoldsOn only slot memory env :=
  fun x t hx hxt => h x t hx (hscope x t hxt)

theorem Fills.memory_eq {calls : Calls W α} {c : Condition} {m m' : Slate α} {w w' : W}
    (h : d.Fills d' line) (hslot : d.registers.resolve = slot)
    (hcarry : carry calls slot (line.map (GuardedOp.mk c)) m w (.onward m') w') {s : Register}
    (hs : s < d.size) : m'.memory s = m.memory s := by
  subst hslot
  refine memory_of_carry (fun g hg hmem => ?_) hcarry
  obtain ⟨op,hop,rfl⟩ := mem_map.1 hg
  obtain ⟨r,hr,rfl⟩ := mem_map.1 hmem
  have hnew : r ∈ line.flatMap Op.provides := mem_flatMap.2 ⟨op, hop, hr⟩
  rw [h.provides,mem_range'_1] at hnew
  rw [d.registers.resolve_of_size_le hnew.1] at hs
  exact not_lt.2 hnew.1 hs

/-- Only registers of the draft are looked at. -/
def Covers (d : Draft) (read : (Register → Datum α) → X) : Prop :=
  ∀ value value', (∀ t, t < d.registers.size → value t = value' t) → read value = read value'

theorem Covers.map {ts : List Register} (h : ∀ t ∈ ts, t < d.size) : d.Covers fun value :
    Register → Datum α => ts.map value :=
  fun _ _ heq => map_congr_left fun t ht => heq t (h t ht)

/-- Behind a line: the variables have their values, and `read` makes of those in the registers what an
action came to. -/
inductive Yields (d : Draft) (slot : Register → Register) (only : String → Prop)
    (names : List String) (env : Env α) (read : (Register → Datum α) → X) : Leg α → X × Env α → Prop
  | intro (m : Slate α) (env' : Env α) (hholds : d.HoldsOn only slot m.memory env')
      (hframe : ∀ y, y ∉ names → env' y = env y) :
      Yields d slot only names env read (.onward m) (read fun t => m.memory (slot t), env')

/-- A line between two drafts matches an action on variables, and no others than `names` change. -/
structure Performs (calls : Calls W α) (slot : Register → Register) (d d' : Draft) (names : List String)
    (read : (Register → Datum α) → X) (act : Env α → Act W (X × Env α)) (line : List Op) : Prop where
  fills : d.Fills d' line
  resolve_eq : d'.registers.resolve = slot
  covers : d'.Covers read
  runs : ∀ only m env, (∀ x ∈ names, only x) → d.current ∈ m.flags → d.HoldsOn only slot m.memory env →
    Act.Matches (carry calls slot (line.map (GuardedOp.mk d.current)) m) (act env)
    (d'.Yields slot only names env read)

variable {calls source : Calls W α} {act : Env α → Act W (X × Env α)} {act' : Env α → Act W (Y × Env α)}
variable {read : (Register → Datum α) → X} {read' : (Register → Datum α) → Y} {t : Register}

theorem Performs.bind (combine : X → Y → Z) (h : Performs calls slot d e names read act line)
    (he : e.Valid) (h' : Performs calls slot e d' names' read' act' line') (hsub : names ⊆ all)
    (hsub' : names' ⊆ all) :
    Performs calls slot d d' all (fun value => combine (read value) (read' value)) (fun env => do
      let (x, env) ← act env
      let (y, env) ← act' env
      return (combine x y, env)) (line ++ line') where
  fills := h.fills.trans h'.fills
  resolve_eq := h'.resolve_eq
  covers value value' heq :=
    congrArg₂ combine (h.covers value value' fun t ht => heq t (ht.trans_le h'.fills.size_le))
      (h'.covers value value' heq)
  runs only m env honly hcurrent hholds := by
    have hfirst := h.runs only m env (fun x hx => honly x (hsub hx)) hcurrent hholds
    rw [map_append,carry_append]
    refine hfirst.found.bind ?_
    rintro _ _ ⟨⟨m₁,env₁,hholds₁,hframe₁⟩,w,_,hcarry,-⟩
    have hcurrent₁ : e.current ∈ m₁.flags := h.fills.current ▸ (flags_of_carry hcarry).1 hcurrent
    have hsecond := h'.runs only m₁ env₁ (fun x hx => honly x (hsub' hx)) hcurrent₁ hholds₁
    rw [h.fills.current] at hsecond
    refine hsecond.found.bind_right ?_
    rintro _ _ ⟨⟨m₂,env₂,hholds₂,hframe₂⟩,w,_,hcarry,-⟩
    -- the second line does not touch what was read behind the first
    have hread : read (fun t => m₁.memory (slot t)) = read fun t => m₂.memory (slot t) :=
      h.covers _ _ fun t ht => (h'.fills.memory_eq h.resolve_eq hcarry
        (h.resolve_eq ▸ he.sound.wf.root_lt ht)).symm
    rw [hread]
    refine .pure (.intro m₂ env₂ hholds₂ fun y hy => ?_)
    rw [hframe₂ y fun hmem => hy (hsub' hmem),hframe₁ y fun hmem => hy (hsub hmem)]

theorem Performs.congr {act' : Env α → Act W (X × Env α)}
    (h : Performs calls slot d d' names read act line) (hact : ∀ env, act' env = act env) :
    Performs calls slot d d' names read act' line :=
  funext hact ▸ h

theorem Performs.silent (hfills : d.Fills d' []) (hslot : d'.registers.resolve = slot)
    (hscope : ∀ x t, d'.scope.get? x = some t → d.scope.get? x = some t) (hcovers : d'.Covers read)
    (hact : ∀ (only : String → Prop) (m : Slate α) env, (∀ x ∈ names, only x) →
      d.HoldsOn only slot m.memory env →
        act env = pure (read fun t => m.memory (slot t), env)) : Performs calls slot d d' names
          read act [] where
  fills := hfills
  resolve_eq := hslot
  covers := hcovers
  runs only m env honly _ hholds := by
    rw [hact only m env honly hholds]
    exact .pure (.intro m env (hholds.fewer hscope) fun _ _ => rfl)

theorem Performs.passed {lent : Bool} (h : Performs calls slot d e names read act line) (he : e.Valid)
    (hd' : d' = if lent then e else e.handOver t) : Performs calls slot d d' names read act line := by
  have hrenews := Renews.pass he hd'
  obtain ⟨-,hlayout,hnone⟩ := @passed_spec anyOutline _ _ _ _ he hd'
  have hsize : e.registers.size = d'.registers.size := congrArg Layout.size hlayout
  refine ⟨?_, hrenews.resolve_eq.trans h.resolve_eq, ?_, ?_⟩
  · simpa using h.fills.trans hnone.toFills
  · exact fun value value' heq => h.covers value value' fun t ht => heq t (hsize ▸ ht)
  · intro only m env honly hcurrent hholds
    refine (h.runs only m env honly hcurrent hholds).mono ?_
    rintro _ _ ⟨m₁,env₁,hholds₁,hframe₁⟩
    refine .intro m₁ env₁ (hholds₁.fewer fun x u hx => ?_) hframe₁
    exact (hrenews.names x u hx).resolve_right fun hnew => not_mem_nil hnew.1

theorem Performs.single {act : Env α → Act W (List (Datum α) × Env α)}
    (h : Performs calls slot d d' names (fun value => [t].map value) act line) :
    Performs calls slot d d' names (fun value => value t) (fun env => (act env).single) line where
  fills := h.fills
  resolve_eq := h.resolve_eq
  covers value value' heq := singleton_inj.1 (h.covers value value' heq)
  runs only m env honly hcurrent hholds := by
    refine (h.runs only m env honly hcurrent hholds).bind_right ?_
    rintro _ _ ⟨m₁,env₁,hholds₁,hframe₁⟩
    exact .pure (.intro m₁ env₁ hholds₁ hframe₁)

theorem Performs.emit {k : Kind} {op : Op} {v : (Register → Datum α) → Datum α}
    {act : Env α → Act W (List (Datum α) × Env α)}
    (h : Performs calls slot d e names (fun value => [v value]) act line) (he : e.Valid)
    (hd' : d' = (e.reserve k).emit e.current op) (hprovides : op.provides = [e.size])
    (hop : ∀ m, op.act calls slot m =
      pure (.onward (m.write [slot e.size] [v fun t => m.memory (slot t)]))) :
    Performs calls slot d d' names (fun value => [e.size].map value) act (line ++ [op]) := by
  subst hd'
  have hfills := Fills.reserve k hprovides
  have hsize : e.size < ((e.reserve k).emit e.current op).size :=
    (Nat.lt_add_one _).trans_eq (e.registers.size_alloc k).symm
  have hfresh : slot e.size = e.size := by
    rw [← h.resolve_eq]
    exact e.registers.resolve_of_size_le le_rfl
  refine ⟨h.fills.trans hfills, hfills.resolve_eq.trans h.resolve_eq, .map (by simpa using hsize),
    fun only m env honly hcurrent hholds => ?_⟩
  rw [map_append,carry_append]
  refine (h.runs only m env honly hcurrent hholds).found.bind_left ?_
  rintro _ _ ⟨⟨m₁,env₁,hholds₁,hframe₁⟩,w,_,hcarry,-⟩
  rw [Leg.go,map_singleton,carry_singleton ((flags_of_carry hcarry).1 hcurrent),hop]
  generalize hm₂ : m₁.write [slot e.size] [v fun t => m₁.memory (slot t)] = m₂
  have hvalue : m₂.memory (slot e.size) = v fun t => m₁.memory (slot t) := hm₂ ▸ Function.update_self ..
  have hkept : e.HoldsOn only slot m₂.memory env₁ := by
    refine hholds₁.kept he h.resolve_eq fun s hs => hm₂ ▸ Function.update_of_ne (fun heq => ?_) ..
    rw [heq,hfresh] at hs
    exact lt_irrefl _ hs
  rw [← hvalue]
  exact .pure (.intro m₂ env₁ hkept hframe₁)

theorem Performs.call {f : Frame} {sig : Signature} {args : List Arg} {passed : List Passed}
    {ts : List Register} {act : Env α → Act W (List (Datum α) × Env α)} (he : e.Valid)
    (hcalls : calls sig.name = source sig.name) (hfit : ∀ args w vs w', source sig.name args w vs w' →
      vs.length = sig.returns.length)
    (hargs : Performs calls slot d e names (fun value => (passed.map (·.register)).map value) act line)
    (hpassed : Forall₂ Arg.PassedAs args passed) (hnames : namesOfArgs args ⊆ names)
    (h : callWith f sig passed e = .ok (ts, d')) :
    ∃ op, Performs calls slot d d' names (fun value => ts.map value) (fun env => do
      let (vs, env) ← act env
      let results ← source sig.name vs
      let env ← Act.of (env.thread results args)
      return (unthreaded results args, env)) (line ++ [op]) := by
  obtain ⟨results,op,mid,hcall,rfl⟩ := callWith_spec he h
  have hop := hcall.isCall
  obtain ⟨scope,hd'⟩ := hcall.rebound.draft
  have hscope : mid.scope = e.scope := by
    obtain ⟨registers,_,_,rfl⟩ := hcall.draft
    rfl
  obtain ⟨_,hact⟩ := hop.act_eq calls slot
  have hnew : ∀ r ∈ results, e.size ≤ r := fun r => hcall.size_le
  have hslots : results.map slot = results := by
    rw [← hargs.resolve_eq]
    exact (map_congr_left fun r hr => e.registers.resolve_of_size_le (hnew r hr)).trans (map_id _)
  refine ⟨op, hargs.fills.trans hcall.fills, hcall.fills.resolve_eq.trans hargs.resolve_eq,
    .map fun t ht => ?_,
    fun only m env honly hcurrent hholds => ?_⟩
  · rw [hd']
    exact hcall.lt_size ((leftOver_sublist results passed).subset ht)
  rw [map_append,carry_append]
  refine (hargs.runs only m env honly hcurrent hholds).found.bind ?_
  rintro _ _ ⟨⟨m₁,env₁,hholds₁,hframe₁⟩,w,_,hcarry,-⟩
  rw [Leg.go,map_singleton,carry_singleton ((flags_of_carry hcarry).1 hcurrent),hact,hcalls,hslots]
  refine (Act.Matches.refl _).found.bind ?_
  rintro vs _ ⟨rfl,w,_,hvs,-⟩
  have hlen : results.length = vs.length := by
    rw [hfit _ _ _ _ hvs,hcall.results_eq,length_range']
  have hkept : mid.HoldsOn only slot (Machine.store m₁.memory results vs) env₁ := by
    have hkept := hholds₁.kept he hargs.resolve_eq fun s hs =>
      @Machine.store_of_notMem _ m₁.memory _ vs _ fun hmem => not_lt.2 (hnew s hmem) hs
    exact fun x t hx hxt => hkept x t hx (hscope ▸ hxt)
  obtain ⟨env₂,hthread,hholds₂⟩ := holdsOn_rebindThreads hpassed hcall.rebinds hcall.valid.sorted hkept
  have hvalues : (results.map fun t => Machine.store m₁.memory results vs (slot t)) = vs := by
    have hmap := map_map (f := slot) (g := Machine.store m₁.memory results vs) (l := results)
    rw [hslots,Machine.map_store hcall.nodup hlen] at hmap
    exact hmap.symm
  have hleft := @map_leftOver _ slot (Machine.store m₁.memory results vs) _ _ hpassed results
  rw [drop_zero,hvalues] at hthread
  rw [hvalues] at hleft
  rw [hthread,Act.of,Act.pure_bind,← hleft]
  refine .pure (.intro _ env₂ hholds₂ fun y hy => ?_)
  exact (Env.thread_of_notMem (fun hmem => hy (hnames hmem)) hthread).trans (hframe₁ y hy)

theorem Performs.load {k : Kind} {v : Datum α} {act : Env α → Act W (List (Datum α) × Env α)}
    (hd : d.Valid) (hslot : d.registers.resolve = slot) (hd' : d' = (d.reserve k).emit d.current op)
    (hprovides : op.provides = [d.size])
    (hop : ∀ m, op.act calls slot m = pure (.onward (m.write [slot d.size] [v])))
    (hact : ∀ env, act env = pure ([v], env)) :
    Performs calls slot d d' [] (fun value => [d.size].map value) act [op] := by
  have hnone : Performs calls slot d d [] (fun _ => [v]) act [] :=
    .silent (.nil rfl rfl rfl) hslot (fun _ _ h => h) (fun _ _ _ => rfl) fun _ _ env _ _ => hact env
  exact hnone.emit hd hd' hprovides hop

end Draft

section

variable {W α : Type} {calls source : Calls W α} {slot : Register → Register} {f : Frame} {d d' : Draft}
  {ts : List Register}

def Phrase.names : Phrase → List String
  | .value e | .arg (.value e) _ => e.names
  | .items es => namesOfExprs es
  | .arg (.thread x) _ => [x.node]
  | .args _ as _ => namesOfArgs as

def Phrase.act (source : Calls W α) (env : Env α) : Phrase → Act W (List (Datum α) × Env α)
  | .value e | .arg (.value e) _ => e.act source env
  | .items es => Expr.actItems source env es
  | .arg (.thread x) _ => do
    let v ← Act.of (env x.node)
    return ([v], env)
  | .args _ as _ => Arg.actAll source env as

/-- An expression is lowered to a line that performs it. -/
theorem Phrase.Lowers.performs {p : Phrase} (h : Lowers f p d ts d')
    (hcalls : ∀ sig ∈ f.table.entries, calls sig.name = source sig.name) (hfit : source.Fit f.table)
    (hd : d.Valid) (hslot : d.registers.resolve = slot) :
    ∃ line, Draft.Performs calls slot d d' p.names (fun value => ts.map value) (p.act source) line := by
  induction h with
  | @name _ x _ t hx =>
    refine ⟨[], .silent (.nil rfl rfl rfl) hslot (fun _ _ h => h) (.map ?_)
      fun only m env honly hholds => ?_⟩
    · exact fun u hu => mem_singleton.1 hu ▸ hd.sound.lt_of_scope hx
    · rw [Phrase.act,Expr.act,hholds x t (honly x (by simp [Phrase.names,Expr.names])) hx,Act.of,
        Act.pure_bind]
      rfl
  | truth =>
    exact ⟨_, .load hd hslot rfl rfl (fun m => rfl) fun env => by rw [Phrase.act,Expr.act,Datum.truth]⟩
  | integer | text =>
    exact ⟨_, .load hd hslot rfl rfl (fun m => rfl) fun env => by rw [Phrase.act,Expr.act]⟩
  | tuple _ ih =>
    obtain ⟨line,hline⟩ := ih hd hslot
    exact ⟨line, hline.congr fun env => by simp only [Phrase.act,Expr.act]⟩
  | @call _ _ _ sig _ _ _ _ _ hlookup hargs hcall ih =>
    have hmem : sig ∈ f.table.entries := mem_of_find?_eq_some hlookup
    obtain ⟨line,hline⟩ := ih hd hslot
    obtain ⟨op,hop⟩ := hline.call (hargs.spec hd).1 (hcalls sig hmem) (hfit sig hmem) hargs.passedAs.1
      (List.Subset.refl _) hcall
    rw [f.table.name_of_lookup hlookup] at hop
    exact ⟨_, hop.congr fun env => by simp only [Phrase.act,Expr.act]⟩
  | @compare _ op lhs rhs _ _ _ _ _ hl hr _ _ ihl ihr =>
    have he := (hl.spec hd).1
    obtain ⟨line,hline⟩ := ihl hd hslot
    obtain ⟨line',hline'⟩ := ihr he hline.resolve_eq
    have hboth := hline.single.bind (fun a b => ([.truth (op.holds a.toInt b.toInt)] : List (Datum α)))
      he hline'.single (subset_append_left lhs.names rhs.names) (subset_append_right lhs.names rhs.names)
    exact ⟨_, (hboth.emit (hr.spec he).1 rfl rfl fun m => rfl).congr
      fun env => by simp only [Phrase.act,Expr.act]⟩
  | nil =>
    exact ⟨[], .silent (.nil rfl rfl rfl) hslot (fun _ _ h => h) (fun _ _ _ => rfl) fun _ _ env _ _ => by
      rw [Phrase.act,Expr.actItems]; rfl⟩
  | @cons e es _ _ _ _ _ he _ ih ih' =>
    have hd₁ := (he.spec hd).1
    obtain ⟨line,hline⟩ := ih hd hslot
    obtain ⟨_,hline'⟩ := ih' hd₁ hline.resolve_eq
    have hboth := hline.single.bind List.cons hd₁ hline' (subset_append_left e.names (namesOfExprs es))
      (subset_append_right e.names (namesOfExprs es))
    exact ⟨_, hboth.congr fun env => by simp only [Phrase.act,Expr.actItems]⟩
  | @thread x _ t hx =>
    refine ⟨[], .silent (.nil rfl rfl rfl) hslot (fun _ _ h => h) (.map ?_)
      fun only m env honly hholds => ?_⟩
    · exact fun u hu => mem_singleton.1 hu ▸ hd.sound.lt_of_scope hx
    · rw [Phrase.act,hholds x.node t (honly x.node (by simp [Phrase.names])) hx,Act.of,Act.pure_bind]
      rfl
  | pass _ ih => exact ih hd hslot
  | done =>
    exact ⟨[], .silent (.nil rfl rfl rfl) hslot (fun _ _ h => h) (fun _ _ _ => rfl) fun _ _ env _ _ => by
      rw [Phrase.act,Arg.actAll]; rfl⟩
  | @next _ _ arg args _ _ _ _ _ _ _ _ harg _ hpass _ ih ih' =>
    have he := (harg.spec hd).1
    have hvalid := (@Draft.passed_spec anyOutline _ _ _ _ he hpass).1
    obtain ⟨_,hfirst⟩ := ih hd hslot
    have hfirst := hfirst.single.passed he hpass
    obtain ⟨_,hline⟩ := ih' hvalid hfirst.resolve_eq
    cases arg with
    | value v =>
      have hboth := hfirst.bind List.cons hvalid hline (subset_append_left v.names (namesOfArgs args))
        (subset_append_right v.names (namesOfArgs args))
      exact ⟨_, hboth.congr fun env => by simp only [Phrase.act,Arg.actAll]⟩
    | thread x =>
      have hboth := hfirst.bind List.cons hvalid hline (cons_subset_cons x.node (nil_subset _))
        (subset_cons_self x.node (namesOfArgs args))
      refine ⟨_, hboth.congr fun env => ?_⟩
      simp only [Phrase.act,Arg.actAll,Act.single,Act.bind_assoc,Act.pure_bind]

theorem Expr.performs (hcalls : ∀ sig ∈ f.table.entries, calls sig.name = source sig.name)
    (hfit : source.Fit f.table) (e : Expr) (hd : d.Valid) (hslot : d.registers.resolve = slot)
    (h : e.lower f d = .ok (ts, d')) :
    ∃ line, Draft.Performs calls slot d d' e.names (fun value => ts.map value) (e.act source) line :=
  (e.lowers h).performs hcalls hfit hd hslot

end

end Polled
