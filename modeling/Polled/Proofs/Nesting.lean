import Polled.Proofs.Moving
import Polled.Proofs.Programs
import Polled.Proofs.Writers

/-!
Polls inside of polls.

A call in place polls an activation of its callee once and takes for granted that the results are there.
They are if nothing that a synchronous function calls schedules anything, provided that every slot gets
one value.
-/

namespace Polled

open Lower Relation List

variable {α : Type} {name : String} {r : Routine} {op : Op} {table : SignatureTable} {d : Decl}

/-- What the poll of an activation has come to. -/
inductive Answer (α : Type) where
  | values (vs : List (Datum α))
  /-- It has stopped for a child. -/
  | waits
  /-- It goes on for longer than it was given. -/
  | unfinished

/-- How far a poll has come, and whether another pass is worthwhile. -/
inductive PollState (α : Type) where
  | going (m : Machine α) (progress : Bool)
  | ended (a : Answer α)

namespace Routine

variable {α : Type} (r : Routine) (answer : String → List (Datum α) → Answer α)

/-- What an operation does in a poll. A callee that waits leaves the results of the call as they are. -/
def act (m : Machine α) : Op → PollState α
  | .callSync callee args results done =>
    match answer callee (args.map (r.look m)) with
    | .values vs => .going ((m.write (results.map r.slot) vs).raise done.toList) true
    | .waits => .going (m.raise done.toList) true
    | .unfinished => .ended .unfinished
  | .callAsync _ _ _ _ _ => .going m false
  | .restartLoop args _ => .ended (answer r.name (args.map (r.look m)))
  | op =>
    match r.fire (fun _ _ => []) m op with
    | .going m' => .going m' true
    | .returned vs => .ended (.values vs)

/-- One pass over operations. -/
def cycle : List GuardedOp → Machine α → Bool → PollState α
  | [], m, progress => .going m progress
  | g :: gs, m, progress =>
    if (r.guard g).holds m.ready m.flags then
      match r.act answer m g.op with
      | .going m' moved => cycle gs m' (progress || moved)
      | .ended a => .ended a
    else cycle gs m progress

/-- At most `n` passes, as long as there is progress. -/
def poll : Nat → Machine α → Answer α
  | 0, _ => .unfinished
  | n + 1, m =>
    match r.cycle answer r.ops m false with
    | .going m' true => poll n m'
    | .going _ false => .waits
    | .ended a => a

end Routine

namespace Program

/-- A call in place, not more than `n` deep: native functions run at once, and of others an activation is
polled. -/
def call {α : Type} (p : Program) (natives : Natives α) : Nat → String → List (Datum α) → Answer α
  | 0, _, _ => .unfinished
  | n + 1, name, args =>
    match p.routine? name with
    | some r =>
      if r.isNative then .values (natives name args) else r.poll (call p natives n) (n + 1)
        (r.entry args)
    | none => .values (natives name args)

theorem call_of_generated {p : Program} {natives : Natives α} (hr : p.routine? name = some r)
    (hnative : r.isNative = false) (n : Nat) (args : List (Datum α)) :
    p.call natives (n + 1) name args = r.poll (p.call natives n) (n + 1) (r.entry args) := by
  simp only [call,hr,hnative,Bool.false_eq_true,if_false]

/-- The first routine is called by the second. -/
def Calls (p : Program) (callee caller : String) : Prop :=
  ∃ r, p.routine? caller = some r ∧ ∃ g ∈ r.ops, ∃ args, g.op.call? = some (callee, args)

end Program

/-- Native routines give as many values as they return. -/
def Natives.Serve {α : Type} (natives : Natives α) (p : Program) : Prop :=
  ∀ r ∈ p.routines, r.isNative = true → ∀ args, (natives r.name args).length = r.returnKinds.length

/-- All that the function calls, directly or not, stays in place and has separate bindings. -/
def Bundle.StaysInPlace (b : Bundle) (table : SignatureTable) (p : Program) (name : String) : Prop :=
  ∀ d ∈ b.decls, ∀ body, d.body = some body → ReflTransGen p.Calls d.name.node name →
    body.schedules table = false ∧ body.separate none = true

namespace Routine

variable {natives : Natives α} {answer : String → List (Datum α) → Answer α} {late : Prop}
variable {gs : List GuardedOp} {m : Machine α} {vs : List (Datum α)}

/-- The calls of an operation give what native functions would give, or they come late. -/
def Answered (late : Prop) (natives : Natives α) (answer : String → List (Datum α) → Answer α)
    (op : Op) : Prop :=
  ∀ callee args results done, op = .callSync callee args results done →
    ∀ vs, late ∧ answer callee vs = .unfinished ∨ answer callee vs = .values (natives callee vs)

theorem act_eq (hplace : op.inPlace = true) (hanswered : Answered late natives answer op) :
    late ∧ r.act answer m op = .ended .unfinished ∨
      r.act answer m op = match r.fire natives m op with
        | .going m' => .going m' true
        | .returned vs => .ended (.values vs) := by
  cases op with
  | callSync callee args results done =>
    rcases hanswered callee args results done rfl (args.map (r.look m)) with ⟨hlate,hreply⟩ | hreply
    · exact .inl ⟨hlate, by rw [act,hreply]⟩
    · exact .inr (by rw [act,hreply,fire])
  | rename | loadInteger | loadString | compare | branch | free | ret => exact .inr rfl
  | callAsync | makeTuple | unpackTuple | checkUnionTag | extractUnionValue | restartLoop => cases hplace

theorem cycle_of_scan (hplace : ∀ g ∈ gs, g.op.inPlace = true)
    (hanswered : ∀ g ∈ gs, Answered late natives answer g.op)
    (hscan : r.scan natives gs m = .returned vs) (progress : Bool) :
    late ∧ r.cycle answer gs m progress = .ended .unfinished ∨
      r.cycle answer gs m progress = .ended (.values vs) := by
  induction gs generalizing m progress with
  | nil => cases hscan
  | cons g gs ih =>
    obtain ⟨hg,hgs⟩ := forall_mem_cons.1 hplace
    obtain ⟨hag,hags⟩ := forall_mem_cons.1 hanswered
    rw [scan] at hscan
    rw [cycle]
    split at hscan
    · rename_i hholds
      rw [if_pos hholds]
      rcases act_eq hg hag with ⟨hlate,hact⟩ | hact
      · exact .inl ⟨hlate, by rw [hact]⟩
      · rw [hact]
        cases hfire : r.fire natives m g.op with
        | going m' =>
          simp only [hfire] at hscan ⊢
          exact ih hgs hags hscan _
        | returned us =>
          simp only [hfire] at hscan ⊢
          cases hscan
          exact .inr rfl
    · rename_i hholds
      rw [if_neg hholds]
      exact ih hgs hags hscan progress

theorem poll_of_scan (hplace : ∀ g ∈ r.ops, g.op.inPlace = true)
    (hanswered : ∀ g ∈ r.ops, Answered late natives answer g.op)
    (hscan : r.scan natives r.ops m = .returned vs) (n : Nat) :
    late ∧ r.poll answer (n + 1) m = .unfinished ∨ r.poll answer (n + 1) m = .values vs := by
  rw [poll]
  rcases cycle_of_scan hplace hanswered hscan false with ⟨hlate,hcycle⟩ | hcycle
  · exact .inl ⟨hlate, by rw [hcycle]⟩
  · exact .inr (by rw [hcycle])

/-- A poll whose passes fire and change nothing has no end. -/
theorem poll_of_idle (h : r.cycle answer r.ops m false = .going m true) (n : Nat) :
    r.poll answer n m = .unfinished := by
  induction n with
  | zero => rfl
  | succ n ih =>
    rw [poll,h]
    exact ih

end Routine

section

variable {natives : Natives α} {body : Block} {log : List Event} {l : Lowered}

theorem scan_of_lowerFunction (h : lowerFunction table d body log = .ok l) (honce : l.routine.FillsOnce)
    (hruns : ∀ g ∈ l.routine.ops, g.op.Runs natives) (args : List (Datum α)) :
    ∃ vs, l.routine.scan natives l.routine.ops (l.routine.entry args) = .returned vs ∧
      ∃ g ∈ l.routine.ops, ∃ values garbage, g.op = .ret values garbage ∧ vs.length = values.length := by
  obtain ⟨v,hv,_,values,garbage,_,hscan,htrace,-⟩ := scan_of_fillsOnce h honce hruns args
  have hret : Op.ret values garbage ∈ v.trace := by simp [htrace]
  obtain ⟨g,hg,hop⟩ := (Walk.mem_of_trace hv hret).resolve_left not_mem_nil
  exact ⟨_, hscan, g, hg, values, garbage, hop, length_map _⟩

end

namespace Program

/-- Calls of the routine give as many values as it returns, or they come late. -/
def Answers {α : Type} (p : Program) (natives : Natives α) (late : Prop) (n : Nat)
    (r : Routine) : Prop :=
  ∀ args, late ∧ p.call natives n r.name args = .unfinished ∨
    ∃ vs, p.call natives n r.name args = .values vs ∧ vs.length = r.returnKinds.length

/-- What calls give, with something of the right length for those that come late. -/
def results {α : Type} (p : Program) (natives : Natives α) (n : Nat) : Natives α := fun name args =>
  match p.call natives n name args with
  | .values vs => vs
  | _ => ((p.routine? name).map (·.returnKinds)).getD [] |>.map fun _ => .integer 0

end Program

/-- Routines come from declarations, have names of their own and are well kinded. -/
structure Program.Made (p : Program) (b : Bundle) (table : SignatureTable) : Prop where
  routine? : ∀ r ∈ p.routines, p.routine? r.name = some r
  origin : ∀ r ∈ p.routines, ∃ d ∈ b.decls, ∃ rs, Generates table d rs ∧ r ∈ rs
  kinded : ∀ r ∈ p.routines, r.Kinded p.Knows

theorem isSync_of_mem_closures {body : Block} {log : List Event} {l : Lowered}
    (h : lowerFunction table d body log = .ok l) (hr : r ∈ l.closures) : r.isSync = false := by
  obtain ⟨f,_,_,_,_,_,_,-,-,hsync,-,-,-,-,-,-,rfl⟩ := (closure_of_lowerFunction h hr).1
  exact hsync

theorem Generates.lowered {rs : List Routine} (h : Generates table d rs) (hr : r ∈ rs)
    (hsync : r.isSync = true) (hnative : r.isNative = false) :
    ∃ body log l, d.body = some body ∧ lowerFunction table d body log = .ok l ∧ r = l.routine := by
  rcases h with ⟨-,rfl⟩ | ⟨body,log,l,hbody,hl,rfl⟩
  · rw [mem_singleton.1 hr] at hnative
    cases hnative
  · refine ⟨body, log, l, hbody, hl, (mem_cons.1 hr).resolve_right fun hr => ?_⟩
    simp [isSync_of_mem_closures hl hr] at hsync

section

variable {b : Bundle} {table : SignatureTable} {log log' : List Event} {p : Program}

theorem made_of_generate (htable : b.signatures = .ok table) (h : b.generate table log = .ok (p, log')) :
    p.Made b table := by
  obtain ⟨_,hparts,hdecls,hroutines,hnodup,-,hkinded⟩ := exists_parts htable h
  refine ⟨fun r hr => Program.routine?_eq_some hnodup hr, fun r hr => ?_, hkinded⟩
  obtain ⟨part,hpart,hr⟩ := mem_flatMap.1 (hroutines ▸ hr)
  exact ⟨part.1, hdecls ▸ mem_map_of_mem hpart, part.2, hparts part hpart, hr⟩

variable {α : Type} {natives : Natives α} {r : Routine} {late : Prop} {n : Nat}

theorem Program.Made.lowered (hp : p.Made b table) (hr : r ∈ p.routines) (hsync : r.isSync = true)
    (hnative : r.isNative = false) :
    ∃ d ∈ b.decls, ∃ body log l, d.body = some body ∧ d.name.node = r.name ∧
      lowerFunction table d body log = .ok l ∧ r = l.routine := by
  obtain ⟨d,hd,_,hgen,hr⟩ := hp.origin r hr
  obtain ⟨body,log,l,hbody,hl,rfl⟩ := hgen.lowered hr hsync hnative
  exact ⟨d, hd, body, log, l, hbody, (outline_of_lowerFunction hl).1.symm, hl, rfl⟩

theorem Bundle.StaysInPlace.callee {callee caller : String} (h : b.StaysInPlace table p caller)
    (hcalls : p.Calls callee caller) : b.StaysInPlace table p callee :=
  fun d hd body hbody hreach => h d hd body hbody (hreach.tail hcalls)

theorem Program.Made.answered (hp : p.Made b table) (hr : r ∈ p.routines)
    (hcallees : ∀ q ∈ p.routines, q.isSync = true → p.Calls q.name r.name → p.Answers natives late n q)
    {g : GuardedOp} (hg : g ∈ r.ops) {callee : String} {args results : List Register}
    {done : Option Condition} (hop : g.op = .callSync callee args results done) (vs : List (Datum α)) :
    (late ∧ p.call natives n callee vs = .unfinished ∨
        p.call natives n callee vs = .values (p.results natives n callee vs)) ∧
      (p.results natives n callee vs).length = results.length := by
  have hkinded := hp.kinded r hr g hg
  rw [hop] at hkinded
  obtain ⟨o,⟨q,hq,rfl⟩,hsync,-,hkinds⟩ := hkinded
  obtain rfl : q.name = callee := by simpa using find?_some hq
  have hlength : q.returnKinds.length = results.length := by
    simpa [Routine.outline] using congrArg List.length hkinds.symm
  have hcalls : p.Calls q.name r.name := ⟨r, hp.routine? r hr, g, hg, args, by rw [hop]; rfl⟩
  rcases hcallees q (mem_of_find?_eq_some hq) hsync hcalls vs with ⟨hlate,hcall⟩ | ⟨us,hcall,hus⟩
  · refine ⟨.inl ⟨hlate, hcall⟩, ?_⟩
    rw [Program.results,hcall,hq]
    simpa using hlength
  · have hresults : p.results natives n q.name vs = us := by rw [Program.results,hcall]
    rw [hresults]
    exact ⟨.inr hcall, hus.trans hlength⟩

section

variable (hp : p.Made b table) (hserve : natives.Serve p)

include hp hserve

theorem Program.Made.answers_succ (hr : r ∈ p.routines) (hsync : r.isSync = true)
    (hstays : b.StaysInPlace table p r.name) (hcallees : ∀ q ∈ p.routines, q.isSync = true →
      p.Calls q.name r.name → p.Answers natives late n q) :
    p.Answers natives late (n + 1) r := by
  intro args
  cases hnative : r.isNative with
  | true => exact .inr ⟨_, by simp [Program.call,hp.routine? r hr,hnative], hserve r hr hnative args⟩
  | false =>
    rw [Program.call_of_generated (hp.routine? r hr) hnative]
    obtain ⟨d,hd,body,_,l,hbody,hname,hl,hroutine⟩ := hp.lowered hr hsync hnative
    obtain ⟨hschedules,hseparate⟩ := hstays d hd body hbody (hname ▸ .refl)
    have hplace : ∀ g ∈ r.ops, g.op.inPlace = true := hroutine ▸ inPlace_of_lowerFunction hl hschedules
    have hruns : ∀ g ∈ r.ops, g.op.Runs (p.results natives n) := fun g hg =>
      Op.runs_of_inPlace (hplace g hg) fun _ _ _ _ hop vs => (hp.answered hr hcallees hg hop vs).2
    have hanswered : ∀ g ∈ r.ops, Routine.Answered late (p.results natives n) (p.call natives n) g.op :=
      fun g hg _ _ _ _ hop vs => (hp.answered hr hcallees hg hop vs).1
    obtain ⟨vs,hscan,g,hg,values,_,hop,hlength⟩ := scan_of_lowerFunction hl
      ((routine_fillsOnce hl).2 hseparate) (hroutine ▸ hruns) args
    rw [← hroutine] at hscan hg
    have hreturns : Fits r.registerKind values r.returnKinds := by
      have hkinded := hp.kinded r hr g hg
      rw [hop] at hkinded
      exact hkinded
    refine (Routine.poll_of_scan hplace hanswered hscan n).imp_right fun hpoll => ⟨vs, hpoll, ?_⟩
    exact hlength.trans hreturns.1

theorem Program.Made.answers (n : Nat) (hr : r ∈ p.routines) (hsync : r.isSync = true)
    (hstays : b.StaysInPlace table p r.name) : p.Answers natives True n r := by
  induction n generalizing r with
  | zero => exact fun args => .inl ⟨trivial, rfl⟩
  | succ n ih =>
    exact hp.answers_succ hserve hr hsync hstays fun q hq hqsync hcalls => ih hq hqsync
      (hstays.callee hcalls)

theorem Program.Made.answers_of_acc (hr : r ∈ p.routines) (hsync : r.isSync = true)
    (hstays : b.StaysInPlace table p r.name) (hacc : Acc p.Calls r.name) :
    ∃ N, ∀ n ≥ N, p.Answers natives False n r := by
  generalize hname : r.name = name at hacc
  induction hacc generalizing r with
  | intro name _ ih =>
    subst hname
    have hcallees : ∀ q ∈ p.routines, ∀ᶠ n in Filter.atTop, q.isSync = true → p.Calls q.name r.name →
        p.Answers natives False n q := by
      intro q hq
      refine Filter.eventually_atTop.2 ?_
      by_cases h : q.isSync = true ∧ p.Calls q.name r.name
      · obtain ⟨N,hN⟩ := ih q.name h.2 hq h.1 (hstays.callee h.2) rfl
        exact ⟨N, fun n hn _ _ => hN n hn⟩
      · exact ⟨0, fun n _ hqsync hcalls => absurd ⟨hqsync, hcalls⟩ h⟩
    obtain ⟨N,hN⟩ :=
      Filter.eventually_atTop.1 ((Filter.eventually_all_finite p.routines.finite_toSet).2 hcallees)
    refine ⟨N + 1, fun n hn => ?_⟩
    cases n with
    | zero => cases hn
    | succ n => exact hp.answers_succ hserve hr hsync hstays (hN n (Nat.le_of_succ_le_succ hn))

end

/-- A synchronous function calls a child just if its body schedules something. If nothing that it calls
does, then a call of it never waits: it gives all its results in one poll, and it ends unless calls go
round in a circle. -/
theorem sync_answers (htable : b.signatures = .ok table) (h : b.generate table log = .ok (p, log'))
    (hr : r ∈ p.routines) (hsync : r.isSync = true) (hnative : r.isNative = false) :
    (∃ d ∈ b.decls, ∃ body, d.body = some body ∧ d.name.node = r.name ∧
        r.ops.any (·.op.startsChild) = body.schedules table) ∧
      (b.StaysInPlace table p r.name → ∀ {α : Type} (natives : Natives α), natives.Serve p →
        (∀ n args, p.call natives n r.name args = .unfinished ∨
          ∃ vs, p.call natives n r.name args = .values vs ∧ vs.length = r.returnKinds.length) ∧
        (Acc p.Calls r.name → ∃ N, ∀ n ≥ N, ∀ args,
          ∃ vs, p.call natives n r.name args = .values vs ∧ vs.length = r.returnKinds.length)) := by
  have hp := made_of_generate htable h
  refine ⟨?_, fun hstays α natives hserve => ⟨fun n args => ?_, fun hacc => ?_⟩⟩
  · obtain ⟨d,hd,body,_,l,hbody,hname,hl,rfl⟩ := hp.lowered hr hsync hnative
    exact ⟨d, hd, body, hbody, hname, any_startsChild_of_lowerFunction hl⟩
  · exact (hp.answers hserve n hr hsync hstays args).imp_left And.right
  · obtain ⟨N,hN⟩ := hp.answers_of_acc hserve hr hsync hstays hacc
    exact ⟨N, fun n hn args => (hN n hn args).resolve_left And.left⟩

end

/-- Callees have lower ranks than their callers, so that no call comes back to where it began. -/
def Program.Ranked (p : Program) (rank : String → Nat) : Prop :=
  ∀ r ∈ p.routines, ∀ g ∈ r.ops, ∀ c ∈ g.op.call?, rank c.1 < rank r.name

instance (p : Program) (rank : String → Nat) : Decidable (p.Ranked rank) :=
  inferInstanceAs (Decidable (∀ r ∈ p.routines, ∀ g ∈ r.ops, ∀ c ∈ g.op.call?, rank c.1 < rank r.name))

namespace Program.Ranked

variable {p : Program} {rank : String → Nat} {callee caller : String}

section

variable (h : p.Ranked rank)

include h

theorem lt_of_calls (hcalls : p.Calls callee caller) : rank callee < rank caller := by
  obtain ⟨r,hr,g,hg,args,hcall⟩ := hcalls
  obtain rfl : r.name = caller := by simpa using find?_some hr
  exact h r (mem_of_find?_eq_some hr) g hg (callee, args) hcall

theorem le_of_reaches (hreaches : ReflTransGen p.Calls callee caller) : rank callee ≤ rank caller := by
  induction hreaches with
  | refl => exact le_rfl
  | tail _ hcalls ih => exact ih.trans (h.lt_of_calls hcalls).le

theorem acc (name : String) : Acc p.Calls name :=
  Subrelation.accessible h.lt_of_calls ((measure rank).wf.apply name)

theorem staysInPlace {b : Bundle}
    (hdecls : ∀ d ∈ b.decls, ∀ body ∈ d.body, rank d.name.node ≤ rank name →
      body.schedules table = false ∧ body.separate none = true) :
    b.StaysInPlace table p name :=
  fun d hd body hbody hreaches => hdecls d hd body hbody (h.le_of_reaches hreaches)

end

end Program.Ranked

/-- `sync native func weigh(n: &Integer): Integer` -/
def weigh : Decl where
  span := .nowhere
  name := bare "weigh"
  isSync := true
  isNative := true
  params := [⟨bare "n", bare (.lent .integer)⟩]
  returns := [bare (.owned .integer)]
  body := none

/-- `native func order(): Integer`, and functions in place that weigh: `dose` weighs once or twice,
`pair` doses twice. -/
def bakery : Bundle where
  entry := "main"
  modules := [⟨"main", 0, ⟨[],
    [{ weigh with name := bare "order", isSync := false, params := [] },
      weigh,
      { weigh with
        name := bare "dose"
        isNative := false
        params := [⟨bare "n", bare (.lent .integer)⟩, ⟨bare "strong", bare (.lent .boolean)⟩]
        body := some ⟨.nowhere,
          [.bind .nowhere [bare "m"] (.call .nowhere (bare "weigh") [.value (.name .nowhere "n")]),
            .branch .nowhere (.name .nowhere "strong")
              ⟨.nowhere, [.bind .nowhere [bare "m"]
                (.call .nowhere (bare "weigh") [.value (.name .nowhere "m")])]⟩
              ⟨.nowhere, []⟩,
            .ret .nowhere (some (.name .nowhere "m"))]⟩ },
      { weigh with
        name := bare "pair"
        isNative := false
        returns := [bare (.owned .integer), bare (.owned .integer)]
        body := some ⟨.nowhere,
          [.bind .nowhere [bare "a"]
              (.call .nowhere (bare "dose")
                [.value (.name .nowhere "n"), .value (.truth .nowhere true)]),
            .bind .nowhere [bare "b"]
              (.call .nowhere (bare "dose")
                [.value (.name .nowhere "n"), .value (.truth .nowhere false)]),
            .ret .nowhere (some (.tuple .nowhere [.name .nowhere "a", .name .nowhere "b"]))]⟩ },
      { weigh with
        name := bare "main"
        isSync := false
        isNative := false
        params := []
        body := some ⟨.nowhere,
          [.bind .nowhere [bare "n"] (.call .nowhere (bare "order") []),
            .bind .nowhere [bare "a", bare "b"]
            (.call .nowhere (bare "pair") [.value (.name .nowhere "n")]),
            .ret .nowhere (some (.name .nowhere "a"))]⟩ }]⟩⟩]

def Bundle.made (b : Bundle) : SignatureTable × Program :=
  match b.signatures with
  | .error _ => (.empty, ⟨"", []⟩)
  | .ok table =>
    match b.generate table [] with
    | .error _ => (table, ⟨"", []⟩)
    | .ok (p, _) => (table, p)

theorem made_bakery : bakery.signatures = .ok bakery.made.1 ∧
    ∃ log, bakery.generate bakery.made.1 [] = .ok (bakery.made.2, log) := ⟨by cbv, _, by cbv⟩

def bakeryRank (name : String) : Nat :=
  if name = "main" then 3 else if name = "pair" then 2 else if name = "dose" then 1 else 0

theorem bakery_sync_answers :
    ∃ r ∈ bakery.made.2.routines, r.name = "pair" ∧ r.isSync = true ∧ r.isNative = false ∧
    bakery.StaysInPlace bakery.made.1 bakery.made.2 r.name ∧
    ∃ N, ∀ n ≥ N, ∀ args : List (Datum Unit), ∃ vs,
      bakery.made.2.call (fun _ _ => [.integer 1]) n r.name args = .values vs ∧ vs.length = 2 := by
  obtain ⟨hsignatures,_,hgenerate⟩ := made_bakery
  obtain ⟨r,hr,hname,hsync,hnative,hcount⟩ : ∃ r ∈ bakery.made.2.routines, r.name = "pair" ∧
    r.isSync = true ∧
      r.isNative = false ∧ r.returnKinds.length = 2 := by decide +kernel
  have hranked : bakery.made.2.Ranked bakeryRank := by decide +kernel
  have hstays : bakery.StaysInPlace bakery.made.1 bakery.made.2 r.name :=
    hname ▸ hranked.staysInPlace (by decide +kernel)
  have hones : ∀ r ∈ bakery.made.2.routines, r.isNative = true → 1 = r.returnKinds.length := by
    decide +kernel
  have hanswers := ((sync_answers hsignatures hgenerate hr hsync hnative).2 hstays
    (fun _ _ => [(.integer 1 : Datum Unit)]) fun r hr hnative _ => hones r hr hnative).2
      (hranked.acc r.name)
  exact ⟨r, hr, hname, hsync, hnative, hstays, hcount ▸ hanswers⟩

/-- `native func nap(): Integer`, `sync func doze(): Integer { return nap() }` and a main function that
dozes. -/
def siesta : Bundle where
  entry := "main"
  modules := [⟨"main", 0, ⟨[],
    [{ weigh with name := bare "nap", isSync := false, params := [] },
      { weigh with
        name := bare "doze"
        isNative := false
        params := []
        body := some ⟨.nowhere, [.ret .nowhere (some (.call .nowhere (bare "nap") []))]⟩ },
      { weigh with
        name := bare "main"
        isSync := false
        isNative := false
        params := []
        body := some ⟨.nowhere, [.ret .nowhere (some (.call .nowhere (bare "doze") []))]⟩ }]⟩⟩]

theorem made_siesta : siesta.signatures = .ok siesta.made.1 ∧
    ∃ log, siesta.generate siesta.made.1 [] = .ok (siesta.made.2, log) := ⟨by cbv, _, by cbv⟩

/-- `doze` as it is generated. -/
def dozing : Routine where
  name := "doze"
  isSync := true
  isNative := false
  paramCount := 0
  returnKinds := [.owned .integer]
  registerKinds := [.owned .integer]
  slots := [0]
  ops := [⟨.entry, .callAsync "nap" [] [0] 0 none⟩, ⟨.entry, .ret [0] []⟩]
  childCalls := ["nap"]
  conditionCount := 1

def dozingMain : Routine :=
  { dozing with
    name := "main"
    isSync := false
    ops := [⟨.entry, .callSync "doze" [] [0] none⟩, ⟨.entry, .ret [0] []⟩]
    childCalls := [] }

theorem routines_siesta :
    siesta.made.2.routines = [.native "nap" false [] [.owned .integer], dozing, dozingMain] := by cbv

theorem dozingMain_spins {answer : String → List (Datum α) → Answer α}
    (h : answer "doze" [] = .waits) (n : Nat) :
    dozingMain.poll answer n (dozingMain.entry []) = .unfinished := by
  refine Routine.poll_of_idle ?_ n
  have hact : dozingMain.act answer (dozingMain.entry []) (.callSync "doze" [] [0] none) =
      .going (dozingMain.entry []) true := by
    rw [Routine.act,map_nil,h]
    rfl
  rw [show dozingMain.ops = [⟨.entry, .callSync "doze" [] [0] none⟩, ⟨.entry, .ret [0] []⟩] from rfl,
    Routine.cycle, if_pos (by rfl),hact]
  rfl

/-- `sync native func halve(): (Integer, Integer)` and `sync func share(c: &Boolean): (Integer, Integer,
Integer)`, with the body `if c { let a = 1 let b, z = halve() } else { let a = 3 let b = a let z = 4 }
return (a, b, z)`. -/
def supper : Bundle where
  entry := "main"
  modules := [⟨"main", 0, ⟨[],
    [{ weigh with
      name := bare "halve", params := [], returns := [bare (.owned .integer), bare (.owned .integer)] },
      { weigh with
        name := bare "share"
        isNative := false
        params := [⟨bare "c", bare (.lent .boolean)⟩]
        returns := [bare (.owned .integer), bare (.owned .integer), bare (.owned .integer)]
        body := some ⟨.nowhere,
          [.branch .nowhere (.name .nowhere "c")
              ⟨.nowhere, [.bind .nowhere [bare "a"] (.integer .nowhere 1),
                .bind .nowhere [bare "b", bare "z"] (.call .nowhere (bare "halve") [])]⟩
              ⟨.nowhere, [.bind .nowhere [bare "a"] (.integer .nowhere 3), .bind .nowhere [bare "b"]
                (.name .nowhere "a"),
                .bind .nowhere [bare "z"] (.integer .nowhere 4)]⟩,
            .ret .nowhere
              (some (.tuple .nowhere [.name .nowhere "a", .name .nowhere "b", .name .nowhere "z"]))]⟩ },
      { weigh with
        name := bare "main"
        isSync := false
        isNative := false
        params := []
        body := some ⟨.nowhere, [.ret .nowhere (some (.integer .nowhere 1))]⟩ }]⟩⟩]

theorem made_supper : supper.signatures = .ok supper.made.1 ∧
    ∃ log, supper.generate supper.made.1 [] = .ok (supper.made.2, log) := ⟨by cbv, _, by cbv⟩

/-- `share` as it is generated: the call writes to the slot of `a` as well. -/
def sharing : Routine where
  name := "share"
  isSync := true
  isNative := false
  paramCount := 1
  returnKinds := [.owned .integer, .owned .integer, .owned .integer]
  registerKinds := [.lent .boolean, .owned .integer, .owned .integer, .owned .integer, .owned .integer,
    .owned .integer]
  slots := [0, 1, 1, 3, 1, 3]
  ops := [⟨.entry, .branch 0 1 2⟩, ⟨1, .loadInteger 1 1⟩, ⟨1, .callSync "halve" [] [2, 3] none⟩,
    ⟨2, .loadInteger 4 3⟩,
    ⟨2, .loadInteger 5 4⟩, ⟨.entry, .ret [1, 1, 3] []⟩]
  childCalls := []
  conditionCount := 3

theorem routine?_supper : supper.made.2.routine? "share" = some sharing := by cbv

/-- A function that is synchronous may start a child. Then it waits, and whoever calls it polls for ever.
It may also wait without any child, if a call writes to a slot that is ready. -/
theorem sync_waits :
    (∃ table p log, siesta.signatures = .ok table ∧ siesta.generate table [] = .ok (p, log) ∧
      ∃ r, p.routine? "doze" = some r ∧ r.isSync = true ∧ r.isNative = false ∧
        r.ops.any (·.op.startsChild) = true ∧ ∀ (natives : Natives Unit) n,
          p.call natives (n + 1) "doze" [] = .waits ∧ p.call natives n "main" [] = .unfinished) ∧
    ∃ table p log, supper.signatures = .ok table ∧ supper.generate table [] = .ok (p, log) ∧
      ∃ r, p.routine? "share" = some r ∧ r.isSync = true ∧ r.isNative = false ∧
        r.ops.any (·.op.startsChild) = false ∧ ∀ (natives : Natives Unit) n,
          p.call natives (n + 2) "share" [.truth true] = .waits := by
  have hdoze : siesta.made.2.routine? "doze" = some dozing := by
    rw [Program.routine?,routines_siesta]
    rfl
  have hmain : siesta.made.2.routine? "main" = some dozingMain := by
    rw [Program.routine?,routines_siesta]
    rfl
  have hwaits : ∀ (natives : Natives Unit) (n : Nat), siesta.made.2.call natives (n + 1) "doze"
      [] = .waits := by
    intro natives n
    rw [Program.call_of_generated hdoze rfl]
    rfl
  have hspins : ∀ (natives : Natives Unit) (n : Nat), siesta.made.2.call natives n "main" [] =
      .unfinished := by
    intro natives n
    cases n with
    | zero => rfl
    | succ n =>
      rw [Program.call_of_generated hmain rfl]
      cases n with
      | zero => rfl
      | succ n => exact dozingMain_spins (hwaits natives n) _
  have hblocked : ∀ (natives : Natives Unit) (n : Nat),
      supper.made.2.call natives (n + 2) "share" [.truth true] = .waits := by
    intro natives n
    rw [Program.call_of_generated routine?_supper rfl]
    rfl
  obtain ⟨hsiesta,log,hsiesta'⟩ := made_siesta
  obtain ⟨hsupper,log',hsupper'⟩ := made_supper
  exact ⟨⟨_, _, log, hsiesta, hsiesta', dozing, hdoze, rfl, rfl, rfl, fun natives n =>
    ⟨hwaits natives n, hspins natives n⟩⟩,
    _, _, log', hsupper, hsupper', sharing, routine?_supper, rfl, rfl, rfl, hblocked⟩

end Polled
