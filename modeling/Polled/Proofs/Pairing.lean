import Mathlib.Data.List.Forall2
import Mathlib.Data.Option.Basic
import Polled.Lowering.Draft
import Polled.Proofs.Printing

/-!
Two readings of one program.

A relation on spans pairs trees of the same shape (`SourceModule.Paired`). Two computations agree if
related states lead both to related results or both to related errors (`Agree`). Parser and lowering
agree with themselves on paired inputs, whatever the relation, as long as it is `Steady`.
-/

namespace Polled

open List

variable {e' : Expr} {s t : Span} {α : Type} {d e : Decl}

section Outcomes

variable {ε α β σ : Type}

/-- Both outcomes are results or both are errors, and the two are related. -/
inductive Alike (E : ε → ε → Prop) (V : α → α → Prop) : Except ε α → Except ε α → Prop
  | ok {a b : α} (h : V a b) : Alike E V (.ok a) (.ok b)
  | error {e e' : ε} (h : E e e') : Alike E V (.error e) (.error e')

variable {E E' : ε → ε → Prop} {V V' : α → α → Prop} {W : β → β → Prop}

theorem Alike.imp {x y : Except ε α} (h : Alike E V x y) (hE : ∀ e e', E e e' → E' e e')
    (hV : ∀ a b, V a b → V' a b) : Alike E' V' x y := by
  cases h with
  | ok h => exact .ok (hV _ _ h)
  | error h => exact .error (hE _ _ h)

theorem Alike.exists_ok {a : α} {y : Except ε α} (h : Alike E V (.ok a) y) : ∃ b, y = .ok b ∧ V a b := by
  cases h with
  | ok h => exact ⟨_, rfl, h⟩

theorem Alike.bind {x y : Except ε α} {f g : α → Except ε β} (h : Alike E V x y)
    (hfg : ∀ a b, V a b → Alike E W (f a) (g b)) : Alike E W (x >>= f) (y >>= g) := by
  cases h with
  | ok h => exact hfg _ _ h
  | error h => exact .error h

theorem Alike.foldlM {γ : Type} {P : γ → γ → Prop} {f g : α → γ → Except ε α} {xs ys : List γ}
    (h : Forall₂ P xs ys) (hfg : ∀ a b x y, V a b → P x y → Alike E V (f a x) (g b y)) {a b : α}
    (hab : V a b) :
    Alike E V (xs.foldlM f a) (ys.foldlM g b) := by
  induction h generalizing a b with
  | nil => exact .ok hab
  | cons hxy _ ih => exact (hfg a b _ _ hab hxy).bind fun _ _ => ih

/-- From related states, both computations end alike, with related results in related states. -/
def Agree (S : σ → σ → Prop) (E : ε → ε → Prop) (V : α → α → Prop)
    (x y : StateT σ (Except ε) α) : Prop :=
  ∀ ⦃s t⦄, S s t → Alike E (fun a b => V a.1 b.1 ∧ S a.2 b.2) (x s) (y t)

variable {S : σ → σ → Prop}

theorem Agree.pure {a b : α} (h : V a b) : Agree S E V (pure a) (pure b) := fun _ _ hs => .ok ⟨h, hs⟩

theorem Agree.bind {x y : StateT σ (Except ε) α} {f g : α → StateT σ (Except ε) β} (h : Agree S E V x y)
    (hfg : ∀ a b, V a b → Agree S E W (f a) (g b)) : Agree S E W (x >>= f) (y >>= g) := by
  intro s t hs
  exact (h hs).bind fun a b hab => hfg a.1 b.1 hab.1 hab.2

theorem Agree.bind_eq {x y : StateT σ (Except ε) α} {f g : α → StateT σ (Except ε) β}
    (h : Agree S E Eq x y) (hfg : ∀ a, Agree S E W (f a) (g a)) : Agree S E W (x >>= f) (y >>= g) :=
  h.bind fun a _ hab => hab ▸ hfg a

theorem Agree.ite (p : Prop) [Decidable p] {x y x' y' : StateT σ (Except ε) α} (h : Agree S E V x y)
    (h' : Agree S E V x' y') : Agree S E V (if p then x else x') (if p then y else y') := by
  split
  · exact h
  · exact h'

end Outcomes

section Trees

def Span.last (s : Span) : Span := ⟨s.stop - 1, s.stop, s.file⟩

/-- All that is done with places keeps the relation. -/
structure Steady (R : Span → Span → Prop) : Prop where
  after : ∀ {s t : Span}, R s t → R s.after t.after
  last : ∀ {s t : Span}, R s t → R s.last t.last
  cover : ∀ {s t u v : Span}, R s t → R u v → R (s.cover u) (t.cover v)
  orElse : ∀ {s t u v : Span}, R s t → R u v →
    R (if s.isNowhere then u else s) (if t.isNowhere then v else t)

def Anywhere (_ _ : Span) : Prop := True

theorem steady_anywhere : Steady Anywhere :=
  ⟨fun _ => trivial, fun _ => trivial, fun _ _ => trivial, fun _ _ => trivial⟩

variable (R : Span → Span → Prop)

structure Located.Paired {α : Type} (x y : Located α) : Prop where
  node : x.node = y.node
  span : R x.span y.span

mutual
inductive Expr.Paired : Expr → Expr → Prop
  | name {s t : Span} (x : String) (h : R s t) : Expr.Paired (.name s x) (.name t x)
  | truth {s t : Span} (value : Bool) (h : R s t) : Expr.Paired (.truth s value) (.truth t value)
  | integer {s t : Span} (value : Nat) (h : R s t) : Expr.Paired (.integer s value) (.integer t value)
  | text {s t : Span} (value : String) (h : R s t) : Expr.Paired (.text s value) (.text t value)
  | tuple {s t : Span} {items items' : List Expr} (h : R s t)
      (hitems : Forall₂ Expr.Paired items items') :
    Expr.Paired (.tuple s items) (.tuple t items')
  | call {s t : Span} {callee callee' : Located String} {args args' : List Arg} (h : R s t)
    (hcallee : callee.Paired R callee') (hargs : Forall₂ Arg.Paired args args') :
    Expr.Paired (.call s callee args) (.call t callee' args')
  | compare {s t : Span} {lhs lhs' rhs rhs' : Expr} (op : Comparison) (h : R s t)
      (hlhs : Expr.Paired lhs lhs')
    (hrhs : Expr.Paired rhs rhs') : Expr.Paired (.compare s op lhs rhs) (.compare t op lhs' rhs')

inductive Arg.Paired : Arg → Arg → Prop
  | thread {x y : Located String} (h : x.Paired R y) : Arg.Paired (.thread x) (.thread y)
  | value {e e' : Expr} (h : Expr.Paired e e') : Arg.Paired (.value e) (.value e')
end

mutual
inductive Stmt.Paired : Stmt → Stmt → Prop
  | bind {s t : Span} {names names' : List (Located String)} {value value' : Expr} (h : R s t)
    (hnames : Forall₂ (Located.Paired R) names names') (hvalue : value.Paired R value') :
    Stmt.Paired (.bind s names value) (.bind t names' value')
  | ret {s t : Span} {value value' : Option Expr} (h : R s t)
      (hvalue : Option.Rel (Expr.Paired R) value value') :
    Stmt.Paired (.ret s value) (.ret t value')
  | branch {s t : Span} {cond cond' : Expr} {onTrue onTrue' onFalse onFalse' : Block} (h : R s t)
    (hcond : cond.Paired R cond') (hTrue : Block.Paired onTrue onTrue')
      (hFalse : Block.Paired onFalse onFalse') :
    Stmt.Paired (.branch s cond onTrue onFalse) (.branch t cond' onTrue' onFalse')
  | loop {s t : Span} {cond cond' : Expr} {body body' : Block} (h : R s t) (hcond : cond.Paired R cond')
    (hbody : Block.Paired body body') : Stmt.Paired (.loop s cond body) (.loop t cond' body')
  | run {s t : Span} {e e' : Expr} (h : R s t) (he : e.Paired R e') : Stmt.Paired (.run s e) (.run t e')

inductive Block.Paired : Block → Block → Prop
  | mk {s t : Span} {stmts stmts' : List Stmt} (h : R s t) (hstmts : Forall₂ Stmt.Paired stmts stmts') :
    Block.Paired ⟨s, stmts⟩ ⟨t, stmts'⟩
end

structure Param.Paired (p q : Param) : Prop where
  name : p.name.Paired R q.name
  kind : p.kind.Paired R q.kind

structure Decl.Paired (d e : Decl) : Prop where
  span : R d.span e.span
  name : d.name.Paired R e.name
  isSync : d.isSync = e.isSync
  isNative : d.isNative = e.isNative
  params : Forall₂ (Param.Paired R) d.params e.params
  returns : Forall₂ (Located.Paired R) d.returns e.returns
  body : Option.Rel (Block.Paired R) d.body e.body

structure SourceModule.Paired (m n : SourceModule) : Prop where
  imports : Forall₂ (Located.Paired R) m.imports n.imports
  functions : Forall₂ (Decl.Paired R) m.functions n.functions

/-- The same error at related places. -/
inductive CompileError.Paired : CompileError → CompileError → Prop
  | source {s t : Span} (fault : SourceFault) (h : R s t) : CompileError.Paired (.source fault s)
      (.source fault t)
  | program (fault : ProgramFault) : CompileError.Paired (.program fault) (.program fault)
  | inFunction {e e' : CompileError} (name : String) (h : CompileError.Paired e e') :
    CompileError.Paired (.inFunction name e) (.inFunction name e')

structure Halt.Paired (h k : Halt) : Prop where
  error : h.error.Paired R k.error
  log : h.log = k.log

end Trees

section Parts

variable {R : Span → Span → Prop}

theorem Expr.Paired.span {e : Expr} (h : e.Paired R e') : R e.span e'.span := by
  cases h <;> assumption

theorem Expr.Paired.placed {e : Expr} (h : e.Paired R e') (hs : R s t) :
    (e.placed s).Paired R (e'.placed t) := by
  cases h with
  | name x => exact .name x hs
  | truth value => exact .truth value hs
  | integer value => exact .integer value hs
  | text value => exact .text value hs
  | tuple _ hitems => exact .tuple hs hitems
  | call _ hcallee hargs => exact .call hs hcallee hargs
  | compare op _ hlhs hrhs => exact .compare op hs hlhs hrhs

theorem Stmt.Paired.span {s s' : Stmt} (h : s.Paired R s') : R s.span s'.span := by
  cases h <;> assumption

theorem Block.Paired.span {b b' : Block} (h : b.Paired R b') : R b.span b'.span := by
  cases h
  assumption

theorem map_eq_of_forall₂ {β : Type} {P : α → α → Prop} {f : α → β} {xs ys : List α}
    (h : Forall₂ P xs ys) (hf : ∀ x y, P x y → f x = f y) : xs.map f = ys.map f := by
  induction h with
  | nil => rfl
  | cons hxy _ ih => rw [map_cons,map_cons,hf _ _ hxy,ih]

theorem map_node_eq {xs ys : List (Located α)} (h : Forall₂ (Located.Paired R) xs ys) :
    xs.map (·.node) = ys.map (·.node) :=
  map_eq_of_forall₂ h fun _ _ hxy => hxy.node

theorem Decl.Paired.typedParams_eq (h : d.Paired R e) : d.typedParams = e.typedParams :=
  map_eq_of_forall₂ h.params fun _ _ hp => by rw [hp.name.node,hp.kind.node]

theorem Decl.Paired.returnKinds_eq (h : d.Paired R e) : d.returnKinds = e.returnKinds :=
  map_node_eq h.returns

namespace CompileError.Paired

variable {e e' : CompileError}

section

variable (h : e.Paired R e')

include h

theorem category_eq : e.category = e'.category := by
  induction h with
  | source fault => rfl
  | program fault => rfl
  | inFunction name _ ih => exact ih

theorem message_eq : e.message = e'.message := by
  induction h with
  | source fault => rfl
  | program fault => rfl
  | inFunction name _ ih => rw [message,message,ih]

theorem span? : Option.Rel R e.span? e'.span? := by
  induction h with
  | source fault h => exact .some h
  | program fault => exact .none
  | inFunction name _ ih => exact ih

theorem imp {Q : Span → Span → Prop} (hRQ : ∀ s t, R s t → Q s t) : e.Paired Q e' := by
  induction h with
  | source fault h => exact .source fault (hRQ _ _ h)
  | program fault => exact .program fault
  | inFunction name _ ih => exact .inFunction name ih

end

theorem withPlace (hR : Steady R) (h : e.Paired R e') (hs : R s t) :
    (e.withPlace s).Paired R (e'.withPlace t) := by
  induction h with
  | source fault h => exact .source fault (hR.orElse h hs)
  | program fault => exact .program fault
  | inFunction name _ ih => exact .inFunction name ih

end CompileError.Paired

end Parts

section Unplaced

variable {R : Span → Span → Prop}

theorem Located.Paired.unplaced {x y : Located α} (h : x.Paired R y) : x.unplaced = y.unplaced := by
  rw [Located.unplaced,Located.unplaced,h.node]

mutual
theorem Expr.Paired.unplaced {e e' : Expr} (h : e.Paired R e') : e.unplaced = e'.unplaced := by
  match e, e', h with
  | _, _, .name x _ | _, _, .truth value _ | _, _, .integer value _ | _, _, .text value _ => rfl
  | .tuple _ items, _, .tuple _ hitems => rw [Expr.unplaced,Expr.unplaced,unplacedExprs_of_paired hitems]
  | .call _ _ args, _, .call _ hcallee hargs =>
    rw [Expr.unplaced,Expr.unplaced,hcallee.unplaced,unplacedArgs_of_paired hargs]
  | .compare _ _ lhs rhs, _, .compare op _ hlhs hrhs =>
    rw [Expr.unplaced,Expr.unplaced,hlhs.unplaced,hrhs.unplaced]

theorem unplacedExprs_of_paired {es es' : List Expr} (h : Forall₂ (Expr.Paired R) es es') :
    unplacedExprs es = unplacedExprs es' := by
  match es, es', h with
  | _, _, .nil => rfl
  | e :: es, _, .cons he hes => rw [unplacedExprs,unplacedExprs,he.unplaced,unplacedExprs_of_paired hes]

theorem unplacedArgs_of_paired {as as' : List Arg} (h : Forall₂ (Arg.Paired R) as as') :
    unplacedArgs as = unplacedArgs as' := by
  match as, as', h with
  | _, _, .nil => rfl
  | .thread x :: as, _, .cons (.thread hx) has =>
    rw [unplacedArgs,unplacedArgs,hx.unplaced,unplacedArgs_of_paired has]
  | .value e :: as, _, .cons (.value he) has =>
    rw [unplacedArgs,unplacedArgs,he.unplaced,unplacedArgs_of_paired has]
end

mutual
theorem Stmt.Paired.unplaced {s s' : Stmt} (h : s.Paired R s') : s.unplaced = s'.unplaced := by
  match s, s', h with
  | _, _, .bind _ hnames hvalue =>
    rw [Stmt.unplaced,Stmt.unplaced,hvalue.unplaced,map_eq_of_forall₂ hnames fun _ _ =>
      Located.Paired.unplaced]
  | _, _, .ret _ .none => rfl
  | _, _, .ret _ (.some hvalue) => rw [Stmt.unplaced,Stmt.unplaced,hvalue.unplaced]
  | .branch _ _ t e, _, .branch _ hcond hTrue hFalse =>
    rw [Stmt.unplaced,Stmt.unplaced,hcond.unplaced,hTrue.unplaced,hFalse.unplaced]
  | .loop _ _ body, _, .loop _ hcond hbody =>
    rw [Stmt.unplaced,Stmt.unplaced,hcond.unplaced,hbody.unplaced]
  | _, _, .run _ he => rw [Stmt.unplaced,Stmt.unplaced,he.unplaced]

theorem Block.Paired.unplaced {b b' : Block} (h : b.Paired R b') : b.unplaced = b'.unplaced := by
  match b, b', h with
  | ⟨_, stmts⟩, _, .mk _ hstmts => rw [Block.unplaced,Block.unplaced,unplacedStmts_of_paired hstmts]

theorem unplacedStmts_of_paired {ss ss' : List Stmt} (h : Forall₂ (Stmt.Paired R) ss ss') :
    unplacedStmts ss = unplacedStmts ss' := by
  match ss, ss', h with
  | _, _, .nil => rfl
  | s :: ss, _, .cons hs hss => rw [unplacedStmts,unplacedStmts,hs.unplaced,unplacedStmts_of_paired hss]
end

theorem Decl.Paired.unplaced (h : d.Paired R e) : d.unplaced = e.unplaced := by
  have hparams : d.params.map Param.unplaced = e.params.map Param.unplaced :=
    map_eq_of_forall₂ h.params fun p q hpq => by
      rw [Param.unplaced,Param.unplaced,hpq.name.unplaced,hpq.kind.unplaced]
  have hreturns : d.returns.map Located.unplaced = e.returns.map Located.unplaced :=
    map_eq_of_forall₂ h.returns fun _ _ => Located.Paired.unplaced
  have hbody : d.body.map Block.unplaced = e.body.map Block.unplaced := by
    obtain ⟨_,_,_,_,_,_,body⟩ := d
    obtain ⟨_,_,_,_,_,_,_⟩ := e
    cases h.body with
    | none => rfl
    | some hblock => exact congrArg some hblock.unplaced
  rw [Decl.unplaced,Decl.unplaced,h.name.unplaced,h.isSync,h.isNative,hparams,hreturns,hbody]

theorem SourceModule.Paired.unplaced {m n : SourceModule} (h : m.Paired R n) :
    m.unplaced = n.unplaced := by
  rw [SourceModule.unplaced,SourceModule.unplaced,map_eq_of_forall₂ h.imports fun _ _ =>
    Located.Paired.unplaced, map_eq_of_forall₂ h.functions fun _ _ => Decl.Paired.unplaced]

theorem Located.paired_unplaced (x : Located α) : x.Paired Anywhere x.unplaced := ⟨rfl, trivial⟩

theorem forall₂_map {P : α → α → Prop} {f : α → α} (h : ∀ x, P x (f x)) (xs : List α) :
    Forall₂ P xs (xs.map f) :=
  forall₂_map_right_iff.2 (forall₂_same.2 fun x _ => h x)

mutual
theorem Expr.paired_unplaced : (e : Expr) → e.Paired Anywhere e.unplaced
  | .name _ x => .name x trivial
  | .truth _ value => .truth value trivial
  | .integer _ value => .integer value trivial
  | .text _ value => .text value trivial
  | .tuple _ items => .tuple trivial (paired_unplacedExprs items)
  | .call _ callee args => .call trivial callee.paired_unplaced (paired_unplacedArgs args)
  | .compare _ op lhs rhs => .compare op trivial lhs.paired_unplaced rhs.paired_unplaced

theorem paired_unplacedExprs : (es : List Expr) → Forall₂ (Expr.Paired Anywhere) es (unplacedExprs es)
  | [] => .nil
  | e :: es => .cons e.paired_unplaced (paired_unplacedExprs es)

theorem paired_unplacedArgs : (as : List Arg) → Forall₂ (Arg.Paired Anywhere) as (unplacedArgs as)
  | [] => .nil
  | .thread x :: as => .cons (.thread x.paired_unplaced) (paired_unplacedArgs as)
  | .value e :: as => .cons (.value e.paired_unplaced) (paired_unplacedArgs as)
end

mutual
theorem Stmt.paired_unplaced : (s : Stmt) → s.Paired Anywhere s.unplaced
  | .bind _ names value =>
    .bind trivial (forall₂_map Located.paired_unplaced names) value.paired_unplaced
  | .ret _ none => .ret trivial .none
  | .ret _ (some value) => .ret trivial (.some value.paired_unplaced)
  | .branch _ cond t e => .branch trivial cond.paired_unplaced t.paired_unplaced e.paired_unplaced
  | .loop _ cond body => .loop trivial cond.paired_unplaced body.paired_unplaced
  | .run _ e => .run trivial e.paired_unplaced

theorem Block.paired_unplaced : (b : Block) → b.Paired Anywhere b.unplaced
  | ⟨_, stmts⟩ => .mk trivial (paired_unplacedStmts stmts)

theorem paired_unplacedStmts : (ss : List Stmt) → Forall₂ (Stmt.Paired Anywhere) ss (unplacedStmts ss)
  | [] => .nil
  | s :: ss => .cons s.paired_unplaced (paired_unplacedStmts ss)
end

theorem Decl.paired_unplaced (d : Decl) : d.Paired Anywhere d.unplaced where
  span := trivial
  name := d.name.paired_unplaced
  isSync := rfl
  isNative := rfl
  params := forall₂_map (f := Param.unplaced)
    (fun p => ⟨p.name.paired_unplaced, p.kind.paired_unplaced⟩) d.params
  returns := forall₂_map Located.paired_unplaced d.returns
  body := by
    rw [Decl.unplaced]
    cases d.body with
    | none => exact .none
    | some b => exact .some b.paired_unplaced

end Unplaced

end Polled
