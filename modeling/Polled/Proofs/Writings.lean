import Mathlib.Data.List.Forall2
import Polled.Proofs.Printing

/-!
The ways to write a module.

Any expression may stand in parentheses, and so may a kind that is the only one that a function returns,
and an empty `else` may be left out. Apart from that, no way has other tokens than the printed form
(`SourceModule.Written.bearing_eq`).
-/

namespace Polled

open List

variable {ts : List Token} {parts : List (List Token)} {d : Decl} {t : Token} {m : SourceModule}

def Expr.isComparison : Expr → Bool
  | .compare _ _ _ _ => true
  | _ => false

mutual
/-- The tokens are a way to write the expression. -/
inductive Expr.Written : Expr → List Token → Prop
  | name (span : Span) (x : String) : Expr.Written (.name span x) [.name x]
  | truth (span : Span) (value : Bool) :
    Expr.Written (.truth span value) [.keyword (if value then .trueKw else .falseKw)]
  | integer (span : Span) (value : Nat) : Expr.Written (.integer span value) [.integer value]
  | text (span : Span) (value : String) : Expr.Written (.text span value) [.text value]
  | tuple (span : Span) {items : List Expr} {parts : List (List Token)} (hlength : items.length ≠ 1)
    (hitems : WrittenExprs items parts) : Expr.Written (.tuple span items) (inParens (commas parts))
  | call (span : Span) (callee : Located String) {args : List Arg} {parts : List (List Token)}
    (hargs : WrittenArgs args parts) :
    Expr.Written (.call span callee args) (.name callee.node :: inParens (commas parts))
  | compare (span : Span) (op : Comparison) {lhs rhs : Expr} {ts us : List Token}
      (hlhs : WrittenOperand lhs ts)
    (hrhs : WrittenOperand rhs us) : Expr.Written (.compare span op lhs rhs) (ts ++ .mark op.mark :: us)
  | parens {e : Expr} {ts : List Token} (h : Expr.Written e ts) : Expr.Written e (inParens ts)

/-- A comparison needs parentheses inside of another one. -/
inductive WrittenOperand : Expr → List Token → Prop
  | plain {e : Expr} {ts : List Token} (hno : e.isComparison = false) (h : Expr.Written e ts) :
      WrittenOperand e ts
  | parens {e : Expr} {ts : List Token} (h : Expr.Written e ts) : WrittenOperand e (inParens ts)

inductive WrittenExprs : List Expr → List (List Token) → Prop
  | nil : WrittenExprs [] []
  | cons {e : Expr} {es : List Expr} {ts : List Token} {parts : List (List Token)}
      (h : Expr.Written e ts)
    (hrest : WrittenExprs es parts) : WrittenExprs (e :: es) (ts :: parts)

inductive WrittenArgs : List Arg → List (List Token) → Prop
  | nil : WrittenArgs [] []
  | thread (x : Located String) {as : List Arg} {parts : List (List Token)}
      (hrest : WrittenArgs as parts) :
    WrittenArgs (.thread x :: as) ([.mark .ampersand, .name x.node] :: parts)
  | value {e : Expr} {as : List Arg} {ts : List Token} {parts : List (List Token)}
      (h : Expr.Written e ts)
    (hrest : WrittenArgs as parts) : WrittenArgs (.value e :: as) (ts :: parts)
end

theorem Expr.Written.placed {span : Span} {e : Expr} {ts : List Token} :
    e.Written ts → (e.placed span).Written ts
  | .name _ x => .name span x
  | .truth _ value => .truth span value
  | .integer _ value => .integer span value
  | .text _ value => .text span value
  | .tuple _ hlength hitems => .tuple span hlength hitems
  | .call _ callee hargs => .call span callee hargs
  | .compare _ op hlhs hrhs => .compare span op hlhs hrhs
  | .parens h => .parens h.placed

theorem writtenExprs_of_forall₂ {es : List Expr} (h : Forall₂ Expr.Written es parts) :
    WrittenExprs es parts := by
  induction h with
  | nil => exact .nil
  | cons he _ ih => exact .cons he ih

/-- The tokens are a way to write the argument. -/
def Arg.Written : Arg → List Token → Prop
  | .thread x, ts => ts = [.mark .ampersand, .name x.node]
  | .value e, ts => e.Written ts

theorem writtenArgs_of_forall₂ {as : List Arg} (h : Forall₂ Arg.Written as parts) :
    WrittenArgs as parts := by
  induction h with
  | nil => exact .nil
  | @cons a ts _ _ ha _ ih =>
    cases a with
    | thread x =>
      obtain rfl : ts = _ := ha
      exact .thread x ih
    | value e => exact .value ha ih

mutual
/-- The tokens are a way to write the statement. An empty `else` may be missing. -/
inductive Stmt.Written : Stmt → List Token → Prop
  | bind (span : Span) {names : List (Located String)} {value : Expr} {ts : List Token}
      (hnames : names ≠ [])
    (hvalue : value.Written ts) : Stmt.Written (.bind span names value)
      (.keyword .letKw :: commas (names.map fun x => [.name x.node]) ++ .mark .assign :: ts)
  | bareReturn (span : Span) : Stmt.Written (.ret span none) [.keyword .returnKw]
  | ret (span : Span) {value : Expr} {ts : List Token} (hvalue : value.Written ts) :
    Stmt.Written (.ret span (some value)) (.keyword .returnKw :: ts)
  | branch (span : Span) {cond : Expr} {t e : Block} {ts us vs : List Token} (hcond : cond.Written ts)
    (ht : Block.Written t us) (he : Block.Written e vs) :
    Stmt.Written (.branch span cond t e) (.keyword .ifKw :: ts ++ us ++ .keyword .elseKw :: vs)
  | branchOnly (span place : Span) {cond : Expr} {t : Block} {ts us : List Token}
      (hcond : cond.Written ts)
    (ht : Block.Written t us) : Stmt.Written (.branch span cond t ⟨place, []⟩)
      (.keyword .ifKw :: ts ++ us)
  | loop (span : Span) {cond : Expr} {body : Block} {ts us : List Token} (hcond : cond.Written ts)
    (hbody : Block.Written body us) : Stmt.Written (.loop span cond body) (.keyword .whileKw :: ts ++ us)
  | run (span : Span) {e : Expr} {ts : List Token} (h : e.Written ts) : Stmt.Written (.run span e) ts

inductive Block.Written : Block → List Token → Prop
  | mk (span : Span) {stmts : List Stmt} {ts : List Token} (h : WrittenStmts stmts ts) :
    Block.Written ⟨span, stmts⟩ (.mark .openBrace :: ts ++ [.mark .closeBrace])

/-- Nothing follows a `return` without a value. -/
inductive WrittenStmts : List Stmt → List Token → Prop
  | nil : WrittenStmts [] []
  | cons {s : Stmt} {ss : List Stmt} {ts us : List Token} (h : Stmt.Written s ts)
    (hlast : s.isBareReturn = true → ss = []) (hrest : WrittenStmts ss us) :
      WrittenStmts (s :: ss) (ts ++ us)
end

/-- A single kind needs no parentheses. -/
inductive WrittenReturns : List (Located Kind) → List Token → Prop
  | single (k : Located Kind) : WrittenReturns [k] k.node.tokens
  | parens (ks : List (Located Kind)) : WrittenReturns ks (inParens (commas (ks.map (·.node.tokens))))

/-- Native functions have no body, and all others have one. -/
inductive WrittenBody : Bool → Option Block → List Token → Prop
  | native : WrittenBody true none []
  | block {b : Block} {ts : List Token} (h : b.Written ts) : WrittenBody false (some b) ts

inductive Decl.Written : Decl → List Token → Prop
  | mk {d : Decl} {ts us : List Token} (hparams : ∀ p ∈ d.params, p.kind.node.wellFormed = true)
    (hreturns : ∀ k ∈ d.returns, k.node.wellFormed = true) (hkinds : WrittenReturns d.returns ts)
    (hbody : WrittenBody d.isNative d.body us) : Decl.Written d
      ((if d.isSync then [.keyword .syncKw] else []) ++
        (if d.isNative then [.keyword .nativeKw] else []) ++
        .keyword .funcKw :: .name d.name.node :: inParens (commas (d.params.map Param.tokens)) ++
        .mark .colon :: ts ++ us)

theorem Decl.Written.length_pos (h : d.Written ts) : 0 < ts.length := by
  cases h
  simp only [length_append,length_cons]
  omega

/-- The tokens are a way to write the module. -/
def SourceModule.Written (m : SourceModule) (ts : List Token) : Prop :=
  ∃ parts, Forall₂ Decl.Written m.functions parts ∧
    ts = m.imports.flatMap (fun x => [.keyword .importKw, .name x.node]) ++ parts.flatten

def Writable (ts : List Token) : Prop := ∀ t ∈ ts, t.writable = true

namespace Writable

variable {us : List Token}

@[simp] theorem cons_iff : Writable (t :: ts) ↔ t.writable = true ∧ Writable ts := forall_mem_cons

@[simp] theorem append_iff : Writable (ts ++ us) ↔ Writable ts ∧ Writable us := forall_mem_append

@[simp] theorem nil : Writable [] := forall_mem_nil _

@[simp] theorem inParens_iff : Writable (inParens ts) ↔ Writable ts := by simp [inParens,Token.writable]

@[simp] theorem commas_iff (parts : List (List Token)) :
    Writable (commas parts) ↔ ∀ part ∈ parts, Writable part := by
  fun_induction commas parts with
  | case1 => simp
  | case2 part => simp
  | case3 part next parts ih => simp [ih,Token.writable]

end Writable

variable {ks : List (Located Kind)}

section WellFormed

mutual
theorem Kind.writable_tokens : (k : Kind) → Writable k.tokens
  | ⟨borrowed, family, args⟩ => by
    have hfamily : isIdentifier family.name = true := by cases family <;> decide
    have hargs : Writable (commas (tokensOfKinds args)) :=
      (Writable.commas_iff _).2 (writable_tokensOfKinds args)
    cases borrowed <;> cases args <;>
      simp [Kind.tokens,Token.writable,hfamily,hargs,-Writable.commas_iff]

theorem writable_tokensOfKinds : (ks : List Kind) → ∀ part ∈ tokensOfKinds ks, Writable part
  | [] => by simp [tokensOfKinds]
  | k :: ks => forall_mem_cons.2 ⟨k.writable_tokens, writable_tokensOfKinds ks⟩
end

mutual
theorem Expr.Written.writable_iff {e : Expr} {ts : List Token} :
    e.Written ts → (Writable ts ↔ e.wellFormed = true)
  | .name span x | .truth span value | .integer span value | .text span value => by
    simp [Expr.wellFormed,Token.writable]
  | .tuple span hlength hitems => by simp [Expr.wellFormed,hlength,hitems.writable_iff]
  | .call span callee hargs => by simp [Expr.wellFormed,Token.writable,hargs.writable_iff]
  | .compare span op hlhs hrhs => by
      simp [Expr.wellFormed,Token.writable,hlhs.writable_iff,hrhs.writable_iff]
  | .parens he => Writable.inParens_iff.trans he.writable_iff

theorem WrittenOperand.writable_iff {e : Expr} {ts : List Token} :
    WrittenOperand e ts → (Writable ts ↔ e.wellFormed = true)
  | .plain _ he => he.writable_iff
  | .parens he => Writable.inParens_iff.trans he.writable_iff

theorem WrittenExprs.writable_iff {es : List Expr} {parts : List (List Token)} :
    WrittenExprs es parts → ((∀ part ∈ parts, Writable part) ↔ wellFormedExprs es = true)
  | .nil => by simp [wellFormedExprs]
  | .cons he hrest => by
    rw [forall_mem_cons,he.writable_iff,hrest.writable_iff,wellFormedExprs,Bool.and_eq_true]

theorem WrittenArgs.writable_iff {as : List Arg} {parts : List (List Token)} :
    WrittenArgs as parts → ((∀ part ∈ parts, Writable part) ↔ wellFormedArgs as = true)
  | .nil => by simp [wellFormedArgs]
  | .thread x hrest => by
    rw [forall_mem_cons,hrest.writable_iff,wellFormedArgs,Bool.and_eq_true]
    simp [Token.writable]
  | .value he hrest => by
    rw [forall_mem_cons,he.writable_iff,hrest.writable_iff,wellFormedArgs,Bool.and_eq_true]
end

mutual
theorem Stmt.Written.writable_iff {s : Stmt} {ts : List Token} :
    s.Written ts → (Writable ts ↔ s.wellFormed = true)
  | .bind span hnames hvalue => by simp [Stmt.wellFormed,Token.writable,hvalue.writable_iff,hnames]
  | .bareReturn span => by simp [Stmt.wellFormed,Token.writable]
  | .ret span hvalue => by simp [Stmt.wellFormed,Token.writable,hvalue.writable_iff]
  | .branch span hcond ht he => by
    simp [Stmt.wellFormed,Token.writable,hcond.writable_iff,ht.writable_iff,he.writable_iff,and_assoc]
  | .branchOnly span place hcond ht => by
    simp [Stmt.wellFormed,Block.wellFormed,wellFormedStmts,Token.writable,hcond.writable_iff,
      ht.writable_iff]
  | .loop span hcond hbody => by
      simp [Stmt.wellFormed,Token.writable,hcond.writable_iff,hbody.writable_iff]
  | .run span he => he.writable_iff

theorem Block.Written.writable_iff {b : Block} {ts : List Token} :
    b.Written ts → (Writable ts ↔ b.wellFormed = true)
  | .mk span hstmts => by simp [Block.wellFormed,Token.writable,hstmts.writable_iff]

theorem WrittenStmts.writable_iff {ss : List Stmt} {ts : List Token} :
    WrittenStmts ss ts → (Writable ts ↔ wellFormedStmts ss = true)
  | .nil => by simp [wellFormedStmts]
  | @WrittenStmts.cons s ss _ _ hs hlast hrest => by
    have hend : (!s.isBareReturn || ss.isEmpty) = true := by simpa [or_iff_not_imp_left] using hlast
    rw [Writable.append_iff,hs.writable_iff,hrest.writable_iff,wellFormedStmts,hend,Bool.and_true,
      Bool.and_eq_true]
end

theorem WrittenReturns.writable (h : WrittenReturns ks ts) : Writable ts := by
  cases h with
  | single k => exact k.node.writable_tokens
  | parens ks => simp [Kind.writable_tokens]

theorem WrittenBody.writable_iff {native : Bool} {body : Option Block} (h : WrittenBody native body ts) :
    (Writable ts ↔ body.all Block.wellFormed = true) ∧ body.isNone = native := by
  cases h with
  | native => simp
  | block hb => exact ⟨hb.writable_iff, rfl⟩

theorem Decl.Written.writable_iff (h : d.Written ts) : Writable ts ↔ d.wellFormed = true := by
  obtain ⟨hparams,hreturns,hkinds,hbody⟩ := h
  obtain ⟨hbody,hnative⟩ := hbody.writable_iff
  have hflag (b : Bool) (k : Keyword) : Writable (if b then [.keyword k] else []) := by
    cases b <;> simp [Token.writable]
  have hlist : (∀ p ∈ d.params, Writable p.tokens) ↔ d.params.all Param.wellFormed = true := by
    rw [all_eq_true]
    refine forall₂_congr fun p hp => ?_
    simp [Param.tokens,Param.wellFormed,Token.writable,Kind.writable_tokens,hparams p hp]
  have hreturns : d.returns.all (·.node.wellFormed) = true := all_eq_true.2 hreturns
  simp only [Decl.wellFormed,hnative,hreturns,Bool.and_eq_true,← hlist,← hbody]
  simp [Token.writable,hflag,hkinds.writable,and_assoc]

/-- What is well formed can be written, and nothing else can. -/
theorem SourceModule.Written.writable_iff (h : m.Written ts) : Writable ts ↔ m.wellFormed = true := by
  obtain ⟨parts,hparts,rfl⟩ := h
  have himports : Writable (m.imports.flatMap fun x => [.keyword .importKw, .name x.node]) ↔
      m.imports.all (isIdentifier ·.node) = true := by
    induction m.imports with
    | nil => simp
    | cons x xs ih =>
      rw [flatMap_cons,Writable.append_iff,ih,all_cons,Bool.and_eq_true]
      simp [Token.writable]
  have hfunctions : Writable parts.flatten ↔ m.functions.all Decl.wellFormed = true := by
    generalize m.functions = ds at hparts
    induction hparts with
    | nil => simp
    | cons hd _ ih =>
      rw [flatten_cons,Writable.append_iff,hd.writable_iff,ih,all_cons,Bool.and_eq_true]
  rw [Writable.append_iff,himports,hfunctions,SourceModule.wellFormed,Bool.and_eq_true]

end WellFormed

section Printed

mutual
theorem Expr.written_tokens : (e : Expr) → e.wellFormed = true → e.Written e.tokens
  | .name span x, _ => .parens (.name span x)
  | .truth span value, _ => .truth span value
  | .integer span value, _ => .integer span value
  | .text span value, _ => .text span value
  | .tuple span items, h => by
    rw [Expr.wellFormed,Bool.and_eq_true,bne_iff_ne] at h
    exact .tuple span h.1 (writtenExprs_tokens items h.2)
  | .call span callee args, h => by
    rw [Expr.wellFormed,Bool.and_eq_true] at h
    exact .call span callee (writtenArgs_tokens args h.2)
  | .compare span op lhs rhs, h => by
    rw [Expr.wellFormed,Bool.and_eq_true] at h
    exact .compare span op (.parens (lhs.written_tokens h.1)) (.parens (rhs.written_tokens h.2))

theorem writtenExprs_tokens :
    (es : List Expr) → wellFormedExprs es = true → WrittenExprs es (tokensOfExprs es)
  | [], _ => .nil
  | e :: es, h => by
    rw [wellFormedExprs,Bool.and_eq_true] at h
    exact .cons (e.written_tokens h.1) (writtenExprs_tokens es h.2)

theorem writtenArgs_tokens :
    (as : List Arg) → wellFormedArgs as = true → WrittenArgs as (tokensOfArgs as)
  | [], _ => .nil
  | .thread x :: as, h => by
    rw [wellFormedArgs,Bool.and_eq_true] at h
    exact .thread x (writtenArgs_tokens as h.2)
  | .value e :: as, h => by
    rw [wellFormedArgs,Bool.and_eq_true] at h
    exact .value (e.written_tokens h.1) (writtenArgs_tokens as h.2)
end

mutual
theorem Stmt.written_tokens : (s : Stmt) → s.wellFormed = true → s.Written s.tokens
  | .bind span names value, h => by
    rw [Stmt.wellFormed,Bool.and_eq_true,Bool.and_eq_true] at h
    exact .bind span (by simpa using h.1.1) (value.written_tokens h.2)
  | .ret span none, _ => .bareReturn span
  | .ret span (some value), h => .ret span (value.written_tokens h)
  | .branch span cond t e, h => by
    rw [Stmt.wellFormed,Bool.and_eq_true,Bool.and_eq_true] at h
    exact .branch span (cond.written_tokens h.1.1) (t.written_tokens h.1.2) (e.written_tokens h.2)
  | .loop span cond body, h => by
    rw [Stmt.wellFormed,Bool.and_eq_true] at h
    exact .loop span (cond.written_tokens h.1) (body.written_tokens h.2)
  | .run span e, h => .run span (e.written_tokens h)

theorem Block.written_tokens : (b : Block) → b.wellFormed = true → b.Written b.tokens
  | ⟨span, stmts⟩, h => .mk span (writtenStmts_tokens stmts h)

theorem writtenStmts_tokens :
    (ss : List Stmt) → wellFormedStmts ss = true → WrittenStmts ss (tokensOfStmts ss)
  | [], _ => .nil
  | s :: ss, h => by
    rw [wellFormedStmts,Bool.and_eq_true,Bool.and_eq_true,Bool.or_eq_true] at h
    refine .cons (s.written_tokens h.1.1) (fun hbare => ?_) (writtenStmts_tokens ss h.2)
    simpa [hbare] using h.1.2
end

theorem Decl.written_tokens (d : Decl) (h : d.wellFormed = true) : d.Written d.tokens := by
  simp only [Decl.wellFormed,Bool.and_eq_true,all_eq_true,beq_iff_eq] at h
  obtain ⟨⟨⟨⟨-,hparams⟩,hreturns⟩,hblock⟩,hnative⟩ := h
  have hbody : WrittenBody d.isNative d.body ((d.body.map Block.tokens).getD []) := by
    rw [← hnative]
    cases hb : d.body with
    | none => exact .native
    | some b =>
      rw [hb] at hblock
      exact .block (b.written_tokens hblock)
  exact .mk (fun p hp => (Bool.and_eq_true_iff.1 (hparams p hp)).2) hreturns (.parens d.returns) hbody

theorem SourceModule.written_tokens (m : SourceModule) (h : m.wellFormed = true) :
    m.Written m.tokens := by
  rw [SourceModule.wellFormed,Bool.and_eq_true,all_eq_true,all_eq_true] at h
  refine ⟨m.functions.map Decl.tokens, ?_, by rw [SourceModule.tokens,flatMap_def (f := Decl.tokens)]⟩
  rw [forall₂_map_right_iff,forall₂_same]
  exact fun d hd => d.written_tokens (h.2 d hd)

end Printed

section Bearing

/-- Tokens that do more than to hold others together. -/
def Token.bearing : Token → Bool
  | .mark .openParen | .mark .closeParen | .mark .openBrace | .mark .closeBrace | .keyword .elseKw =>
    false
  | _ => true

def bearing (ts : List Token) : List Token := ts.filter Token.bearing

theorem bearing_append (ts us : List Token) : bearing (ts ++ us) = bearing ts ++ bearing us :=
  filter_append ..

theorem bearing_cons (t : Token) (ts : List Token) :
    bearing (t :: ts) = if t.bearing then t :: bearing ts else bearing ts :=
  filter_cons

theorem bearing_inParens (ts : List Token) : bearing (inParens ts) = bearing ts := by
  rw [inParens,bearing_append]
  exact append_nil _

theorem bearing_commas (parts : List (List Token)) :
    bearing (commas parts) = commas (parts.map bearing) := by
  fun_induction commas parts with
  | case1 => rfl
  | case2 part => rfl
  | case3 part next parts ih =>
    rw [bearing_append,bearing_cons,ih]
    rfl

mutual
theorem Expr.Written.bearing_eq {e : Expr} {ts : List Token} :
    e.Written ts → bearing ts = bearing e.tokens
  | .name span x => (bearing_inParens _).symm
  | .truth span value => rfl
  | .integer span value => rfl
  | .text span value => rfl
  | .tuple span hlength hitems => by
    rw [Expr.tokens,bearing_inParens,bearing_inParens,bearing_commas,bearing_commas,hitems.bearing_eq]
  | .call span callee hargs => by
    rw [Expr.tokens,bearing_cons,bearing_cons,bearing_inParens,bearing_inParens,bearing_commas,
      bearing_commas, hargs.bearing_eq]
  | .compare span op hlhs hrhs => by
    rw [Expr.tokens,bearing_append,bearing_append,bearing_cons,bearing_cons,bearing_inParens,
      bearing_inParens, hlhs.bearing_eq,hrhs.bearing_eq]
  | .parens he => (bearing_inParens _).trans he.bearing_eq

theorem WrittenOperand.bearing_eq {e : Expr} {ts : List Token} :
    WrittenOperand e ts → bearing ts = bearing e.tokens
  | .plain _ he => he.bearing_eq
  | .parens he => (bearing_inParens _).trans he.bearing_eq

theorem WrittenExprs.bearing_eq {es : List Expr} {parts : List (List Token)} :
    WrittenExprs es parts → parts.map bearing = (tokensOfExprs es).map bearing
  | .nil => rfl
  | .cons he hrest => by rw [tokensOfExprs,map_cons,map_cons,he.bearing_eq,hrest.bearing_eq]

theorem WrittenArgs.bearing_eq {as : List Arg} {parts : List (List Token)} :
    WrittenArgs as parts → parts.map bearing = (tokensOfArgs as).map bearing
  | .nil => rfl
  | .thread x hrest => by rw [tokensOfArgs,map_cons,map_cons,hrest.bearing_eq]
  | .value he hrest => by rw [tokensOfArgs,map_cons,map_cons,he.bearing_eq,hrest.bearing_eq]
end

mutual
theorem Stmt.Written.bearing_eq {s : Stmt} {ts : List Token} :
    s.Written ts → bearing ts = bearing s.tokens
  | .bind span hnames hvalue => by
    rw [Stmt.tokens,bearing_append,bearing_append,bearing_cons (.mark .assign),
      bearing_cons (.mark .assign), hvalue.bearing_eq]
  | .bareReturn span => rfl
  | .ret span hvalue => by rw [Stmt.tokens,bearing_cons,bearing_cons,hvalue.bearing_eq]
  | .branch span hcond ht he => by
    simp only [Stmt.tokens,bearing_append,bearing_cons,hcond.bearing_eq,ht.bearing_eq,he.bearing_eq]
  | .branchOnly span place hcond ht => by
    have helse : bearing (.keyword .elseKw :: (Block.mk place []).tokens) = [] := rfl
    rw [Stmt.tokens,bearing_append _ (_ :: Block.tokens _),helse,append_nil]
    simp only [bearing_append,bearing_cons,hcond.bearing_eq,ht.bearing_eq]
  | .loop span hcond hbody => by
    simp only [Stmt.tokens,bearing_append,bearing_cons,hcond.bearing_eq,hbody.bearing_eq]
  | .run span he => he.bearing_eq

theorem Block.Written.bearing_eq {b : Block} {ts : List Token} :
    b.Written ts → bearing ts = bearing b.tokens
  | .mk span hstmts => by
    simp only [Block.tokens,bearing_append,bearing_cons,hstmts.bearing_eq]

theorem WrittenStmts.bearing_eq {ss : List Stmt} {ts : List Token} :
    WrittenStmts ss ts → bearing ts = bearing (tokensOfStmts ss)
  | .nil => rfl
  | .cons hs hlast hrest => by
      rw [tokensOfStmts,bearing_append,bearing_append,hs.bearing_eq,hrest.bearing_eq]
end

theorem WrittenReturns.bearing_eq (h : WrittenReturns ks ts) :
    bearing ts = bearing (inParens (commas (ks.map (·.node.tokens)))) := by
  cases h with
  | single k => exact (bearing_inParens _).symm
  | parens => rfl

theorem Decl.Written.bearing_eq (h : d.Written ts) : bearing ts = bearing d.tokens := by
  obtain ⟨-,-,hkinds,hbody⟩ := h
  have hblock : ∀ {native : Bool} {body : Option Block} {us : List Token}, WrittenBody native body us →
      bearing us = bearing ((body.map Block.tokens).getD []) := by
    rintro _ _ _ (_ | hb)
    · rfl
    · exact hb.bearing_eq
  simp only [Decl.tokens,bearing_append,bearing_cons,hkinds.bearing_eq,hblock hbody]

/-- All ways to write a module have the same tokens in the same order, apart from parentheses, braces and
`else`. -/
theorem SourceModule.Written.bearing_eq (h : m.Written ts) : bearing ts = bearing m.tokens := by
  obtain ⟨_,hparts,rfl⟩ := h
  rw [SourceModule.tokens,bearing_append,bearing_append]
  congr 1
  generalize m.functions = ds at hparts
  induction hparts with
  | nil => rfl
  | cons hd _ ih => rw [flatten_cons,flatMap_cons,bearing_append,bearing_append,hd.bearing_eq,ih]

end Bearing

end Polled
