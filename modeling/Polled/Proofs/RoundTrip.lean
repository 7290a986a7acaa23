import Polled.Proofs.Parsing

/-!
Reading what was printed.

Printed tokens leave a parser no choice, so a parser that is given the printed form of something gives it
back, up to places.
-/

namespace Polled

open List

variable {t : Token} {ts : List Token} {e : Expr} {n : Nat} {b : Block} {ds : List Decl}

namespace TokenStream

variable {s s' : TokenStream} {us : List Token}

/-- The tokens are next, and the other stream is what follows them. -/
def Takes : TokenStream → List Token → TokenStream → Prop
  | s, [], s' => s' = s
  | s, t :: ts, s' => s.next? = some t ∧ s.skip.Takes ts s'

theorem takes_append : s.Takes (ts ++ us) s' ↔ ∃ u, s.Takes ts u ∧ u.Takes us s' := by
  induction ts generalizing s with
  | nil => simp [Takes]
  | cons t ts ih => simp [Takes,ih,and_assoc]

theorem Takes.length (h : s.Takes ts s') : s.rest.length = ts.length + s'.rest.length := by
  induction ts generalizing s with
  | nil => rw [show s' = s from h,length_nil,Nat.zero_add]
  | cons t ts ih =>
    obtain ⟨_,_,hrest⟩ := next?_eq_some.1 h.1
    have hskip := ih h.2
    rw [skip,hrest,tail_cons] at hskip
    rw [hrest,length_cons,length_cons,hskip,Nat.add_right_comm]

theorem Takes.past {b : Bool} (h : s.Takes ((if b then [t] else []) ++ ts) s')
    (hfirst : ∀ u, Takes u ts s' → u.next? ≠ some t) :
    (s.next? == some t) = b ∧ (s.past t).Takes ts s' := by
  cases b with
  | false =>
    have hnext : (s.next? == some t) = false := beq_eq_false_iff_ne.2 (hfirst s h)
    rw [TokenStream.past,hnext]
    exact ⟨rfl, h⟩
  | true =>
    have hnext : (s.next? == some t) = true := beq_iff_eq.2 h.1
    rw [TokenStream.past,hnext]
    exact ⟨rfl, h.2⟩

theorem takes_of_map_rest (h : s.rest.map (·.node) = ts) : s.Takes ts ⟨[], s.stop⟩ := by
  obtain ⟨rest,_⟩ := s
  induction rest generalizing ts with
  | nil =>
    subst h
    rfl
  | cons l rest ih =>
    subst h
    exact ⟨rfl, ih rfl⟩

end TokenStream

namespace Parser

section Lists

variable {α β γ : Type} {s s' : TokenStream}

/-- The parser gives back what is written, if what follows is all right. -/
def Restores (follow : Option Token → Prop) (p : Parser α) (ts : List Token) (g : α → γ)
    (c : γ) : Prop :=
  ∀ ⦃s s'⦄, s.Takes ts s' → follow s'.next? → ∃ a, p s = .ok (a, s') ∧ g a = c

variable {follow : Option Token → Prop} {part : Parser α} {f : β → List Token} {g : α → γ} {h : β → γ}

theorem restores_commaListFuel (hcomma : follow (some (.mark .comma))) (n : Nat) {x : β} {xs : List β}
    (hn : xs.length ≤ n) (hparts : ∀ y ∈ x :: xs, Restores follow part (f y) g (h y))
    (htakes : s.Takes (commas ((x :: xs).map f)) s') (hfollow : follow s'.next?)
    (hend : s'.next? ≠ some (.mark .comma)) :
    ∃ as, commaListFuel part n s = .ok (as, s') ∧ as.map g = (x :: xs).map h := by
  induction xs generalizing n x s with
  | nil =>
    obtain ⟨a,ha,hg⟩ := hparts x mem_cons_self htakes hfollow
    refine ⟨[a], ?_, by rw [map_cons,hg]; rfl⟩
    cases n with
    | zero => rw [commaListFuel,bind_of_eq_ok ha]; rfl
    | succ n => rw [commaListFuel,bind_of_eq_ok ha,eat_bind_of_ne hend]; rfl
  | cons y ys ih =>
    obtain ⟨n,rfl⟩ : ∃ k, n = k + 1 := ⟨n - 1, by simp at hn; omega⟩
    obtain ⟨u,hx,hnext,hrest⟩ := TokenStream.takes_append.1 htakes
    obtain ⟨a,ha,hg⟩ := hparts x mem_cons_self hx (hnext ▸ hcomma)
    obtain ⟨as,has,hmap⟩ := ih n (by simpa using hn) (fun z hz => hparts z (mem_cons_of_mem _ hz)) hrest
    refine ⟨a :: as, ?_, by rw [map_cons,hg,hmap]; rfl⟩
    rw [commaListFuel,bind_of_eq_ok ha,eat_bind_of_next? hnext,if_pos rfl,bind_of_eq_ok has]
    rfl

theorem length_commas (ps : List (List Token)) : ps.length ≤ (commas ps).length + 1 := by
  fun_induction commas ps with
  | case1 => simp
  | case2 => simp
  | case3 part next parts ih =>
    simp only [length_cons,length_append] at ih ⊢
    omega

theorem length_le_commas {ps : List (List Token)} (h : ts ∈ ps) : ts.length ≤ (commas ps).length := by
  fun_induction commas ps with
  | case1 => cases h
  | case2 part => exact (congrArg List.length (mem_singleton.1 h)).le
  | case3 part next parts ih =>
    rw [length_append,length_cons]
    rcases mem_cons.1 h with rfl | h
    · omega
    · have := ih h
      omega

theorem restores_commaList (hcomma : follow (some (.mark .comma))) {xs : List β} (hne : xs ≠ [])
    (hparts : ∀ y ∈ xs, Restores follow part (f y) g (h y)) (htakes : s.Takes (commas (xs.map f)) s')
    (hfollow : follow s'.next?) (hend : s'.next? ≠ some (.mark .comma)) :
    ∃ as, commaList part s = .ok (as, s') ∧ as.map g = xs.map h := by
  cases xs with
  | nil => exact absurd rfl hne
  | cons x xs =>
    have hlength := htakes.length
    have hcount := length_commas ((x :: xs).map f)
    simp only [length_map,length_cons] at hcount
    exact restores_commaListFuel hcomma _ (by omega) hparts htakes hfollow hend

theorem restores_untilParen {xs : List β} (hparts : ∀ y ∈ xs, Restores follow part (f y) g (h y))
    (hcomma : follow (some (.mark .comma))) (hparen : follow (some (.mark .closeParen)))
    (hfirst : ∀ y ∈ xs, ∃ t ts, f y = t :: ts ∧ t ≠ .mark .closeParen)
    (htakes : s.Takes (commas (xs.map f) ++ [.mark .closeParen]) s') :
    ∃ as span, untilParen part s = .ok ((as, span), s') ∧ as.map g = xs.map h := by
  obtain ⟨u,hlist,hclose,rfl⟩ := TokenStream.takes_append.1 htakes
  cases xs with
  | nil =>
    obtain rfl : u = s := hlist
    refine ⟨[], u.here, ?_, rfl⟩
    rw [untilParen,sees_bind_of_next? hclose,if_pos rfl,pure_bind]
    exact bind_of_eq_ok (expect_of_next? hclose)
  | cons x xs =>
    obtain ⟨t,_,hx,hne⟩ := hfirst x mem_cons_self
    have hnext : s.next? = some t := by
      obtain ⟨us,hus⟩ : ∃ us, commas ((x :: xs).map f) = t :: us := by cases xs <;> simp [commas,hx]
      rw [hus] at hlist
      exact hlist.1
    obtain ⟨as,has,hmap⟩ := restores_commaList hcomma (cons_ne_nil x xs) hparts hlist (hclose ▸ hparen)
      (by simp [hclose])
    refine ⟨as, u.here, ?_, hmap⟩
    rw [untilParen,sees_bind_of_ne (by simpa [hnext] using hne),if_neg Bool.false_ne_true,
      bind_of_eq_ok has]
    exact bind_of_eq_ok (expect_of_next? hclose)

end Lists

section Kinds

def NoLess (next : Option Token) : Prop := next ≠ some (.mark .less)

mutual
theorem restores_kindFuel : (k : Kind) → k.wellFormed = true → ∀ n, k.tokens.length ≤ n →
    Restores NoLess (kindFuel n) k.tokens (·.node) k
  | ⟨borrowed, family, args⟩, hwf, n, hn => by
    intro s s' htakes hfollow
    rw [Kind.tokens] at htakes hn
    obtain ⟨n,rfl⟩ : ∃ m, n = m + 1 := ⟨n - 1, by simp at hn; omega⟩
    obtain ⟨hamp,hname,hrest⟩ := htakes.past fun u hu => by simp [hu.1]
    rw [Kind.wellFormed,Bool.and_eq_true] at hwf
    rw [kindFuel,here_bind,eat_bind,hamp,bind_of_eq_ok (name_of_next? hname)]
    simp only [Family.ofName?_name]
    generalize s.past (.mark .ampersand) = u at hrest
    cases args with
    | nil =>
      obtain rfl : s' = u.skip := hrest
      rw [eat_bind_of_ne hfollow]
      exact ⟨_, rfl, rfl⟩
    | cons arg args =>
      obtain ⟨hless,hrest⟩ := hrest
      obtain ⟨v,hlist,hgreater,rfl⟩ := TokenStream.takes_append.1 hrest
      obtain rfl : family = .tuple := by simpa using hwf.1
      rw [tokensOfKinds_eq] at hlist hn
      have hparts : ∀ k ∈ arg :: args, Restores NoLess (kindFuel n) k.tokens (·.node) (id k) := by
        intro k hk
        have hle := length_le_commas (mem_map_of_mem (f := Kind.tokens) hk)
        refine restores_kinds (arg :: args) hwf.2 k hk n ?_
        simp only [isEmpty_cons,Bool.false_eq_true,if_false,length_append,length_cons] at hn
        omega
      obtain ⟨_,has,hmap⟩ := restores_commaList (by simp [NoLess]) (cons_ne_nil arg args) hparts hlist
        (by simp [NoLess,hgreater]) (by simp [hgreater])
      rw [eat_bind_of_next? hless,if_pos rfl,if_neg (not_not.2 rfl),bind_of_eq_ok has,expectMark,
        bind_of_eq_ok (expect_of_next? hgreater)]
      refine ⟨_, rfl, ?_⟩
      rw [hmap,map_id]

theorem restores_kinds :
    (ks : List Kind) → wellFormedKinds ks = true → ∀ k ∈ ks, ∀ n, k.tokens.length ≤ n →
    Restores NoLess (kindFuel n) k.tokens (·.node) k
  | [], _ => by simp
  | k :: ks, hwf => by
    rw [wellFormedKinds,Bool.and_eq_true] at hwf
    exact forall_mem_cons.2 ⟨restores_kindFuel k hwf.1, restores_kinds ks hwf.2⟩
end

theorem restores_kind {k : Located Kind} (hwf : k.node.wellFormed = true) :
    Restores NoLess kind k.node.tokens Located.unplaced k.unplaced := by
  intro s s' htakes hfollow
  have hlength := htakes.length
  obtain ⟨k',hk,hsame⟩ := restores_kindFuel k.node hwf s.rest.length (by omega) htakes hfollow
  exact ⟨k', hk, congrArg (fun node => (⟨node, .nowhere⟩ : Located Kind)) hsame⟩

end Kinds

section Exprs

variable {s s' : TokenStream}

def Calm (next : Option Token) : Prop := next.bind Token.comparison? = none

def Anything (_ : Option Token) : Prop := True

/-- Tokens that an expression can begin with. -/
def opens : Token → Bool
  | .integer _ | .text _ | .name _ | .keyword .trueKw | .keyword .falseKw | .mark .openParen => true
  | _ => false

theorem exists_opens (e : Expr) : ∃ t ts, e.tokens = t :: ts ∧ opens t = true := by
  cases e with
  | truth span value => cases value <;> exact ⟨_, _, rfl, rfl⟩
  | _ => exact ⟨_, _, rfl, rfl⟩

theorem expr_first (e : Expr) : ∃ t ts, e.tokens = t :: ts ∧ t ≠ .mark .closeParen := by
  obtain ⟨t,ts,htokens,ht⟩ := exists_opens e
  exact ⟨t, ts, htokens, by rintro rfl; cases ht⟩

theorem arg_first (a : Arg) : ∃ t ts, a.tokens = t :: ts ∧ t ≠ .mark .closeParen := by
  cases a with
  | thread x => exact ⟨_, _, rfl, by simp⟩
  | value e => exact expr_first e

theorem comparison_of_calm {operand : Parser Expr} (h : operand s = .ok (e, s'))
    (hcalm : Calm s'.next?) :
    comparison operand s = .ok (e, s') := by
  rw [comparison,bind_of_eq_ok h,next?_bind,show s'.next?.bind Token.comparison? = none from hcalm]
  rfl

theorem unplaced_placed (span : Span) (e : Expr) : (e.placed span).unplaced = e.unplaced := by
  cases e <;> rfl

theorem restores_parens {follow : Option Token → Prop} {c : Expr}
    (h : Restores follow (comparison (operandFuel n)) ts Expr.unplaced c)
    (hcomma : follow (some (.mark .comma))) (hparen : follow (some (.mark .closeParen)))
    (hfirst : ∃ t us, ts = t :: us ∧ t ≠ .mark .closeParen) :
    Restores Anything (operandFuel (n + 1)) (inParens ts) Expr.unplaced c := by
  intro s s' htakes _
  obtain ⟨hopen,hrest⟩ := htakes
  have hparts : ∀ y ∈ [()], Restores follow (comparison (operandFuel n)) ((fun _ => ts) y) Expr.unplaced
      ((fun _ => c) y) := fun _ _ => h
  obtain ⟨es,close,hes,hmap⟩ := restores_untilParen hparts hcomma hparen (fun _ _ => hfirst) hrest
  obtain ⟨e,rfl,he⟩ : ∃ e, es = [e] ∧ e.unplaced = c := by simpa using map_eq_singleton_iff.1 hmap
  refine ⟨e.placed (s.here.cover close), ?_, (unplaced_placed _ e).trans he⟩
  rw [operandFuel,here_bind,next?_bind,hopen]
  simp only [skip_bind]
  exact bind_of_eq_ok hes

def literal? (here : Span) : Token → Option Expr
  | .integer v => some (.integer here v)
  | .text v => some (.text here v)
  | .keyword .trueKw => some (.truth here true)
  | .keyword .falseKw => some (.truth here false)
  | _ => none

theorem restores_literal {c : Expr} (hn : 0 < n)
    (h : ∀ here, (literal? here t).map Expr.unplaced = some c) :
    Restores Calm (comparison (operandFuel n)) [t] Expr.unplaced c := by
  intro s s' htakes hfollow
  obtain ⟨n,rfl⟩ := Nat.exists_eq_add_of_lt hn
  obtain ⟨hnext,rfl⟩ := htakes
  obtain ⟨e,he,hsame⟩ := Option.map_eq_some_iff.1 (h s.here)
  refine ⟨e, comparison_of_calm ?_ hfollow, hsame⟩
  rw [operandFuel,here_bind,next?_bind,hnext]
  simp only [skip_bind]
  unfold literal? at he
  split at he <;> cases he <;> rfl

theorem restores_variable (n : Nat) (x : String) :
    Restores (fun next => Calm next ∧ next ≠ some (.mark .openParen))
      (comparison (operandFuel (n + 1))) [.name x] Expr.unplaced (.name .nowhere x) := by
  intro s s' htakes hfollow
  obtain ⟨hname,rfl⟩ := htakes
  refine ⟨.name s.here x, comparison_of_calm ?_ hfollow.1, rfl⟩
  rw [operandFuel,here_bind,next?_bind,hname]
  simp only [skip_bind]
  rw [sees_bind_of_ne hfollow.2]
  rfl

theorem restores_argument {expr : Parser Expr} {a : Arg}
    (h : ∀ e, a = .value e → Restores Calm expr e.tokens Expr.unplaced e.unplaced) :
    Restores Calm (argument expr) a.tokens Arg.unplaced a.unplaced := by
  intro s s' htakes hfollow
  cases a with
  | thread x =>
    obtain ⟨hamp,hname,rfl⟩ := htakes
    refine ⟨.thread ⟨x.node, s.skip.here⟩, ?_, rfl⟩
    rw [argument,bind_of_eq_ok (seesThread_of_threads ⟨_, hamp, hname⟩),if_pos rfl,skip_bind,
      bind_of_eq_ok (name_of_next? hname)]
    rfl
  | value e =>
    have hplain : ¬s.Threads := by
      rintro ⟨x,hamp,-⟩
      obtain ⟨t,_,htokens,ht⟩ := exists_opens e
      rw [Arg.tokens,htokens] at htakes
      obtain rfl := Option.some.inj (htakes.1.symm.trans hamp)
      cases ht
    obtain ⟨e',he,hsame⟩ := h e rfl htakes hfollow
    refine ⟨.value e', ?_, congrArg Arg.value hsame⟩
    rw [argument,bind_of_eq_ok (seesThread_of_not_threads hplain),if_neg Bool.false_ne_true,
      bind_of_eq_ok he]
    rfl

mutual
theorem restores_comparison : (e : Expr) → e.wellFormed = true → ∀ n, e.tokens.length ≤ n →
    Restores Calm (comparison (operandFuel n)) e.tokens Expr.unplaced e.unplaced
  | .name span x, _, n, hn => by
    intro s s' htakes hfollow
    obtain ⟨n,rfl⟩ : ∃ m, n = m + 2 := ⟨n - 2, by simp [Expr.tokens,inParens] at hn; omega⟩
    obtain ⟨e,he,hsame⟩ := restores_parens (restores_variable n x) ⟨rfl, by simp⟩ ⟨rfl, by simp⟩
      ⟨_, _, rfl, by simp⟩ htakes trivial
    exact ⟨e, comparison_of_calm he hfollow, hsame⟩
  | .truth span value, _, n, hn => restores_literal hn fun _ => by cases value <;> rfl
  | .integer span value, _, n, hn => restores_literal hn fun _ => rfl
  | .text span value, _, n, hn => restores_literal hn fun _ => rfl
  | .tuple span items, hwf, n, hn => by
    intro s s' htakes hfollow
    rw [Expr.tokens,inParens,tokensOfExprs_eq] at htakes hn
    rw [Expr.wellFormed,Bool.and_eq_true,bne_iff_ne] at hwf
    obtain ⟨n,rfl⟩ : ∃ m, n = m + 1 := ⟨n - 1, by simp at hn; omega⟩
    have hparts : ∀ e ∈ items, Restores Calm (comparison (operandFuel n)) e.tokens Expr.unplaced
        e.unplaced := by
      intro e he
      have hle := length_le_commas (mem_map_of_mem (f := Expr.tokens) he)
      simp only [length_append,length_cons] at hn
      exact restores_exprs items hwf.2 e he n (by omega)
    obtain ⟨hopen,hrest⟩ := htakes
    obtain ⟨es,close,hes,hmap⟩ := restores_untilParen hparts rfl rfl (fun e _ => expr_first e) hrest
    have hlength : es.length ≠ 1 := by
      simpa using (congrArg List.length hmap).trans_ne (by simpa using hwf.1)
    refine ⟨.tuple (s.here.cover close) es, comparison_of_calm ?_ hfollow, ?_⟩
    · rw [operandFuel,here_bind,next?_bind,hopen]
      simp only [skip_bind]
      rw [parenthesized,bind_of_eq_ok hes]
      match es, hlength with
      | [], _ => rfl
      | _ :: _ :: _, _ => rfl
    · rw [Expr.unplaced,Expr.unplaced,unplacedExprs_eq,unplacedExprs_eq,hmap]
  | .call span callee args, hwf, n, hn => by
    intro s s' htakes hfollow
    rw [Expr.tokens,inParens,tokensOfArgs_eq] at htakes hn
    rw [Expr.wellFormed,Bool.and_eq_true] at hwf
    obtain ⟨n,rfl⟩ : ∃ m, n = m + 1 := ⟨n - 1, by simp at hn; omega⟩
    have hparts : ∀ a ∈ args,
        Restores Calm (argument (comparison (operandFuel n))) a.tokens Arg.unplaced a.unplaced := by
      intro a ha
      have hle := length_le_commas (mem_map_of_mem (f := Arg.tokens) ha)
      simp only [length_append,length_cons] at hn
      exact restores_args args hwf.2 a ha n (by omega)
    obtain ⟨hname,hopen,hrest⟩ := htakes
    obtain ⟨as,close,has,hmap⟩ := restores_untilParen hparts rfl rfl (fun a _ => arg_first a) hrest
    refine ⟨.call (s.here.cover close) ⟨callee.node, s.here⟩ as, comparison_of_calm ?_ hfollow, ?_⟩
    · rw [operandFuel,here_bind,next?_bind,hname]
      simp only [skip_bind]
      rw [sees_bind_of_next? hopen,if_pos rfl,callOf,expectMark,bind_of_eq_ok (expect_of_next? hopen),
        bind_of_eq_ok has]
      rfl
    · rw [Expr.unplaced,Expr.unplaced,unplacedArgs_eq,unplacedArgs_eq,hmap]
      rfl
  | .compare span op lhs rhs, hwf, n, hn => by
    intro s s' htakes hfollow
    rw [Expr.tokens] at htakes hn
    rw [Expr.wellFormed,Bool.and_eq_true] at hwf
    simp only [inParens,length_append,length_cons] at hn
    obtain ⟨n,rfl⟩ : ∃ m, n = m + 1 := ⟨n - 1, by omega⟩
    obtain ⟨u,hlhs,hop,hrhs⟩ := TokenStream.takes_append.1 htakes
    obtain ⟨l,hl,hlsame⟩ := restores_parens (restores_comparison lhs hwf.1 n (by omega)) rfl rfl
      (expr_first lhs) hlhs trivial
    obtain ⟨r,hr,hrsame⟩ := restores_parens (restores_comparison rhs hwf.2 n (by omega)) rfl rfl
      (expr_first rhs) hrhs trivial
    refine ⟨.compare (l.span.cover r.span) op l r, ?_, by rw [Expr.unplaced,Expr.unplaced,hlsame,hrsame]⟩
    rw [comparison,bind_of_eq_ok hl,next?_bind,hop,Option.bind_some,comparison?_eq_some.2 rfl]
    simp only [skip_bind]
    rw [bind_of_eq_ok hr]
    rfl

theorem restores_exprs :
    (es : List Expr) → wellFormedExprs es = true → ∀ e ∈ es, ∀ n, e.tokens.length ≤ n →
    Restores Calm (comparison (operandFuel n)) e.tokens Expr.unplaced e.unplaced
  | [], _ => by simp
  | e :: es, hwf => by
    rw [wellFormedExprs,Bool.and_eq_true] at hwf
    exact forall_mem_cons.2 ⟨restores_comparison e hwf.1, restores_exprs es hwf.2⟩

theorem restores_args : (as : List Arg) → wellFormedArgs as = true → ∀ a ∈ as, ∀ n, a.tokens.length ≤ n →
    Restores Calm (argument (comparison (operandFuel n))) a.tokens Arg.unplaced a.unplaced
  | [], _ => by simp
  | .thread x :: as, hwf => by
    rw [wellFormedArgs,Bool.and_eq_true] at hwf
    exact forall_mem_cons.2 ⟨fun n _ => restores_argument nofun, restores_args as hwf.2⟩
  | .value e :: as, hwf => by
    rw [wellFormedArgs,Bool.and_eq_true] at hwf
    refine forall_mem_cons.2 ⟨fun n hn => restores_argument ?_, restores_args as hwf.2⟩
    rintro e ⟨⟩
    exact restores_comparison e hwf.1 n hn
end

theorem restores_expr (hwf : e.wellFormed = true) :
    Restores Calm expr e.tokens Expr.unplaced e.unplaced := by
  intro s s' htakes hfollow
  have hlength := htakes.length
  exact restores_comparison e hwf _ (by omega) htakes hfollow

end Exprs

section Stmts

variable {s s' : TokenStream}

theorem restores_name (x : Located String) :
    Restores Anything name [.name x.node] Located.unplaced x.unplaced := by
  intro s s' htakes _
  obtain ⟨hname,rfl⟩ := htakes
  exact ⟨_, name_of_next? hname, rfl⟩

theorem stmt_first (st : Stmt) :
    ∃ t ts, st.tokens = t :: ts ∧ t.comparison? = none ∧ t ≠ .mark .closeBrace := by
  have hexpr (e : Expr) : ∃ t ts, e.tokens = t :: ts ∧ t.comparison? = none ∧ t ≠ .mark .closeBrace := by
    obtain ⟨t,ts,htokens,ht⟩ := exists_opens e
    refine ⟨t, ts, htokens, ?_, by rintro rfl; cases ht⟩
    unfold opens at ht
    split at ht <;> first | rfl | cases ht
  cases st with
  | ret span value => cases value <;> exact ⟨_, _, rfl, rfl, by simp⟩
  | run span e => exact hexpr e
  | _ => exact ⟨_, _, rfl, rfl, by simp⟩

theorem next?_block (h : s.Takes b.tokens s') : s.next? = some (.mark .openBrace) := by
  obtain ⟨_,_⟩ := b
  exact h.1

/-- What may follow a statement. -/
def After (st : Stmt) (next : Option Token) : Prop :=
  Calm next ∧ (st.isBareReturn = true → next = some (.mark .closeBrace))

mutual
theorem restores_statement : (st : Stmt) → st.wellFormed = true → ∀ n, st.tokens.length ≤ n →
    Restores (After st) (statement (blockFuel n)) st.tokens Stmt.unplaced st.unplaced
  | .bind span names value, hwf, n, hn => by
    intro s s' htakes hfollow
    rw [Stmt.wellFormed,Bool.and_eq_true,Bool.and_eq_true] at hwf
    obtain ⟨hlet,hrest⟩ := htakes
    obtain ⟨u,hnames,hassign,hvalue⟩ := TokenStream.takes_append.1 hrest
    obtain ⟨xs,hxs,hmap⟩ := restores_commaList trivial (by simpa using hwf.1.1)
      (fun x _ => restores_name x) hnames trivial (by simp [hassign])
    obtain ⟨e,he,hsame⟩ := restores_expr hwf.2 hvalue hfollow.1
    refine ⟨.bind (s.here.cover e.span) xs e, ?_, by rw [Stmt.unplaced,Stmt.unplaced,hmap,hsame]⟩
    rw [statement,here_bind,next?_bind,hlet]
    simp only [skip_bind]
    rw [bind_of_eq_ok hxs,expectMark,bind_of_eq_ok (expect_of_next? hassign),bind_of_eq_ok he]
    rfl
  | .ret span none, _, n, hn => by
    intro s s' htakes hfollow
    obtain ⟨hreturn,rfl⟩ := htakes
    refine ⟨.ret s.here none, ?_, rfl⟩
    rw [statement,here_bind,next?_bind,hreturn]
    simp only [skip_bind]
    rw [sees_bind_of_next? (hfollow.2 rfl)]
    rfl
  | .ret span (some value), hwf, n, hn => by
    intro s s' htakes hfollow
    obtain ⟨hreturn,hvalue⟩ := htakes
    obtain ⟨e,he,hsame⟩ := restores_expr hwf hvalue hfollow.1
    refine ⟨.ret (s.here.cover e.span) (some e), ?_, by rw [Stmt.unplaced,Stmt.unplaced,hsame]⟩
    have hopen : s.skip.next? ≠ some (.mark .closeBrace) := by
      obtain ⟨t,ts,htokens,ht⟩ := exists_opens value
      rw [htokens] at hvalue
      rw [hvalue.1]
      rintro ⟨⟩
      cases ht
    rw [statement,here_bind,next?_bind,hreturn]
    simp only [skip_bind]
    rw [sees_bind_of_ne hopen,if_neg Bool.false_ne_true,bind_of_eq_ok he]
    rfl
  | .branch span cond t e, hwf, n, hn => by
    intro s s' htakes hfollow
    rw [Stmt.wellFormed,Bool.and_eq_true,Bool.and_eq_true] at hwf
    rw [Stmt.tokens] at htakes hn
    simp only [length_append,length_cons] at hn
    obtain ⟨u,⟨hif,hboth⟩,helse,hfalse⟩ := TokenStream.takes_append.1 htakes
    obtain ⟨v,hcond,htrue⟩ := TokenStream.takes_append.1 hboth
    obtain ⟨c,hc,hcsame⟩ := restores_expr hwf.1.1 hcond (by rw [next?_block htrue]; rfl)
    obtain ⟨t',ht,htsame⟩ := restores_blockFuel t hwf.1.2 n (by omega) htrue trivial
    obtain ⟨e',he,hesame⟩ := restores_blockFuel e hwf.2 n (by omega) hfalse trivial
    refine ⟨.branch (s.here.cover (e'.span.cover t'.span)) c t' e', ?_, by
      rw [Stmt.unplaced,Stmt.unplaced,hcsame,htsame,hesame]⟩
    rw [statement,here_bind,next?_bind,hif]
    simp only [skip_bind]
    rw [bind_of_eq_ok hc,bind_of_eq_ok ht,eat_bind_of_next? helse,if_pos rfl,bind_of_eq_ok he]
    rfl
  | .loop span cond body, hwf, n, hn => by
    intro s s' htakes hfollow
    rw [Stmt.wellFormed,Bool.and_eq_true] at hwf
    rw [Stmt.tokens] at htakes hn
    simp only [length_append,length_cons] at hn
    obtain ⟨hwhile,hboth⟩ := htakes
    obtain ⟨u,hcond,hbody⟩ := TokenStream.takes_append.1 hboth
    obtain ⟨c,hc,hcsame⟩ := restores_expr hwf.1 hcond (by rw [next?_block hbody]; rfl)
    obtain ⟨b,hb,hbsame⟩ := restores_blockFuel body hwf.2 n (by omega) hbody trivial
    refine ⟨.loop (s.here.cover b.span) c b, ?_, by rw [Stmt.unplaced,Stmt.unplaced,hcsame,hbsame]⟩
    rw [statement,here_bind,next?_bind,hwhile]
    simp only [skip_bind]
    rw [bind_of_eq_ok hc,bind_of_eq_ok hb]
    rfl
  | .run span e, hwf, n, hn => by
    intro s s' htakes hfollow
    obtain ⟨e',he,hsame⟩ := restores_expr hwf htakes hfollow.1
    refine ⟨.run (s.here.cover e'.span) e', ?_, by rw [Stmt.unplaced,Stmt.unplaced,hsame]⟩
    obtain ⟨t,_,htokens,ht⟩ := exists_opens e
    rw [Stmt.tokens,htokens] at htakes
    rw [statement,here_bind,next?_bind,htakes.1]
    unfold opens at ht
    split at ht <;> first | exact bind_of_eq_ok he | cases ht

theorem restores_blockFuel : (b : Block) → b.wellFormed = true → ∀ n, b.tokens.length ≤ n →
    Restores Anything (blockFuel n) b.tokens Block.unplaced b.unplaced
  | ⟨span, stmts⟩, hwf, n, hn => by
    intro s s' htakes _
    rw [Block.tokens] at htakes hn
    simp only [length_append,length_cons] at hn
    obtain ⟨n,rfl⟩ : ∃ m, n = m + 1 := ⟨n - 1, by omega⟩
    obtain ⟨hopen,hrest⟩ := htakes
    obtain ⟨u,hstmts,hclose,rfl⟩ := TokenStream.takes_append.1 hrest
    have hlength := hstmts.length
    have hleft : 0 < u.rest.length := by
      rw [(TokenStream.Passes.one hclose).length,length_singleton]
      omega
    obtain ⟨ss,hss,hmap⟩ := restores_statementsFuel stmts hwf n (by omega) s.skip.rest.length
      (by omega) hstmts hclose
    have hss : statements (statement (blockFuel n)) s.skip = .ok (ss, u) := hss
    refine ⟨⟨s.here.cover u.here, ss⟩, ?_, by rw [Block.unplaced,Block.unplaced,unplacedStmts_eq,hmap]⟩
    rw [blockFuel,expectMark,bind_of_eq_ok (expect_of_next? hopen),bind_of_eq_ok hss,expectMark,
      bind_of_eq_ok (expect_of_next? hclose)]
    rfl

theorem restores_statementsFuel :
    (ss : List Stmt) → wellFormedStmts ss = true → ∀ n, (tokensOfStmts ss).length ≤ n →
    ∀ m, (tokensOfStmts ss).length < m →
      Restores (· = some (.mark .closeBrace)) (statementsFuel (statement (blockFuel n)) m)
        (tokensOfStmts ss) (List.map Stmt.unplaced) (unplacedStmts ss)
  | [], _, n, _, m, hm => by
    intro s s' htakes hclose
    obtain ⟨m,rfl⟩ : ∃ k, m = k + 1 := ⟨m - 1, by omega⟩
    obtain rfl : s' = s := htakes
    refine ⟨[], ?_, rfl⟩
    rw [statementsFuel,sees_bind_of_next? hclose]
    rfl
  | st :: ss, hwf, n, hn, m, hm => by
    intro s s' htakes hclose
    rw [wellFormedStmts,Bool.and_eq_true,Bool.and_eq_true] at hwf
    rw [tokensOfStmts] at htakes hn hm
    simp only [length_append] at hn hm
    obtain ⟨m,rfl⟩ : ∃ k, m = k + 1 := ⟨m - 1, by omega⟩
    obtain ⟨t,_,htokens,-,hbrace⟩ := stmt_first st
    have hpos : 0 < st.tokens.length := by simp [htokens]
    obtain ⟨u,hst,hrest⟩ := TokenStream.takes_append.1 htakes
    have hafter : After st u.next? := by
      cases ss with
      | nil =>
        obtain rfl : s' = u := hrest
        exact ⟨by rw [hclose]; rfl, fun _ => hclose⟩
      | cons next ss =>
        obtain ⟨_,_,htokens',hcalm,-⟩ := stmt_first next
        rw [tokensOfStmts,htokens'] at hrest
        refine ⟨by rw [hrest.1]; exact hcalm, fun hbare => ?_⟩
        simp [hbare] at hwf
    obtain ⟨st',hst',hsame⟩ := restores_statement st hwf.1.1 n (by omega) hst hafter
    obtain ⟨ss',hss',hmap⟩ := restores_statementsFuel ss hwf.2 n (by omega) m (by omega) hrest hclose
    refine ⟨st' :: ss', ?_, by rw [unplacedStmts,map_cons,hsame,hmap]⟩
    rw [htokens] at hst
    rw [statementsFuel,sees_bind_of_ne (by simpa [hst.1] using hbrace),if_neg Bool.false_ne_true,
      next?_bind,hst.1, if_neg (by simp)]
    exact (bind_of_eq_ok hst').trans (bind_of_eq_ok hss')
end

theorem restores_block (hwf : b.wellFormed = true) :
    Restores Anything block b.tokens Block.unplaced b.unplaced := by
  intro s s' htakes hfollow
  have hlength := htakes.length
  exact restores_blockFuel b hwf _ (by omega) htakes hfollow

end Stmts

section Decls

variable {s s' : TokenStream}

theorem restores_param {p : Param} (hwf : p.wellFormed = true) :
    Restores NoLess param p.tokens Param.unplaced p.unplaced := by
  intro s s' htakes hfollow
  rw [Param.wellFormed,Bool.and_eq_true] at hwf
  obtain ⟨hname,hcolon,hkind⟩ := htakes
  obtain ⟨k,hk,hsame⟩ := restores_kind hwf.2 hkind hfollow
  refine ⟨⟨⟨p.name.node, s.here⟩, k⟩, ?_, ?_⟩
  · rw [param,bind_of_eq_ok (name_of_next? hname),expectMark,bind_of_eq_ok (expect_of_next? hcolon),
      bind_of_eq_ok hk]
    rfl
  · rw [Param.unplaced,hsame]
    rfl

theorem kind_first (k : Kind) : ∃ t ts, k.tokens = t :: ts ∧ t ≠ .mark .closeParen := by
  obtain ⟨borrowed,_,_⟩ := k
  cases borrowed <;> exact ⟨_, _, rfl, by simp⟩

theorem restores_returnKinds {ks : List (Located Kind)} (hwf : ∀ k ∈ ks, k.node.wellFormed = true) :
    Restores Anything returnKinds (inParens (commas (ks.map (·.node.tokens))))
      (List.map Located.unplaced) (ks.map Located.unplaced) := by
  intro s s' htakes _
  obtain ⟨hopen,hrest⟩ := htakes
  obtain ⟨as,_,has,hmap⟩ := restores_untilParen (fun k hk => restores_kind (hwf k hk)) (by simp [NoLess])
    (by simp [NoLess]) (fun k _ => kind_first k.node) hrest
  refine ⟨as, ?_, hmap⟩
  rw [returnKinds,eat_bind_of_next? hopen,if_pos rfl,bind_of_eq_ok has]
  rfl

theorem restores_bodyOf (name : String) {body : Option Block} (hwf : body.all Block.wellFormed = true) :
    Restores (· ≠ some (.mark .openBrace)) (bodyOf name body.isNone) ((body.map Block.tokens).getD [])
      (Option.map Block.unplaced) (body.map Block.unplaced) := by
  intro s s' htakes hfollow
  cases body with
  | none =>
    obtain rfl : s' = s := htakes
    refine ⟨none, ?_, rfl⟩
    rw [bodyOf,sees_bind_of_ne hfollow]
    rfl
  | some b =>
    obtain ⟨b',hb,hsame⟩ := restores_block hwf htakes trivial
    refine ⟨some b', ?_, congrArg some hsame⟩
    rw [bodyOf,sees_bind_of_next? (next?_block htakes)]
    exact bind_of_eq_ok hb

theorem restores_decl {d : Decl} (hwf : d.wellFormed = true) :
    Restores (· ≠ some (.mark .openBrace)) decl d.tokens Decl.unplaced d.unplaced := by
  intro s s' htakes hfollow
  simp only [Decl.wellFormed,Bool.and_eq_true,all_eq_true,beq_iff_eq] at hwf
  obtain ⟨⟨⟨⟨-,hparams⟩,hreturns⟩,hblock⟩,hnative⟩ := hwf
  obtain ⟨w,hhead,hbody⟩ := TokenStream.takes_append.1 htakes
  obtain ⟨v,hhead,hcolon,hkinds⟩ := TokenStream.takes_append.1 hhead
  rw [append_assoc] at hhead
  obtain ⟨hsync,hhead⟩ := hhead.past fun u hu => by
    cases h : d.isNative <;> rw [h] at hu <;> simp [hu.1]
  obtain ⟨hnat,hhead⟩ := hhead.past fun u hu => by simp [hu.1]
  generalize hu : (s.past (.keyword .syncKw)).past (.keyword .nativeKw) = u at hhead
  obtain ⟨hfunc,hname,hopen,hlist⟩ := hhead
  obtain ⟨ps,span,hps,hpmap⟩ := restores_untilParen (fun p hp => restores_param (hparams p hp))
    (by simp [NoLess]) (by simp [NoLess]) (fun p _ => ⟨_, _, rfl, by simp⟩) hlist
  obtain ⟨ks,hks,hkmap⟩ := restores_returnKinds hreturns hkinds trivial
  obtain ⟨body,hb,hbmap⟩ := restores_bodyOf d.name.node hblock hbody hfollow
  rw [hnative] at hb
  refine ⟨⟨s.here.cover ((body.map (·.span)).getD u.skip.here), ⟨d.name.node, u.skip.here⟩, d.isSync,
    d.isNative, ps, ks, body⟩, ?_, ?_⟩
  · rw [decl,here_bind,eat_bind,hsync,eat_bind,hnat,hu,bind_of_eq_ok (expect_of_next? hfunc),
      bind_of_eq_ok (name_of_next? hname),expectMark,bind_of_eq_ok
      (expect_of_next? hopen),bind_of_eq_ok hps]
    dsimp only
    rw [expectMark,bind_of_eq_ok (expect_of_next? hcolon),bind_of_eq_ok hks,bind_of_eq_ok hb]
    rfl
  · rw [Decl.unplaced,Decl.unplaced,hpmap,hkmap,hbmap]
    rfl

theorem decl_first (d : Decl) : ∃ t ts, d.tokens = t :: ts ∧
    (t = .keyword .syncKw ∨ t = .keyword .nativeKw ∨ t = .keyword .funcKw) := by
  cases hsync : d.isSync <;> cases hnative : d.isNative <;>
    exact ⟨_, _, by rw [Decl.tokens,hsync,hnative]; rfl, by simp⟩

theorem restores_importsFuel (n : Nat) {xs : List (Located String)}
    (hn : (xs.flatMap fun x => [Token.keyword .importKw, .name x.node]).length ≤ n)
    (htakes : s.Takes (xs.flatMap fun x => [.keyword .importKw, .name x.node]) s')
    (hend : s'.next? ≠ some (.keyword .importKw)) :
    ∃ ys, importsFuel n s = .ok (ys, s') ∧ ys.map Located.unplaced = xs.map Located.unplaced := by
  induction xs generalizing n s with
  | nil =>
    obtain rfl : s' = s := htakes
    refine ⟨[], ?_, rfl⟩
    cases n with
    | zero => rfl
    | succ n => rw [importsFuel,eat_bind_of_ne hend]; rfl
  | cons x xs ih =>
    simp only [flatMap_cons,length_append,length_cons] at hn
    obtain ⟨n,rfl⟩ : ∃ m, n = m + 1 := ⟨n - 1, by omega⟩
    obtain ⟨himport,hname,hrest⟩ := htakes
    obtain ⟨ys,hys,hmap⟩ := ih n (by omega) hrest
    refine ⟨⟨x.node, s.skip.here⟩ :: ys, ?_, by rw [map_cons,map_cons,hmap]; rfl⟩
    rw [importsFuel,eat_bind_of_next? himport,if_pos rfl,bind_of_eq_ok (name_of_next? hname),
      bind_of_eq_ok hys]
    rfl

theorem next?_decls (h : s.Takes (ds.flatMap Decl.tokens) s') (hend : s'.next? = none) :
    s.next? ≠ some (.mark .openBrace) ∧ s.next? ≠ some (.keyword .importKw) := by
  cases ds with
  | nil =>
    obtain rfl : s' = s := h
    simp [hend]
  | cons d ds =>
    obtain ⟨t,_,htokens,ht⟩ := decl_first d
    rw [flatMap_cons,htokens] at h
    rw [h.1]
    rcases ht with rfl | rfl | rfl <;> simp

theorem restores_declsFuel (n : Nat) (hn : (ds.flatMap Decl.tokens).length ≤ n)
    (hwf : ∀ d ∈ ds, d.wellFormed = true) (htakes : s.Takes (ds.flatMap Decl.tokens) s')
    (hend : s'.next? = none) :
    ∃ es, declsFuel n s = .ok (es, s') ∧ es.map Decl.unplaced = ds.map Decl.unplaced := by
  induction ds generalizing n s with
  | nil =>
    obtain rfl : s' = s := htakes
    refine ⟨[], ?_, rfl⟩
    cases n with
    | zero => rfl
    | succ n => rw [declsFuel,next?_bind,hend]; rfl
  | cons d ds ih =>
    obtain ⟨t,_,htokens,ht⟩ := decl_first d
    rw [flatMap_cons] at htakes hn
    rw [htokens,length_append,length_cons] at hn
    obtain ⟨n,rfl⟩ : ∃ m, n = m + 1 := ⟨n - 1, by omega⟩
    obtain ⟨u,hd,hrest⟩ := TokenStream.takes_append.1 htakes
    obtain ⟨d',hd',hsame⟩ := restores_decl (hwf d mem_cons_self) hd (next?_decls hrest hend).1
    obtain ⟨es,hes,hmap⟩ := ih n (by omega) (fun e he => hwf e (mem_cons_of_mem _ he)) hrest
    refine ⟨d' :: es, ?_, by rw [map_cons,map_cons,hsame,hmap]⟩
    rw [htokens] at hd
    rw [declsFuel,next?_bind,hd.1]
    rcases ht with rfl | rfl | rfl <;> exact (bind_of_eq_ok hd').trans (bind_of_eq_ok hes)

end Decls

end Parser

theorem SourceModule.parse_print (m : SourceModule) (h : m.wellFormed = true) (file : Nat) :
    ∃ m', parse m.print file = .ok m' ∧ m'.unplaced = m.unplaced := by
  obtain ⟨tokens,hlex,hnodes⟩ := lex_spell ((m.written_tokens h).writable_iff.2 h) file
  rw [SourceModule.wellFormed,Bool.and_eq_true,all_eq_true,all_eq_true] at h
  have htakes := TokenStream.takes_of_map_rest (s := .ofTokens tokens file) hnodes
  obtain ⟨u,himports,hdecls⟩ := TokenStream.takes_append.1 htakes
  obtain ⟨xs,hxs,hximports⟩ := Parser.restores_importsFuel (TokenStream.ofTokens tokens file).rest.length
    (by rw [himports.length]; omega) himports (Parser.next?_decls hdecls rfl).2
  obtain ⟨ds,hds,hfunctions⟩ := Parser.restores_declsFuel u.rest.length (by rw [hdecls.length]; omega)
    h.2 hdecls rfl
  refine ⟨⟨xs, ds⟩, ?_, by rw [SourceModule.unplaced,SourceModule.unplaced,hximports,hfunctions]⟩
  have hmodule : Parser.sourceModule (.ofTokens tokens file) =
      .ok (⟨xs, ds⟩, ⟨[], (TokenStream.ofTokens tokens file).stop⟩) :=
    Parser.bind_eq_ok.2 ⟨xs, u, hxs, Parser.bind_eq_ok.2 ⟨ds, _, hds, rfl⟩⟩
  simp only [parse,print,hlex,bind,Except.bind,hmodule]

/-- Reading undoes printing, up to places: the printed form of a well-formed module is read back as the
module. And what is read is always well formed, and its text has the tokens of its printed form, up to
parentheses around an expression or around a single kind that a function returns, and up to an `else`
with an empty block. -/
theorem parse_inverts_print : (∀ (m : SourceModule) (file : Nat), m.wellFormed = true →
      ∃ m', SourceModule.parse m.print file = .ok m' ∧ m'.unplaced = m.unplaced) ∧
    ∀ (text : List Char) (file : Nat) (m : SourceModule), SourceModule.parse text file = .ok m →
      m.wellFormed = true ∧ ∃ tokens printed, lex text file = .ok tokens ∧
        lex m.print file = .ok printed ∧ m.Written (tokens.map (·.node)) ∧
          m.Written (printed.map (·.node)) ∧
        bearing (tokens.map (·.node)) = bearing (printed.map (·.node)) := by
  refine ⟨fun m file h => m.parse_print h file, fun text file m h => ?_⟩
  obtain ⟨tokens,hlex,hwritten,-⟩ := SourceModule.laid_of_parse h
  have hwf := hwritten.writable_iff.1 (forall_mem_map.2 (writable_of_lexFrom file 0 0 _ _ hlex))
  obtain ⟨printed,hprinted,hnodes⟩ := lex_spell ((m.written_tokens hwf).writable_iff.2 hwf) file
  refine ⟨hwf, tokens, printed, hlex, hprinted, hwritten, ?_, ?_⟩
  · rw [hnodes]
    exact m.written_tokens hwf
  · rw [hnodes,hwritten.bearing_eq]

/-- A call that threads a variable, a comparison inside of another one and an `if` with an empty
`else`. -/
def lantern : SourceModule where
  imports := [⟨"oil", .nowhere⟩]
  functions := [{
    span := .nowhere
    name := ⟨"main", .nowhere⟩
    isSync := false
    isNative := false
    params := [⟨⟨"n", .nowhere⟩, ⟨.owned .integer, .nowhere⟩⟩]
    returns := [⟨.owned .integer, .nowhere⟩]
    body := some ⟨.nowhere,
      [.bind .nowhere [⟨"m", .nowhere⟩] (.call .nowhere ⟨"wick", .nowhere⟩ [.thread ⟨"n", .nowhere⟩]),
        .branch .nowhere (.compare .nowhere .eq (.name .nowhere "m")
            (.compare .nowhere .lt (.name .nowhere "n") (.integer .nowhere 10)))
          ⟨.nowhere, [.ret .nowhere (some (.text .nowhere "\""))]⟩ ⟨.nowhere, []⟩,
        .ret .nowhere (some (.name .nowhere "n"))]⟩ }]

theorem lantern_parse_inverts_print :
    lantern.wellFormed = true ∧ ∃ m, SourceModule.parse lantern.print 0 = .ok m ∧
      m.unplaced = lantern.unplaced ∧ m.wellFormed = true ∧ ∃ tokens printed,
        lex lantern.print 0 = .ok tokens ∧ lex m.print 0 = .ok printed ∧
        m.Written (tokens.map (·.node)) ∧ m.Written (printed.map (·.node)) ∧
        bearing (tokens.map (·.node)) = bearing (printed.map (·.node)) := by
  have hwf : lantern.wellFormed = true := by decide
  obtain ⟨m,hparse,hsame⟩ := parse_inverts_print.1 lantern 0 hwf
  exact ⟨hwf, m, hparse, hsame, parse_inverts_print.2 lantern.print 0 m hparse⟩

end Polled
