import Polled.Proofs.SpanTrees

/-!
What parsers take off a stream of tokens.

A parser that succeeds has taken a way to write its result (`Parser.Reads`), over which the result is
laid: it drops no token and invents none.
-/

namespace Polled

open List

variable {t : Token} {fault : SourceFault} {span : Span} {e : Expr} {ls ms : List (Located Token)}

namespace TokenStream

/-- The tokens are next, and the other stream is what follows them. -/
def Passes (s : TokenStream) (ls : List (Located Token)) (s' : TokenStream) : Prop :=
  s = ⟨ls ++ s'.rest, s'.stop⟩

variable {s s' : TokenStream}

theorem next?_eq_some : s.next? = some t ↔ ∃ span rest, s.rest = ⟨t, span⟩ :: rest := by
  rw [next?]
  cases s.rest with
  | nil => simp
  | cons l rest =>
    obtain ⟨_,_⟩ := l
    simp

theorem Passes.refl (s : TokenStream) : s.Passes [] s := rfl

theorem Passes.length (h : s.Passes ls s') : s.rest.length = ls.length + s'.rest.length := by
  rw [show s = _ from h,length_append]

theorem Passes.cons (ht : s.next? = some t) (h : s.skip.Passes ls s') :
    s.Passes (⟨t, s.here⟩ :: ls) s' := by
  obtain ⟨rest,_⟩ := s
  obtain ⟨_,_,rfl⟩ := next?_eq_some.1 ht
  obtain ⟨rfl,rfl⟩ := TokenStream.mk.inj h
  rfl

theorem Passes.one (ht : s.next? = some t) : s.Passes [⟨t, s.here⟩] s.skip := .cons ht (.refl _)

theorem Passes.append {u : TokenStream} (h : s.Passes ls u) (h' : u.Passes ms s') :
    s.Passes (ls ++ ms) s' := by
  subst h
  rw [show u = _ from h']
  exact congrArg (TokenStream.mk · s'.stop) (append_assoc _ _ _).symm

/-- The stream behind the token, if it is next. -/
def past (s : TokenStream) (t : Token) : TokenStream := if s.next? == some t then s.skip else s

theorem passes_past (s : TokenStream) (t : Token) :
    s.Passes (if s.next? == some t then [⟨t, s.here⟩] else []) (s.past t) := by
  rw [past]
  split
  · next h => exact .one (beq_iff_eq.1 h)
  · exact .refl s

/-- An ampersand is next, and then a name. -/
def Threads (s : TokenStream) : Prop :=
  ∃ x, s.next? = some (.mark .ampersand) ∧ s.skip.next? = some (.name x)

end TokenStream

namespace Parser

section Steps

variable {α β : Type} {s s' : TokenStream}

theorem bind_apply (p : Parser α) (f : α → Parser β) : (p >>= f) s = match p s with
      | .ok (a, u) => f a u
      | .error e => .error e := by
  simp only [bind,StateT.bind,Except.bind]
  cases p s <;> rfl

theorem bind_eq_ok {p : Parser α} {f : α → Parser β} {r : β × TokenStream} :
    (p >>= f) s = .ok r ↔ ∃ a u, p s = .ok (a, u) ∧ f a u = .ok r := by
  rw [bind_apply]
  cases p s with
  | error e => simp
  | ok q =>
    obtain ⟨a,u⟩ := q
    simp

theorem bind_of_eq_ok {p : Parser α} {f : α → Parser β} {a : α} (h : p s = .ok (a, s')) :
    (p >>= f) s = f a s' := by
  rw [bind_apply,h]

theorem pure_eq_ok {a : α} {r : α × TokenStream} : (pure a : Parser α) s = .ok r ↔ (a, s) = r :=
  ⟨Except.ok.inj, congrArg Except.ok⟩

theorem wanted_ne_ok {what : String} {r : α × TokenStream} : wanted what s ≠ .ok r := nofun

theorem failWith_ne_ok {r : α × TokenStream} : failWith fault span s ≠ .ok r := nofun

theorem failWith_bind_ne_ok {f : α → Parser β} {r : β × TokenStream} :
    (failWith fault span >>= f) s ≠ .ok r := nofun

theorem here_bind (f : Span → Parser β) : (here >>= f) s = f s.here s := rfl

theorem next?_bind (f : Option Token → Parser β) : (next? >>= f) s = f s.next? s := rfl

theorem skip_bind (f : Unit → Parser β) : (skip >>= f) s = f () s.skip := rfl

theorem sees_bind (t : Token) (f : Bool → Parser β) : (sees t >>= f) s = f (s.next? == some t) s := rfl

theorem eat_bind (t : Token) (f : Bool → Parser β) :
    (eat t >>= f) s = f (s.next? == some t) (s.past t) := by
  have heat : eat t s = .ok (s.next? == some t, s.past t) := by
    rw [eat,sees_bind,TokenStream.past]
    cases s.next? == some t <;> rfl
  rw [bind_apply,heat]

theorem eat_bind_of_next? {f : Bool → Parser β} (h : s.next? = some t) :
    (eat t >>= f) s = f true s.skip := by
  rw [eat_bind,TokenStream.past,beq_iff_eq.2 h,if_pos rfl]

theorem eat_bind_of_ne {f : Bool → Parser β} (h : s.next? ≠ some t) : (eat t >>= f) s = f false s := by
  rw [eat_bind,TokenStream.past,beq_eq_false_iff_ne.2 h,if_neg Bool.false_ne_true]

theorem sees_bind_of_next? {f : Bool → Parser β} (h : s.next? = some t) :
    (sees t >>= f) s = f true s := by
  rw [sees_bind,beq_iff_eq.2 h]

theorem sees_bind_of_ne {f : Bool → Parser β} (h : s.next? ≠ some t) : (sees t >>= f) s = f false s := by
  rw [sees_bind,beq_eq_false_iff_ne.2 h]

theorem expect_of_next? (h : s.next? = some t) : expect t s = .ok (s.here, s.skip) := by
  rw [expect,sees_bind,beq_iff_eq.2 h]
  rfl

theorem expect_bind {f : Span → Parser β} {r : β × TokenStream} :
    (expect t >>= f) s = .ok r ↔ s.next? = some t ∧ f s.here s.skip = .ok r := by
  by_cases h : s.next? = some t
  · simp [bind_apply,expect_of_next? h,h]
  · have hexpect : expect t s = wanted t.display s := by
      rw [expect,sees_bind,beq_eq_false_iff_ne.2 h]
      rfl
    simp [bind_apply,hexpect,h,wanted]

theorem name_of_next? {x : String} (h : s.next? = some (.name x)) :
    name s = .ok (⟨x, s.here⟩, s.skip) := by
  rw [name,next?_bind,h]
  rfl

theorem name_bind {f : Located String → Parser β} {r : β × TokenStream} :
    (name >>= f) s = .ok r ↔ ∃ x, s.next? = some (.name x) ∧ f ⟨x, s.here⟩ s.skip = .ok r := by
  by_cases h : ∃ x, s.next? = some (.name x)
  · obtain ⟨x,hx⟩ := h
    simp [bind_apply,name_of_next? hx,hx]
  · have hname : name s = wanted "identifier" s := by
      rw [name,next?_bind]
      cases hnext : s.next? with
      | none => rfl
      | some t =>
        cases t with
        | name x => exact absurd ⟨x, hnext⟩ h
        | _ => rfl
    simp only [bind_apply,hname,wanted,reduceCtorEq,false_iff]
    exact fun ⟨x, hx, _⟩ => h ⟨x, hx⟩

theorem seesThread_apply (s : TokenStream) : seesThread s = match s.rest with
    | ⟨.mark .ampersand, _⟩ :: ⟨.name _, _⟩ :: _ => .ok (true, s)
    | _ => .ok (false, s) := by
  obtain ⟨rest,stop⟩ := s
  change (match rest with
    | ⟨.mark .ampersand, _⟩ :: ⟨.name _, _⟩ :: _ => (pure true : Parser Bool)
    | _ => pure false) ⟨rest, stop⟩ = _
  split <;> rfl

theorem seesThread_of_threads (h : s.Threads) : seesThread s = .ok (true, s) := by
  obtain ⟨x,hamp,hname⟩ := h
  obtain ⟨span,rest,hrest⟩ := TokenStream.next?_eq_some.1 hamp
  obtain ⟨place,rest',hrest'⟩ := TokenStream.next?_eq_some.1 hname
  have hlist : s.rest = ⟨.mark .ampersand, span⟩ :: ⟨.name x, place⟩ :: rest' := by
    rw [hrest,← hrest',TokenStream.skip,hrest,tail_cons]
  rw [seesThread_apply,hlist]

theorem seesThread_of_not_threads (h : ¬s.Threads) : seesThread s = .ok (false, s) := by
  rw [seesThread_apply]
  split
  · next span x place rest hrest =>
    exact absurd ⟨x, TokenStream.next?_eq_some.2 ⟨_, _, hrest⟩,
      TokenStream.next?_eq_some.2 ⟨place, rest, by rw [TokenStream.skip,hrest,tail_cons]⟩⟩ h
  · rfl

end Steps

section Sound

variable {α : Type} {R : α → List (Located Token) → Prop} {s s' : TokenStream}

/-- What the parser gives back, with the tokens that it has taken for it. -/
def Reads (p : Parser α) (R : α → List (Located Token) → Prop) : Prop :=
  ∀ ⦃s a s'⦄, p s = .ok (a, s') → ∃ ls, s.Passes ls s' ∧ R a ls

theorem reads_commaListFuel {part : Parser α} (h : Reads part R) (n : Nat) {as : List α}
    (hok : commaListFuel part n s = .ok (as, s')) :
    ∃ parts ls, s.Passes ls s' ∧ Spread parts ls ∧ Forall₂ R as parts ∧ as ≠ [] := by
  induction n generalizing s as with
  | zero =>
    rw [commaListFuel,bind_eq_ok] at hok
    obtain ⟨a,u,ha,hok⟩ := hok
    cases pure_eq_ok.1 hok
    obtain ⟨ls,hls,hR⟩ := h ha
    exact ⟨[ls], ls, hls, .single ls, .cons hR .nil, by simp⟩
  | succ n ih =>
    rw [commaListFuel,bind_eq_ok] at hok
    obtain ⟨a,u,ha,hok⟩ := hok
    obtain ⟨ls,hls,hR⟩ := h ha
    rw [eat_bind,TokenStream.past] at hok
    split at hok
    · next hcomma =>
      obtain ⟨_,v,has,hok⟩ := bind_eq_ok.1 hok
      cases pure_eq_ok.1 hok
      obtain ⟨_,_,hms,hspread,hall,hne⟩ := ih has
      cases hall with
      | nil => exact absurd rfl hne
      | cons hfirst hrest =>
        exact ⟨_, _, hls.append (.cons (beq_iff_eq.1 hcomma) hms), .cons ls _ hspread,
          .cons hR (.cons hfirst hrest), by simp⟩
    · cases pure_eq_ok.1 hok
      exact ⟨[ls], ls, hls, .single ls, .cons hR .nil, by simp⟩

theorem reads_untilParen {part : Parser α} (h : Reads part R) {as : List α}
    (hok : untilParen part s = .ok ((as, span), s')) :
    ∃ parts ls, s.Passes (ls ++ [⟨.mark .closeParen, span⟩]) s' ∧ Spread parts ls ∧
      Forall₂ R as parts := by
  have hlist : ∃ as' u, (as' = [] ∧ u = s ∨ commaList part s = .ok (as', u)) ∧
    u.next? = some (.mark .closeParen) ∧
      as = as' ∧ span = u.here ∧ s' = u.skip := by
    rw [untilParen,sees_bind] at hok
    split at hok
    · rw [bind_eq_ok] at hok
      obtain ⟨as',u,has,hok⟩ := hok
      cases pure_eq_ok.1 has
      obtain ⟨hclose,hok⟩ := expect_bind.1 hok
      cases pure_eq_ok.1 hok
      exact ⟨_, _, .inl ⟨rfl, rfl⟩, hclose, rfl, rfl, rfl⟩
    · rw [bind_eq_ok] at hok
      obtain ⟨as',u,has,hok⟩ := hok
      obtain ⟨hclose,hok⟩ := expect_bind.1 hok
      cases pure_eq_ok.1 hok
      exact ⟨_, _, .inr has, hclose, rfl, rfl, rfl⟩
  obtain ⟨_,u,⟨rfl,rfl⟩ | has,hclose,rfl,rfl,rfl⟩ := hlist
  · exact ⟨[], [], .one hclose, .nil, .nil⟩
  · obtain ⟨parts,ls,hls,hspread,hall,-⟩ := reads_commaListFuel h _ has
    exact ⟨parts, ls, hls.append (.one hclose), hspread, hall⟩

theorem comparison?_eq_some {op : Comparison} : t.comparison? = some op ↔ t = .mark op.mark := by
  constructor
  · intro h
    unfold Token.comparison? at h
    split at h <;> cases h <;> rfl
  · rintro rfl
    cases op <;> rfl

/-- An expression that may stand beside a comparison, over its tokens. -/
def OperandOver (e : Expr) (ls : List (Located Token)) : Prop :=
  WrittenOperand e (ls.map (·.node)) ∧ e.Over ls

theorem reads_comparison {operand : Parser Expr} (h : Reads operand OperandOver) :
    Reads (comparison operand) Expr.Over := by
  intro s e s' hok
  rw [comparison,bind_eq_ok] at hok
  obtain ⟨_,u,hlhs,hok⟩ := hok
  obtain ⟨ls,hls,hleft⟩ := h hlhs
  rw [next?_bind] at hok
  cases hop : u.next?.bind Token.comparison? with
  | none =>
    rw [hop] at hok
    cases pure_eq_ok.1 hok
    exact ⟨ls, hls, hleft.2⟩
  | some op =>
    rw [hop] at hok
    obtain ⟨t,ht,hcmp⟩ := Option.bind_eq_some_iff.1 hop
    obtain rfl := comparison?_eq_some.1 hcmp
    simp only [skip_bind] at hok
    obtain ⟨_,v,hrhs,hok⟩ := bind_eq_ok.1 hok
    obtain ⟨_,hms,hright⟩ := h hrhs
    cases pure_eq_ok.1 hok
    exact ⟨_, hls.append (.cons ht hms), Expr.over_compare op _ hleft.2 hright.2 hleft.1 hright.1⟩

section

variable {expr : Parser Expr} (h : Reads expr Expr.Over)

include h

theorem reads_argument : Reads (argument expr) Arg.Over := by
  intro s a s' hok
  by_cases hthread : s.Threads
  · rw [argument,bind_apply,seesThread_of_threads hthread] at hok
    simp only [if_true,skip_bind] at hok
    obtain ⟨y,hy,hok⟩ := name_bind.1 hok
    cases pure_eq_ok.1 hok
    obtain ⟨x,hamp,-⟩ := hthread
    exact ⟨_, .cons hamp (.one hy), _, rfl⟩
  · rw [argument,bind_apply,seesThread_of_not_threads hthread] at hok
    obtain ⟨e,u,he,hok⟩ := bind_eq_ok.1 hok
    cases pure_eq_ok.1 hok
    exact h he

theorem reads_callOf {callee : Located String} (hok : callOf expr callee s = .ok (e, s')) :
    ∃ ls, s.Passes ls s' ∧ OperandOver e (⟨.name callee.node, callee.span⟩ :: ls) := by
  obtain ⟨hopen,hok⟩ := expect_bind.1 hok
  obtain ⟨⟨_,close⟩,u,hargs,hok⟩ := bind_eq_ok.1 hok
  cases pure_eq_ok.1 hok
  obtain ⟨_,_,hls,hspread,hall⟩ := reads_untilParen (reads_argument h) hargs
  have hover := Expr.over_call callee hspread hall s.here close
  exact ⟨_, .cons hopen hls, .plain rfl hover.written, hover⟩

theorem reads_parenthesized {start : Span} (hok : parenthesized expr start s = .ok (e, s')) :
    ∃ ls, s.Passes ls s' ∧ OperandOver e (⟨.mark .openParen, start⟩ :: ls) := by
  obtain ⟨⟨items,close⟩,u,hitems,hok⟩ := bind_eq_ok.1 hok
  obtain ⟨_,ls,hls,hspread,hall⟩ := reads_untilParen h hitems
  have hmany (hne : items.length ≠ 1)
      (hok : (pure (Expr.tuple (start.cover close) items) : Parser Expr) u = .ok (e, s')) :
      ∃ ls, s.Passes ls s' ∧ OperandOver e (⟨.mark .openParen, start⟩ :: ls) := by
    cases pure_eq_ok.1 hok
    have hover := Expr.over_tuple hne hspread hall start close
    exact ⟨_, hls, .plain rfl hover.written, hover⟩
  match items, hall, hspread, hok with
  | [], hall, _, hok => exact hmany (by simp) hok
  | [item], .cons hitem .nil, .single _, hok =>
    cases pure_eq_ok.1 hok
    have hwritten : WrittenOperand (item.placed (start.cover close)) (inParens (ls.map (·.node))) :=
      .parens hitem.written.placed
    exact ⟨_, hls, by simpa [inParens] using hwritten, Expr.over_placed hitem start close⟩
  | _ :: _ :: _, hall, _, hok => exact hmany (by simp) hok

end

theorem reads_operandFuel (n : Nat) : Reads (operandFuel n) OperandOver := by
  induction n with
  | zero => exact fun _ _ _ hok => absurd hok wanted_ne_ok
  | succ n ih =>
    intro s e s' hok
    have hexpr := reads_comparison ih
    rw [operandFuel,here_bind,next?_bind] at hok
    cases hnext : s.next? with
    | none =>
      rw [hnext] at hok
      exact absurd hok wanted_ne_ok
    | some t =>
      rw [hnext] at hok
      simp only [skip_bind] at hok
      split at hok
      · cases pure_eq_ok.1 hok
        exact ⟨_, .one hnext, .plain rfl (.integer _ _), Expr.over_leaf (.integer _ _) rfl⟩
      · cases pure_eq_ok.1 hok
        exact ⟨_, .one hnext, .plain rfl (.text _ _), Expr.over_leaf (.text _ _) rfl⟩
      · cases pure_eq_ok.1 hok
        exact ⟨_, .one hnext, .plain rfl (.truth _ true), Expr.over_leaf (.truth _ true) rfl⟩
      · cases pure_eq_ok.1 hok
        exact ⟨_, .one hnext, .plain rfl (.truth _ false), Expr.over_leaf (.truth _ false) rfl⟩
      · next x =>
        rw [sees_bind] at hok
        split at hok
        · obtain ⟨ls,hls,hcall⟩ := reads_callOf hexpr hok
          exact ⟨_, .cons hnext hls, hcall⟩
        · cases pure_eq_ok.1 hok
          exact ⟨_, .one hnext, .plain rfl (.name _ x), Expr.over_leaf (.name _ x) rfl⟩
      · obtain ⟨_,hls,hoperand⟩ := reads_parenthesized hexpr hok
        exact ⟨_, .cons hnext hls, hoperand⟩
      · exact absurd hok failWith_ne_ok

theorem reads_expr : Reads expr Expr.Over := fun _ _ _ hok =>
  reads_comparison (reads_operandFuel _) hok

theorem reads_name : Reads name fun x ls => ls = [⟨.name x.node, x.span⟩] := by
  intro s x s' hok
  rw [← bind_pure name,name_bind] at hok
  obtain ⟨y,hy,hok⟩ := hok
  cases pure_eq_ok.1 hok
  exact ⟨_, .one hy, rfl⟩

structure KindOver (k : Located Kind) (ls : List (Located Token)) : Prop where
  wellFormed : k.node.wellFormed = true
  tokens : ls.map (·.node) = k.node.tokens
  span : ∃ first last, ls.head? = some first ∧ ls.getLast? = some last ∧
    k.span = first.span.cover last.span

theorem reads_kindFuel (n : Nat) : Reads (kindFuel n) KindOver := by
  induction n with
  | zero => exact fun _ _ _ hok => absurd hok wanted_ne_ok
  | succ n ih =>
    intro s k s' hok
    rw [kindFuel,here_bind,eat_bind,name_bind] at hok
    obtain ⟨x,hx,hok⟩ := hok
    cases hfamily : Family.ofName? x with
    | none =>
      rw [hfamily] at hok
      exact absurd hok failWith_ne_ok
    | some family =>
      obtain rfl : family.name = x := by simpa using find?_some hfamily
      rw [hfamily] at hok
      -- The first token is the ampersand or the name.
      obtain ⟨ks,hks,hnodes,hfirst⟩ : ∃ ks, s.Passes ks (s.past (.mark .ampersand)) ∧
          ks.map (·.node) = (if s.next? == some (.mark .ampersand) then [.mark .ampersand] else []) ∧
          ∀ (t : Token) (ms : List (Located Token)), ∃ l,
            (ks ++ ⟨t, (s.past (.mark .ampersand)).here⟩ :: ms).head? = some l ∧ l.span = s.here := by
        refine ⟨_, s.passes_past _, ?_⟩
        unfold TokenStream.past
        split
        · exact ⟨rfl, fun _ _ => ⟨_, rfl, rfl⟩⟩
        · exact ⟨rfl, fun _ _ => ⟨_, rfl, rfl⟩⟩
      generalize s.past (.mark .ampersand) = u at hok hks hx hfirst
      simp only [eat_bind,TokenStream.past] at hok
      split at hok
      · next hless =>
        split at hok
        · exact absurd hok failWith_bind_ne_ok
        · next htuple =>
          obtain ⟨_,v,hlist,hok⟩ := bind_eq_ok.1 hok
          obtain ⟨hgreater,hok⟩ := expect_bind.1 hok
          cases pure_eq_ok.1 hok
          obtain ⟨_,_,hls,hspread,hall,hne⟩ := reads_commaListFuel ih _ hlist
          obtain rfl := not_not.1 htuple
          refine ⟨_, hks.append (.cons hx (.cons (beq_iff_eq.1 hless) (hls.append (.one hgreater)))), ?_,
            ?_, ?_⟩
          · simp only [Kind.wellFormed,wellFormedKinds_eq,beq_self_eq_true,Bool.or_true,Bool.true_and,
              all_map,all_eq_true]
            intro k hk
            obtain ⟨_,-,hlaid⟩ := hspread.exists_of_mem hall hk
            exact hlaid.wellFormed
          · have hargs := hspread.map_node_eq hall _ fun _ _ hk => hk.tokens
            simp [Kind.tokens,tokensOfKinds_eq,hne,Function.comp_def,hnodes,hargs]
          · obtain ⟨l,hl,hspan⟩ := hfirst _ _
            exact ⟨l, ⟨.mark .greater, v.here⟩, hl, by simp [getLast?_cons], by rw [hspan]⟩
      · cases pure_eq_ok.1 hok
        obtain ⟨l,hl,hspan⟩ := hfirst _ _
        exact ⟨_, hks.append (.one hx), rfl, by simp [hnodes,Kind.tokens], l, _, hl,
          getLast?_concat, by rw [hspan]⟩

theorem reads_kind : Reads kind KindOver := fun _ _ _ hok => reads_kindFuel _ hok

theorem reads_statement {block : Parser Block} (h : Reads block Block.Over) {st : Stmt}
    (hok : statement block s = .ok (st, s')) :
    ∃ ls, s.Passes ls s' ∧ st.Over ls ∧
      (st.isBareReturn = true → s'.next? = some (.mark .closeBrace)) := by
  rw [statement,here_bind,next?_bind] at hok
  generalize hnext : s.next? = next at hok
  split at hok
  · rw [skip_bind] at hok
    obtain ⟨_,u,hnames,hok⟩ := bind_eq_ok.1 hok
    obtain ⟨hassign,hok⟩ := expect_bind.1 hok
    obtain ⟨value,v,hvalue,hok⟩ := bind_eq_ok.1 hok
    cases pure_eq_ok.1 hok
    obtain ⟨_,ls,hls,hspread,hall,hne⟩ := reads_commaListFuel reads_name _ hnames
    obtain ⟨ms,hms,hvalue⟩ := reads_expr hvalue
    exact ⟨_, .append (.cons hnext hls) (.cons hassign hms), Stmt.over_bind hne hspread hall _
      hvalue, nofun⟩
  · rw [skip_bind,sees_bind] at hok
    split at hok
    · next hclose =>
      cases pure_eq_ok.1 hok
      exact ⟨_, .one hnext, Stmt.over_bareReturn, fun _ => beq_iff_eq.1 hclose⟩
    · obtain ⟨_,v,hvalue,hok⟩ := bind_eq_ok.1 hok
      cases pure_eq_ok.1 hok
      obtain ⟨ls,hls,hvalue⟩ := reads_expr hvalue
      exact ⟨_, .cons hnext hls, Stmt.over_ret hvalue, nofun⟩
  · rw [skip_bind] at hok
    obtain ⟨cond,u,hcond,hok⟩ := bind_eq_ok.1 hok
    obtain ⟨t,v,htrue,hok⟩ := bind_eq_ok.1 hok
    obtain ⟨_,hks,hcond⟩ := reads_expr hcond
    obtain ⟨ls,hls,ht⟩ := h htrue
    rw [eat_bind,TokenStream.past] at hok
    split at hok
    · next helse =>
      obtain ⟨e,w,he,hok⟩ := bind_eq_ok.1 hok
      cases pure_eq_ok.1 hok
      obtain ⟨ms,hms,he⟩ := h he
      exact ⟨_, .append (.cons hnext (hks.append hls)) (.cons (beq_iff_eq.1 helse) hms),
        Stmt.over_branch hcond ht _ he, nofun⟩
    · obtain ⟨e,w,he,hok⟩ := bind_eq_ok.1 hok
      cases pure_eq_ok.1 he
      cases pure_eq_ok.1 hok
      exact ⟨_, .append (.cons hnext hks) hls, Stmt.over_branchOnly hcond ht, nofun⟩
  · rw [skip_bind] at hok
    obtain ⟨_,u,hcond,hok⟩ := bind_eq_ok.1 hok
    obtain ⟨_,v,hbody,hok⟩ := bind_eq_ok.1 hok
    cases pure_eq_ok.1 hok
    obtain ⟨ls,hls,hcond⟩ := reads_expr hcond
    obtain ⟨_,hms,hbody⟩ := h hbody
    exact ⟨_, .append (.cons hnext hls) hms, Stmt.over_loop hcond hbody, nofun⟩
  · obtain ⟨e,u,he,hok⟩ := bind_eq_ok.1 hok
    cases pure_eq_ok.1 hok
    obtain ⟨ls,hls,he⟩ := reads_expr he
    obtain ⟨l,_,rfl⟩ := exists_cons_of_ne_nil he.ne_nil
    have hhere : s.here = l.span := by rw [show s = _ from hls]; rfl
    exact ⟨_, hls, hhere ▸ Stmt.over_run he, nofun⟩

theorem reads_statementsFuel {block : Parser Block} (h : Reads block Block.Over) (n : Nat)
    {ss : List Stmt} (hok : statementsFuel (statement block) n s = .ok (ss, s')) :
    ∃ ls, s.Passes ls s' ∧ OverStmts ss ls ∧
      (s.next? = some (.mark .closeBrace) → ss = []) := by
  induction n generalizing s ss with
  | zero =>
    rw [statementsFuel,here_bind] at hok
    exact absurd hok failWith_ne_ok
  | succ n ih =>
    rw [statementsFuel,sees_bind] at hok
    split at hok
    · cases pure_eq_ok.1 hok
      exact ⟨[], .refl _, ⟨.nil, fun _ => .nil⟩, fun _ => rfl⟩
    · next hclose =>
      rw [next?_bind] at hok
      split at hok
      · rw [here_bind] at hok
        exact absurd hok failWith_bind_ne_ok
      · obtain ⟨_,u,hst,hok⟩ := bind_eq_ok.1 hok
        obtain ⟨_,v,hrest,hok⟩ := bind_eq_ok.1 hok
        cases pure_eq_ok.1 hok
        obtain ⟨_,hls,hst,hbare⟩ := reads_statement h hst
        obtain ⟨_,hms,hrest,hend⟩ := ih hrest
        refine ⟨_, hls.append hms, ⟨?_, fun ho => ?_⟩, fun hb => absurd (beq_iff_eq.2 hb) hclose⟩
        · rw [map_append]
          exact .cons hst.written (fun hb => hend (hbare hb)) hrest.written
        · exact .part (hst.laid ho.left) (hrest.fills ho.right)

theorem reads_blockFuel (n : Nat) : Reads (blockFuel n) Block.Over := by
  induction n with
  | zero => exact fun _ _ _ hok => absurd hok wanted_ne_ok
  | succ n ih =>
    intro s b s' hok
    obtain ⟨hopen,hok⟩ := expect_bind.1 hok
    obtain ⟨_,u,hss,hok⟩ := bind_eq_ok.1 hok
    obtain ⟨hclose,hok⟩ := expect_bind.1 hok
    cases pure_eq_ok.1 hok
    obtain ⟨_,hls,hss,-⟩ := reads_statementsFuel ih _ hss
    exact ⟨_, .append (.cons hopen hls) (.one hclose), Block.over hss _ _⟩

theorem reads_param : Reads param fun p ls =>
    p.kind.node.wellFormed = true ∧ ls.map (·.node) = p.tokens ∧
      ⟨.name p.name.node, p.name.span⟩ ∈ ls := by
  intro s p s' hok
  obtain ⟨x,hx,hok⟩ := name_bind.1 hok
  obtain ⟨hcolon,hok⟩ := expect_bind.1 hok
  obtain ⟨k,u,hk,hok⟩ := bind_eq_ok.1 hok
  cases pure_eq_ok.1 hok
  obtain ⟨_,hls,hwf,htokens,-⟩ := reads_kind hk
  exact ⟨_, .cons hx (.cons hcolon hls), hwf, by simp [Param.tokens,htokens], mem_cons_self⟩

theorem reads_returnKinds : Reads returnKinds fun ks ls =>
    (∀ k ∈ ks, k.node.wellFormed = true) ∧ WrittenReturns ks (ls.map (·.node)) := by
  intro s ks s' hok
  rw [returnKinds,eat_bind,TokenStream.past] at hok
  split at hok
  · next hopen =>
    obtain ⟨⟨ks',_⟩,u,hks,hok⟩ := bind_eq_ok.1 hok
    cases pure_eq_ok.1 hok
    obtain ⟨_,ls,hls,hspread,hall⟩ := reads_untilParen reads_kind hks
    have htokens := hspread.map_node_eq hall (fun k => k.node.tokens) fun _ _ hk => hk.tokens
    refine ⟨_, .cons (beq_iff_eq.1 hopen) hls,
      fun k hk => ?_, by simpa [htokens,inParens] using WrittenReturns.parens ks'⟩
    obtain ⟨_,-,hlaid⟩ := hspread.exists_of_mem hall hk
    exact hlaid.wellFormed
  · obtain ⟨k,u,hk,hok⟩ := bind_eq_ok.1 hok
    cases pure_eq_ok.1 hok
    obtain ⟨_,hls,hwf,htokens,-⟩ := reads_kind hk
    exact ⟨_, hls, by simpa using hwf, htokens ▸ .single k⟩

theorem reads_bodyOf {name : String} {isNative : Bool} : Reads (bodyOf name isNative) fun body ls =>
    WrittenBody isNative body (ls.map (·.node)) ∧ ∀ b ∈ body, b.Over ls := by
  intro s body s' hok
  rw [bodyOf,sees_bind] at hok
  cases isNative with
  | false =>
    split at hok
    · obtain ⟨b,u,hb,hok⟩ := bind_eq_ok.1 hok
      cases pure_eq_ok.1 hok
      obtain ⟨ls,hls,hb⟩ := reads_blockFuel _ hb
      exact ⟨ls, hls, .block hb.written, by simpa using hb⟩
    · exact absurd hok failWith_ne_ok
  | true =>
    split at hok
    · simp only [if_true,here_bind] at hok
      exact absurd hok failWith_bind_ne_ok
    · cases pure_eq_ok.1 hok
      exact ⟨[], .refl _, .native, by simp⟩

/-- A function over its tokens: its body is laid over some of them, and its names are among them. -/
structure DeclOver (d : Decl) (ls : List (Located Token)) : Prop where
  written : d.Written (ls.map (·.node))
  body : ∀ b ∈ d.body, ∃ ms, ms <:+: ls ∧ b.Over ms
  names : ∀ x ∈ d.name :: d.params.map (·.name), ⟨.name x.node, x.span⟩ ∈ ls

theorem reads_decl : Reads decl DeclOver := by
  intro s d s' hok
  rw [decl,here_bind,eat_bind,eat_bind] at hok
  obtain ⟨hfunc,hok⟩ := expect_bind.1 hok
  obtain ⟨x,hx,hok⟩ := name_bind.1 hok
  obtain ⟨hopen,hok⟩ := expect_bind.1 hok
  obtain ⟨⟨_,_⟩,u,hparams,hok⟩ := bind_eq_ok.1 hok
  obtain ⟨hcolon,hok⟩ := expect_bind.1 hok
  obtain ⟨_,v,hreturns,hok⟩ := bind_eq_ok.1 hok
  obtain ⟨_,w,hbody,hok⟩ := bind_eq_ok.1 hok
  cases pure_eq_ok.1 hok
  obtain ⟨_,_,hls,hspread,hall⟩ := reads_untilParen reads_param hparams
  obtain ⟨_,hms,hwf,hreturns⟩ := reads_returnKinds hreturns
  obtain ⟨ks,hks,hbody,hlaid⟩ := reads_bodyOf hbody
  have hflags :=
    (s.passes_past (.keyword .syncKw)).append
      ((s.past (.keyword .syncKw)).passes_past (.keyword .nativeKw))
  refine ⟨_, ((hflags.append (.cons hfunc (.cons hx (.cons hopen hls)))).append
    (.cons hcolon hms)).append hks, ?_, ?_, ?_⟩
  · have htokens := hspread.map_node_eq hall _ fun _ _ hp => hp.2.1
    have hflag (b : Bool) (l : Located Token) : map (·.node) (if b then [l] else []) =
        if b then [l.node] else [] := by
      cases b <;> rfl
    simp only [map_append,map_cons,map_nil,hflag,htokens]
    refine .mk (fun p hp => ?_) hwf hreturns hbody
    obtain ⟨_,-,hwf,-⟩ := hspread.exists_of_mem hall hp
    exact hwf
  · exact fun b hb => ⟨ks, (suffix_append _ _).isInfix, hlaid b hb⟩
  · refine forall_mem_cons.2 ⟨by simp, forall_mem_map.2 fun p hp => ?_⟩
    obtain ⟨_,hsub,-,-,hname⟩ := hspread.exists_of_mem hall hp
    simp [hsub hname]

theorem reads_importsFuel (n : Nat) : Reads (importsFuel n) fun xs ls =>
    ls.map (·.node) = xs.flatMap (fun x => [.keyword .importKw, .name x.node]) ∧
      ∀ x ∈ xs, ⟨.name x.node, x.span⟩ ∈ ls := by
  induction n with
  | zero =>
    intro s xs s' hok
    cases pure_eq_ok.1 hok
    exact ⟨[], .refl _, rfl, by simp⟩
  | succ n ih =>
    intro s xs s' hok
    rw [importsFuel,eat_bind,TokenStream.past] at hok
    split at hok
    · next himport =>
      obtain ⟨x,hx,hok⟩ := name_bind.1 hok
      obtain ⟨_,u,hrest,hok⟩ := bind_eq_ok.1 hok
      cases pure_eq_ok.1 hok
      obtain ⟨_,hls,htokens,hnames⟩ := ih hrest
      refine ⟨_, .cons (beq_iff_eq.1 himport) (.cons hx hls), by simp [htokens], ?_⟩
      exact forall_mem_cons.2 ⟨by simp, fun y hy => by simp [hnames y hy]⟩
    · cases pure_eq_ok.1 hok
      exact ⟨[], .refl _, rfl, by simp⟩

theorem reads_declsFuel (n : Nat) {ds : List Decl} (hn : s.rest.length ≤ n)
    (hok : declsFuel n s = .ok (ds, s')) :
    ∃ parts, s.Passes parts.flatten s' ∧ Forall₂ DeclOver ds parts ∧ s'.rest = [] := by
  induction n generalizing s ds with
  | zero =>
    cases pure_eq_ok.1 hok
    exact ⟨[], .refl _, .nil, eq_nil_of_length_eq_zero (Nat.le_zero.1 hn)⟩
  | succ n ih =>
    have hdecl (hok : (decl >>= fun d => declsFuel n >>= fun ds => pure (d :: ds)) s = .ok (ds, s')) :
        ∃ parts, s.Passes parts.flatten s' ∧ Forall₂ DeclOver ds parts ∧ s'.rest = [] := by
      obtain ⟨d,u,hd,hok⟩ := bind_eq_ok.1 hok
      obtain ⟨_,v,hrest,hok⟩ := bind_eq_ok.1 hok
      cases pure_eq_ok.1 hok
      obtain ⟨ls,hls,hlaid⟩ := reads_decl hd
      have hlength := hls.length
      have hpos := hlaid.written.length_pos
      rw [length_map] at hpos
      obtain ⟨parts,hparts,hall,hend⟩ := ih (by omega) hrest
      exact ⟨ls :: parts, hls.append hparts, .cons hlaid hall, hend⟩
    rw [declsFuel,next?_bind] at hok
    generalize hnext : s.next? = next at hok
    split at hok
    · cases pure_eq_ok.1 hok
      refine ⟨[], .refl _, .nil, ?_⟩
      simpa [TokenStream.next?] using hnext
    · exact hdecl hok
    · exact hdecl hok
    · exact hdecl hok
    · exact absurd hok (by rw [here_bind]; exact failWith_ne_ok)
    · exact absurd hok wanted_ne_ok

end Sound

end Parser

/-- The names that a module imports, declares and gives to parameters. -/
def SourceModule.declared (m : SourceModule) : List (Located String) :=
  m.imports ++ m.functions.flatMap fun d => d.name :: d.params.map (·.name)

theorem SourceModule.laid_of_parse {text : List Char} {file : Nat} {m : SourceModule}
    (h : parse text file = .ok m) :
    ∃ tokens, lex text file = .ok tokens ∧ m.Written (tokens.map (·.node)) ∧
      (∀ d ∈ m.functions, ∀ b ∈ d.body, ∃ ls, ls <:+: tokens ∧ b.Over ls) ∧
      ∀ x ∈ m.declared, ⟨.name x.node, x.span⟩ ∈ tokens := by
  unfold parse at h
  cases hlex : lex text file with
  | error e =>
    rw [hlex] at h
    cases h
  | ok tokens =>
    cases hmodule : Parser.sourceModule (.ofTokens tokens file) with
    | error snag =>
      simp only [hlex,bind,Except.bind,hmodule] at h
      cases h
    | ok r =>
      simp only [hlex,bind,Except.bind,hmodule] at h
      cases h
      obtain ⟨_,u,himports,hmodule⟩ := Parser.bind_eq_ok.1 hmodule
      obtain ⟨functions,v,hfunctions,hmodule⟩ := Parser.bind_eq_ok.1 hmodule
      cases Parser.pure_eq_ok.1 hmodule
      obtain ⟨ls,hls,himports,hnames⟩ := Parser.reads_importsFuel _ himports
      obtain ⟨parts,hparts,hall,hend⟩ := Parser.reads_declsFuel _ le_rfl hfunctions
      have htokens : tokens = ls ++ parts.flatten := by
        have hrest := congrArg TokenStream.rest (hls.append hparts)
        rwa [hend,append_nil] at hrest
      have hpart {d : Decl} (hd : d ∈ functions) : ∃ part, part <:+: tokens ∧
          Parser.DeclOver d part := by
        obtain ⟨i,hi,rfl⟩ := mem_iff_getElem.1 hd
        have hi' : i < parts.length := hall.length_eq ▸ hi
        refine ⟨parts[i], ?_, hall.get hi hi'⟩
        rw [htokens]
        exact (infix_of_mem_flatten (getElem_mem hi')).trans (suffix_append _ _).isInfix
      refine ⟨tokens, rfl, ⟨parts.map (·.map (·.node)), ?_, ?_⟩, fun d hd b hb => ?_, ?_⟩
      · exact forall₂_map_right_iff.2 (hall.imp fun _ _ hd => hd.written)
      · rw [htokens,map_append,himports,map_flatten]
      · obtain ⟨part,hpart,hd⟩ := hpart hd
        obtain ⟨ms,hms,hlaid⟩ := hd.body b hb
        exact ⟨ms, hms.trans hpart, hlaid⟩
      · refine forall_mem_append.2 ⟨fun x hx => htokens ▸ mem_append_left _ (hnames x hx),
          fun x hx => ?_⟩
        obtain ⟨d,hd,hx⟩ := mem_flatMap.1 hx
        obtain ⟨_,hpart,hd⟩ := hpart hd
        exact hpart.subset (hd.names x hx)

end Polled
