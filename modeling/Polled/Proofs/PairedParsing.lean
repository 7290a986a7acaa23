import Polled.Proofs.Pairing
import Polled.Proofs.Parsing

/-!
Parsing does not look at places.

On streams with the same tokens at related places, every parser ends alike: with paired trees, or with
the same error at related places.
-/

namespace Polled

open List

variable {ts ts' : List (Located Token)} {text : List Char}

section Streams

/-- The same tokens at related places. -/
structure TokenStream.Paired (R : Span → Span → Prop) (s t : TokenStream) : Prop where
  rest : Forall₂ (Located.Paired R) s.rest t.rest
  stop : R s.stop t.stop

variable {R : Span → Span → Prop} {s t : TokenStream}

namespace TokenStream.Paired

section

variable (h : s.Paired R t)

include h

theorem skip : s.skip.Paired R t.skip := by
  obtain ⟨_,_⟩ := s
  obtain ⟨_,_⟩ := t
  obtain ⟨hrest,hstop⟩ := h
  cases hrest with
  | nil => exact ⟨.nil, hstop⟩
  | cons _ hrest => exact ⟨hrest, hstop⟩

theorem next?_eq : s.next? = t.next? := by
  obtain ⟨_,_⟩ := s
  obtain ⟨_,_⟩ := t
  obtain ⟨hrest,_⟩ := h
  cases hrest with
  | nil => rfl
  | cons hfirst _ => exact congrArg some hfirst.node

theorem here : R s.here t.here := by
  obtain ⟨_,_⟩ := s
  obtain ⟨_,_⟩ := t
  obtain ⟨hrest,hstop⟩ := h
  cases hrest with
  | nil => exact hstop
  | cons hfirst _ => exact hfirst.span

theorem found_eq : s.found = t.found := by
  rw [found,found,h.next?_eq]

theorem threads_iff : s.Threads ↔ t.Threads := by
  rw [Threads,Threads,h.next?_eq,h.skip.next?_eq]

end

end TokenStream.Paired

end Streams

namespace Parser

variable {R : Span → Span → Prop} {α : Type} {V : α → α → Prop}

/-- The parsers end alike on paired streams. -/
abbrev Agrees (R : Span → Span → Prop) (V : α → α → Prop) (p q : Parser α) : Prop :=
  Agree (TokenStream.Paired R) (fun a b => a.error.Paired R b.error) V p q

section Steps

theorem agrees_failWith (fault : SourceFault) {s t : Span} (h : R s t) :
    Agrees R V (failWith fault s) (failWith fault t) :=
  fun _ _ _ => .error (.source fault h)

theorem agrees_wanted (what : String) : Agrees R V (wanted what) (wanted what) := by
  intro s t hs
  rw [wanted,wanted,hs.found_eq]
  exact .error (.source _ hs.here)

theorem agrees_here : Agrees R R here here := fun _ _ hs => .ok ⟨hs.here, hs⟩

theorem agrees_next? : Agrees R Eq next? next? := fun _ _ hs => .ok ⟨hs.next?_eq, hs⟩

theorem agrees_skip : Agrees R Eq skip skip := fun _ _ hs => .ok ⟨rfl, hs.skip⟩

theorem agrees_sees (t : Token) : Agrees R Eq (sees t) (sees t) := by
  intro s s' hs
  exact .ok ⟨congrArg (· == some t) hs.next?_eq, hs⟩

theorem agrees_eat (t : Token) : Agrees R Eq (eat t) (eat t) := by
  refine (agrees_sees t).bind_eq fun found => ?_
  cases found with
  | false => exact .pure rfl
  | true => exact agrees_skip.bind_eq fun _ => .pure rfl

theorem agrees_expect (t : Token) : Agrees R R (expect t) (expect t) := by
  refine (agrees_sees t).bind_eq fun found => ?_
  cases found with
  | false => exact agrees_wanted _
  | true => exact agrees_here.bind fun s s' hs => agrees_skip.bind_eq fun _ => .pure hs

theorem agrees_name : Agrees R (Located.Paired R) name name := by
  refine agrees_next?.bind_eq fun next => ?_
  match next with
  | some (.name x) => exact agrees_here.bind fun s s' hs => agrees_skip.bind_eq fun _ => .pure ⟨rfl, hs⟩
  | none | some (.keyword _) | some (.integer _) | some (.text _) | some (.mark _) =>
    exact agrees_wanted _

theorem agrees_seesThread : Agrees R Eq seesThread seesThread := by
  intro s t hs
  by_cases h : s.Threads
  · rw [seesThread_of_threads h,seesThread_of_threads (hs.threads_iff.1 h)]
    exact .ok ⟨rfl, hs⟩
  · rw [seesThread_of_not_threads h,seesThread_of_not_threads (hs.threads_iff.not.1 h)]
    exact .ok ⟨rfl, hs⟩

/-- Paired streams are equally long, so both sides have the same depth left. -/
theorem agrees_sized {p q : Nat → Parser α} (h : ∀ n, Agrees R V (p n) (q n)) :
    Agrees R V (fun s => p s.rest.length s) (fun s => q s.rest.length s) := by
  intro s t hs
  change Alike _ _ (p s.rest.length s) (q t.rest.length t)
  rw [hs.rest.length_eq]
  exact h _ hs

end Steps

section Lists

variable {part part' : Parser α}

theorem agrees_commaListFuel (h : Agrees R V part part') (n : Nat) :
    Agrees R (Forall₂ V) (commaListFuel part n) (commaListFuel part' n) := by
  induction n with
  | zero => exact h.bind fun a b hab => .pure (.cons hab .nil)
  | succ n ih =>
    refine h.bind fun a b hab => (agrees_eat _).bind_eq fun comma => ?_
    cases comma with
    | false => exact .pure (.cons hab .nil)
    | true => exact ih.bind fun as bs habs => .pure (.cons hab habs)

theorem agrees_commaList (h : Agrees R V part part') :
    Agrees R (Forall₂ V) (commaList part) (commaList part') :=
  agrees_sized (agrees_commaListFuel h)

theorem agrees_untilParen (h : Agrees R V part part') :
    Agrees R (fun a b => Forall₂ V a.1 b.1 ∧ R a.2 b.2) (untilParen part) (untilParen part') := by
  have hclose (parts parts' : List α) (hparts : Forall₂ V parts parts') :
      Agrees R (fun a b => Forall₂ V a.1 b.1 ∧ R a.2 b.2)
        (expectMark .closeParen >>= fun close => pure (parts, close))
        (expectMark .closeParen >>= fun close => pure (parts', close)) :=
    (agrees_expect _).bind fun s t hs => .pure ⟨hparts, hs⟩
  refine (agrees_sees _).bind_eq fun close => ?_
  cases close with
  | true => exact hclose [] [] .nil
  | false => exact (agrees_commaList h).bind hclose

end Lists

section Kinds

variable (hR : Steady R)

include hR

theorem agrees_kindFuel (n : Nat) : Agrees R (Located.Paired R) (kindFuel n) (kindFuel n) := by
  induction n with
  | zero => exact agrees_wanted _
  | succ n ih =>
    refine agrees_here.bind fun start start' hstart => (agrees_eat _).bind_eq fun borrowed =>
      agrees_name.bind fun word word' hword => ?_
    rw [hword.node]
    cases Family.ofName? word'.node with
    | none => exact agrees_failWith _ hword.span
    | some family =>
      refine (agrees_eat _).bind_eq fun less => ?_
      cases less with
      | false => exact .pure ⟨rfl, hR.cover hstart hword.span⟩
      | true =>
        have hargs : Agrees R (Located.Paired R)
            (do
              let args ← commaList (kindFuel n)
              let stop ← expectMark .greater
              return (⟨⟨borrowed, family, args.map (·.node)⟩, start.cover stop⟩ : Located Kind))
            (do
              let args ← commaList (kindFuel n)
              let stop ← expectMark .greater
              return (⟨⟨borrowed, family, args.map (·.node)⟩, start'.cover stop⟩ : Located Kind)) :=
          (agrees_commaList ih).bind fun args args' hargs => (agrees_expect _).bind
            fun stop stop' hstop =>
            .pure ⟨by rw [map_node_eq hargs], hR.cover hstart hstop⟩
        -- Only tuples take arguments. For another family parsing has failed before it comes to them.
        by_cases htuple : family = .tuple
        · subst htuple
          exact hargs
        · simp only [ne_eq,htuple,not_false_eq_true,if_true]
          exact (agrees_failWith _ hword.span).bind_eq fun _ => hargs

theorem agrees_kind : Agrees R (Located.Paired R) kind kind := agrees_sized (agrees_kindFuel hR)

end Kinds

section Expressions

variable {operand operand' expr' expr'' : Parser Expr}

theorem agrees_comparison (hR : Steady R) (h : Agrees R (Expr.Paired R) operand operand') :
    Agrees R (Expr.Paired R) (comparison operand) (comparison operand') := by
  refine h.bind fun lhs lhs' hlhs => agrees_next?.bind_eq fun next => ?_
  cases next.bind Token.comparison? with
  | none => exact .pure hlhs
  | some op =>
    exact agrees_skip.bind_eq fun _ => h.bind fun rhs rhs' hrhs =>
      .pure (.compare op (hR.cover hlhs.span hrhs.span) hlhs hrhs)

theorem agrees_argument (h : Agrees R (Expr.Paired R) expr' expr'') :
    Agrees R (Arg.Paired R) (argument expr') (argument expr'') := by
  refine agrees_seesThread.bind_eq fun thread => ?_
  cases thread with
  | true => exact agrees_skip.bind_eq fun _ => agrees_name.bind fun x y hxy => .pure (.thread hxy)
  | false => exact h.bind fun e e' he => .pure (.value he)

variable (hR : Steady R)

include hR

theorem agrees_callOf (h : Agrees R (Expr.Paired R) expr' expr'') {callee callee' : Located String}
    (hcallee : callee.Paired R callee') :
    Agrees R (Expr.Paired R) (callOf expr' callee) (callOf expr'' callee') :=
  (agrees_expect _).bind fun _ _ _ => (agrees_untilParen (agrees_argument h)).bind fun _ _ hargs =>
    .pure (.call (hR.cover hcallee.span hargs.2) hcallee hargs.1)

theorem agrees_parenthesized (h : Agrees R (Expr.Paired R) expr' expr'') {start start' : Span}
    (hstart : R start start') :
    Agrees R (Expr.Paired R) (parenthesized expr' start) (parenthesized expr'' start') := by
  refine (agrees_untilParen h).bind fun ⟨items, close⟩ ⟨items', close'⟩ ⟨hitems, hclose⟩ => ?_
  have hspan := hR.cover hstart hclose
  match items, items', hitems with
  | _, _, .nil => exact .pure (.tuple hspan .nil)
  | _, _, .cons hitem .nil => exact .pure (hitem.placed hspan)
  | _, _, .cons hitem (.cons hnext hitems) =>
    exact .pure (.tuple hspan (.cons hitem (.cons hnext hitems)))

theorem agrees_operandFuel (n : Nat) : Agrees R (Expr.Paired R) (operandFuel n) (operandFuel n) := by
  induction n with
  | zero => exact agrees_wanted _
  | succ n ih =>
    have hexpr := agrees_comparison hR ih
    refine agrees_here.bind fun span span' hspan => agrees_next?.bind_eq fun next => ?_
    cases next with
    | none => exact agrees_wanted _
    | some token =>
      refine agrees_skip.bind_eq fun _ => ?_
      match token with
      | .integer v => exact .pure (.integer v hspan)
      | .text v => exact .pure (.text v hspan)
      | .keyword .trueKw => exact .pure (.truth true hspan)
      | .keyword .falseKw => exact .pure (.truth false hspan)
      | .mark .openParen => exact agrees_parenthesized hR hexpr hspan
      | .name x =>
        refine (agrees_sees _).bind_eq fun paren => ?_
        cases paren with
        | true => exact agrees_callOf hR hexpr ⟨rfl, hspan⟩
        | false => exact .pure (.name x hspan)
      | .keyword .importKw | .keyword .funcKw | .keyword .syncKw | .keyword .nativeKw | .keyword .letKw
      | .keyword .returnKw | .keyword .ifKw | .keyword .elseKw | .keyword .whileKw | .mark .assign
          | .mark .equal
      | .mark .notEqual | .mark .less | .mark .greater | .mark .lessEqual | .mark .greaterEqual
          | .mark .ampersand
      | .mark .closeParen | .mark .openBrace | .mark .closeBrace | .mark .comma | .mark .colon =>
        exact agrees_failWith _ hspan

theorem agrees_expr : Agrees R (Expr.Paired R) expr expr :=
  agrees_sized fun n => agrees_comparison hR (agrees_operandFuel hR n)

end Expressions

section Statements

variable (hR : Steady R)

theorem agrees_statementsFuel {stmt stmt' : Parser Stmt}
    (h : Agrees R (Stmt.Paired R) stmt stmt') (n : Nat) :
    Agrees R (Forall₂ (Stmt.Paired R)) (statementsFuel stmt n) (statementsFuel stmt' n) := by
  induction n with
  | zero => exact agrees_here.bind fun _ _ hspan => agrees_failWith _ hspan
  | succ n ih =>
    refine (agrees_sees _).bind_eq fun close => ?_
    cases close with
    | true => exact .pure .nil
    | false =>
      refine agrees_next?.bind_eq fun next => ?_
      have hstmts := h.bind fun s s' hs => ih.bind fun ss ss' hss => .pure (Forall₂.cons hs hss)
      cases next with
      | some token => exact hstmts
      | none => exact agrees_here.bind fun _ _ hspan => (agrees_failWith _ hspan).bind_eq fun _ => hstmts

include hR

theorem agrees_statement {block' block'' : Parser Block} (h : Agrees R (Block.Paired R) block' block'') :
    Agrees R (Stmt.Paired R) (statement block') (statement block'') := by
  refine agrees_here.bind fun start start' hstart => agrees_next?.bind_eq fun next => ?_
  have hrun : Agrees R (Stmt.Paired R) (do let e ← expr; return Stmt.run (start.cover e.span) e)
      (do let e ← expr; return Stmt.run (start'.cover e.span) e) :=
    (agrees_expr hR).bind fun _ _ he => .pure (.run (hR.cover hstart he.span) he)
  match next with
  | some (.keyword .letKw) =>
    exact agrees_skip.bind_eq fun _ => (agrees_commaList agrees_name).bind fun _ _ hnames =>
      (agrees_expect _).bind fun _ _ _ => (agrees_expr hR).bind fun _ _ hvalue =>
        .pure (.bind (hR.cover hstart hvalue.span) hnames hvalue)
  | some (.keyword .returnKw) =>
    refine agrees_skip.bind_eq fun _ => (agrees_sees _).bind_eq fun close => ?_
    cases close with
    | true => exact .pure (.ret hstart .none)
    | false =>
      exact (agrees_expr hR).bind fun _ _ hvalue =>
        .pure (.ret (hR.cover hstart hvalue.span) (.some hvalue))
  | some (.keyword .ifKw) =>
    refine agrees_skip.bind_eq fun _ => (agrees_expr hR).bind fun _ _ hcond => h.bind fun _ _ hTrue =>
      (agrees_eat _).bind_eq fun found => ?_
    have hbranch (onFalse onFalse' : Block) (hFalse : onFalse.Paired R onFalse') :=
      Stmt.Paired.branch (hR.cover hstart (hR.cover hFalse.span hTrue.span)) hcond hTrue hFalse
    cases found with
    | true => exact h.bind fun _ _ hFalse => .pure (hbranch _ _ hFalse)
    | false => exact .pure (hbranch _ _ (.mk (hR.after hTrue.span) .nil))
  | some (.keyword .whileKw) =>
    exact agrees_skip.bind_eq fun _ => (agrees_expr hR).bind fun _ _ hcond => h.bind fun _ _ hbody =>
      .pure (.loop (hR.cover hstart hbody.span) hcond hbody)
  | none | some (.integer _) | some (.text _) | some (.name _) | some (.mark _) | some
      (.keyword .importKw)
  | some (.keyword .funcKw) | some (.keyword .syncKw) | some (.keyword .nativeKw) | some
      (.keyword .elseKw)
  | some (.keyword .trueKw) | some (.keyword .falseKw) => exact hrun

theorem agrees_blockFuel (n : Nat) : Agrees R (Block.Paired R) (blockFuel n) (blockFuel n) := by
  induction n with
  | zero => exact agrees_wanted _
  | succ n ih =>
    exact (agrees_expect _).bind fun _ _ hopened =>
      (agrees_sized (agrees_statementsFuel (agrees_statement hR ih))).bind fun _ _ hstmts =>
        (agrees_expect _).bind fun _ _ hclosed => .pure (.mk (hR.cover hopened hclosed) hstmts)

end Statements

section Declarations

variable (hR : Steady R)

theorem agrees_importsFuel (n : Nat) :
    Agrees R (Forall₂ (Located.Paired R)) (importsFuel n) (importsFuel n) := by
  induction n with
  | zero => exact .pure .nil
  | succ n ih =>
    refine (agrees_eat _).bind_eq fun found => ?_
    cases found with
    | true => exact agrees_name.bind fun _ _ hx => ih.bind fun _ _ hxs => .pure (.cons hx hxs)
    | false => exact .pure .nil

include hR

theorem agrees_param : Agrees R (Param.Paired R) param param :=
  agrees_name.bind fun _ _ hx => (agrees_expect _).bind fun _ _ _ => (agrees_kind hR).bind
    fun _ _ hkind =>
    .pure ⟨hx, hkind⟩

theorem agrees_returnKinds : Agrees R (Forall₂ (Located.Paired R)) returnKinds returnKinds := by
  refine (agrees_eat _).bind_eq fun paren => ?_
  cases paren with
  | true => exact (agrees_untilParen (agrees_kind hR)).bind fun _ _ hkinds => .pure hkinds.1
  | false => exact (agrees_kind hR).bind fun _ _ hkind => .pure (.cons hkind .nil)

theorem agrees_bodyOf (x : String) (isNative : Bool) :
    Agrees R (Option.Rel (Block.Paired R)) (bodyOf x isNative) (bodyOf x isNative) := by
  refine (agrees_sees _).bind_eq fun brace => ?_
  have hblock := (agrees_sized (agrees_blockFuel hR)).bind fun _ _ hbody => .pure (Option.Rel.some hbody)
  cases brace with
  | true =>
    cases isNative with
    | true => exact agrees_here.bind fun _ _ hspan => (agrees_failWith _ hspan).bind_eq fun _ => hblock
    | false => exact hblock
  | false =>
    cases isNative with
    | true => exact .pure .none
    | false => exact agrees_here.bind fun _ _ hspan => agrees_failWith _ hspan

theorem agrees_decl : Agrees R (Decl.Paired R) decl decl := by
  refine agrees_here.bind fun start start' hstart => (agrees_eat _).bind_eq fun isSync =>
    (agrees_eat _).bind_eq fun isNative => (agrees_expect _).bind fun _ _ _ => agrees_name.bind
      fun x x' hx =>
      (agrees_expect _).bind fun _ _ _ => (agrees_untilParen (agrees_param hR)).bind
        fun params params' hparams =>
        (agrees_expect _).bind fun _ _ _ => (agrees_returnKinds hR).bind
          fun returns returns' hreturns => ?_
  rw [hx.node]
  refine (agrees_bodyOf hR x'.node isNative).bind fun body body' hbody => .pure ?_
  have hstop : R ((body.map (·.span)).getD x.span) ((body'.map (·.span)).getD x'.span) := by
    cases hbody with
    | none => exact hx.span
    | some hblock => exact hblock.span
  exact ⟨hR.cover hstart hstop, hx, rfl, rfl, hparams.1, hreturns, hbody⟩

theorem agrees_declsFuel (n : Nat) : Agrees R (Forall₂ (Decl.Paired R)) (declsFuel n) (declsFuel n) := by
  induction n with
  | zero => exact .pure .nil
  | succ n ih =>
    refine agrees_next?.bind_eq fun next => ?_
    have hdecls := (agrees_decl hR).bind fun _ _ hd => ih.bind fun _ _ hds => .pure (Forall₂.cons hd hds)
    match next with
    | none => exact .pure .nil
    | some (.keyword .syncKw) | some (.keyword .nativeKw) | some (.keyword .funcKw) => exact hdecls
    | some (.keyword .importKw) => exact agrees_here.bind fun _ _ hspan => agrees_failWith _ hspan
    | some (.integer _) | some (.text _) | some (.name _) | some (.mark _) | some (.keyword .letKw)
    | some (.keyword .returnKw) | some (.keyword .ifKw) | some (.keyword .elseKw) | some
        (.keyword .whileKw)
    | some (.keyword .trueKw) | some (.keyword .falseKw) => exact agrees_wanted _

theorem agrees_sourceModule : Agrees R (SourceModule.Paired R) sourceModule sourceModule :=
  (agrees_sized agrees_importsFuel).bind fun _ _ himports =>
    (agrees_sized (agrees_declsFuel hR)).bind fun _ _ hfunctions => .pure ⟨himports, hfunctions⟩

end Declarations

end Parser

section Modules

variable {R Q : Span → Span → Prop} {file file' : Nat}

theorem paired_ofTokens (hR : Steady R) (hstart : R ⟨0, 0, file⟩ ⟨0, 0, file'⟩)
    (h : Forall₂ (Located.Paired R) ts ts') :
    (TokenStream.ofTokens ts file).Paired R (.ofTokens ts' file') := by
  refine ⟨h, ?_⟩
  rw [TokenStream.ofTokens,TokenStream.ofTokens,getLast?_eq_head?_reverse,getLast?_eq_head?_reverse]
  have hreverse := forall₂_reverse_iff.2 h
  generalize ts.reverse = us, ts'.reverse = us' at hreverse ⊢
  cases hreverse with
  | nil => exact hstart
  | cons hlast _ => exact hR.after hlast.span

def SourceModule.ofTokens (file : Nat) (ts : List (Located Token)) : Except CompileError SourceModule :=
  match Parser.sourceModule (.ofTokens ts file) with
  | .ok (m, _) => .ok m
  | .error snag => .error snag.error

theorem SourceModule.parse_eq (text : List Char) (file : Nat) :
    parse text file = lex text file >>= ofTokens file := rfl

theorem SourceModule.ofTokens_alike (hR : Steady R) (hstart : R ⟨0, 0, file⟩ ⟨0, 0, file'⟩)
    (h : Forall₂ (Located.Paired R) ts ts') :
    Alike (CompileError.Paired R) (SourceModule.Paired R) (ofTokens file ts) (ofTokens file' ts') := by
  have hread := Parser.agrees_sourceModule hR (paired_ofTokens hR hstart h)
  rw [ofTokens,ofTokens]
  generalize Parser.sourceModule (.ofTokens ts file) = x,
    Parser.sourceModule (.ofTokens ts' file') = y at hread
  cases hread with
  | ok h => exact .ok h.1
  | error h => exact .error h

section Lexing

variable
    (htoken : ∀ before c cs t word, text = before ++ c :: cs → Lexeme.first c cs = .token t word →
      R ⟨byteLength before, byteLength before + byteLength word, file⟩
        ⟨byteLength before, byteLength before + byteLength word, file'⟩)
    (hfault : ∀ before c cs f word, text = before ++ c :: cs → Lexeme.first c cs = .fault f word →
      Q ⟨byteLength before, byteLength before + byteLength word, file⟩
        ⟨byteLength before, byteLength before + byteLength word, file'⟩)

include htoken hfault

theorem lexFrom_alike {before rest : List Char} (htext : text = before ++ rest) (skip : Nat) :
    Alike (CompileError.Paired Q) (Forall₂ (Located.Paired R))
      (lexFrom file (byteLength before) skip rest) (lexFrom file' (byteLength before) skip rest) := by
  -- A lexeme is skipped character by character after it was read, so the induction follows the
  -- characters.
  induction rest generalizing before skip with
  | nil => exact .ok .nil
  | cons c cs ih =>
    have hnext (skip : Nat) := @ih (before ++ [c]) (by simpa using htext) skip
    simp only [byteLength_append,byteLength,Nat.add_zero] at hnext
    cases skip with
    | succ skip => exact hnext skip
    | zero =>
      simp only [lexFrom]
      cases hfirst : Lexeme.first c cs with
      | layout word => exact hnext _
      | token t word =>
        exact (hnext _).bind fun _ _ htokens =>
          .ok (.cons ⟨rfl, htoken before c cs t word htext hfirst⟩ htokens)
      | fault f word => exact .error (.source f (hfault before c cs f word htext hfirst))

/-- A text read as two files, when the places of its tokens are related, and so is the place of a lexeme
that is none. -/
theorem SourceModule.parse_alike (hR : Steady R) (hstart : R ⟨0, 0, file⟩ ⟨0, 0, file'⟩)
    (hweak : ∀ s t, R s t → Q s t) :
    Alike (CompileError.Paired Q) (SourceModule.Paired R) (parse text file) (parse text file') := by
  rw [parse_eq,parse_eq]
  refine (lexFrom_alike htoken hfault (nil_append text).symm 0).bind fun ts ts' hts => ?_
  exact (ofTokens_alike hR hstart hts).imp (fun _ _ he => he.imp hweak) fun _ _ => id

end Lexing

theorem SourceModule.parse_anywhere (text : List Char) (file file' : Nat) :
    Alike (CompileError.Paired Anywhere) (SourceModule.Paired Anywhere) (parse text file)
      (parse text file') :=
  parse_alike (fun _ _ _ _ _ _ _ => trivial) (fun _ _ _ _ _ _ _ => trivial) steady_anywhere
    trivial fun _ _ => id

theorem SourceModule.exists_parse {m : SourceModule} (h : parse text file = .ok m) (file' : Nat) :
    ∃ n, parse text file' = .ok n ∧ m.Paired Anywhere n := by
  have hparse := parse_anywhere text file file'
  rw [h] at hparse
  exact hparse.exists_ok

end Modules

end Polled
