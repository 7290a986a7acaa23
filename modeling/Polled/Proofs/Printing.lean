import Polled.Proofs.Lexemes
import Polled.Surface.Parser

/-!
Modules as text.

`SourceModule.print` writes a module with more parentheses than it needs. Text that is made of tokens,
with a blank behind each of them, is read back as these tokens (`lex_spell`).
-/

namespace Polled

open List

variable {t : Token} {ts : List Token}

section Printer

def inParens (ts : List Token) : List Token := .mark .openParen :: ts ++ [.mark .closeParen]

def commas : List (List Token) → List Token
  | [] => []
  | [part] => part
  | part :: next :: parts => part ++ .mark .comma :: commas (next :: parts)

def Comparison.mark : Comparison → Mark
  | .eq => .equal
  | .ne => .notEqual
  | .lt => .less
  | .le => .lessEqual
  | .gt => .greater
  | .ge => .greaterEqual

mutual
def Kind.tokens : Kind → List Token
  | ⟨borrowed, family, args⟩ =>
    (if borrowed then [.mark .ampersand] else []) ++ .name family.name ::
      if args.isEmpty then [] else .mark .less :: commas (tokensOfKinds args) ++ [.mark .greater]

def tokensOfKinds : List Kind → List (List Token)
  | [] => []
  | k :: ks => k.tokens :: tokensOfKinds ks
end

theorem tokensOfKinds_eq (ks : List Kind) : tokensOfKinds ks = ks.map Kind.tokens := by
  induction ks with
  | nil => rfl
  | cons k ks ih => rw [tokensOfKinds,ih,map_cons]

mutual
def Expr.tokens : Expr → List Token
  | .name _ x => inParens [.name x]
  | .truth _ value => [.keyword (if value then .trueKw else .falseKw)]
  | .integer _ value => [.integer value]
  | .text _ value => [.text value]
  | .tuple _ items => inParens (commas (tokensOfExprs items))
  | .call _ callee args => .name callee.node :: inParens (commas (tokensOfArgs args))
  | .compare _ op lhs rhs => inParens lhs.tokens ++ .mark op.mark :: inParens rhs.tokens

def tokensOfExprs : List Expr → List (List Token)
  | [] => []
  | e :: es => e.tokens :: tokensOfExprs es

def tokensOfArgs : List Arg → List (List Token)
  | [] => []
  | .thread x :: as => [.mark .ampersand, .name x.node] :: tokensOfArgs as
  | .value e :: as => e.tokens :: tokensOfArgs as
end

def Arg.tokens : Arg → List Token
  | .thread x => [.mark .ampersand, .name x.node]
  | .value e => e.tokens

theorem tokensOfExprs_eq (es : List Expr) : tokensOfExprs es = es.map Expr.tokens := by
  induction es with
  | nil => rfl
  | cons e es ih => rw [tokensOfExprs,ih,map_cons]

theorem tokensOfArgs_eq (as : List Arg) : tokensOfArgs as = as.map Arg.tokens := by
  induction as with
  | nil => rfl
  | cons a as ih => cases a <;> rw [tokensOfArgs,ih,map_cons,Arg.tokens]

mutual
def Stmt.tokens : Stmt → List Token
  | .bind _ names value =>
    .keyword .letKw :: commas (names.map fun x => [.name x.node]) ++ .mark .assign :: value.tokens
  | .ret _ none => [.keyword .returnKw]
  | .ret _ (some value) => .keyword .returnKw :: value.tokens
  | .branch _ cond t e => .keyword .ifKw :: cond.tokens ++ t.tokens ++ .keyword .elseKw :: e.tokens
  | .loop _ cond body => .keyword .whileKw :: cond.tokens ++ body.tokens
  | .run _ e => e.tokens

def Block.tokens : Block → List Token
  | ⟨_, stmts⟩ => .mark .openBrace :: tokensOfStmts stmts ++ [.mark .closeBrace]

def tokensOfStmts : List Stmt → List Token
  | [] => []
  | s :: ss => s.tokens ++ tokensOfStmts ss
end

def Param.tokens (p : Param) : List Token := .name p.name.node :: .mark .colon :: p.kind.node.tokens

def Decl.tokens (d : Decl) : List Token :=
  (if d.isSync then [.keyword .syncKw] else []) ++ (if d.isNative then [.keyword .nativeKw] else []) ++
    .keyword .funcKw :: .name d.name.node :: inParens (commas (d.params.map Param.tokens)) ++
    .mark .colon :: inParens (commas (d.returns.map (·.node.tokens))) ++
      (d.body.map Block.tokens).getD []

def SourceModule.tokens (m : SourceModule) : List Token :=
  m.imports.flatMap (fun x => [.keyword .importKw, .name x.node]) ++ m.functions.flatMap Decl.tokens

/-- The inside of a string literal. Only quotes and backslashes are escaped. -/
def escape : List Char → List Char
  | [] => []
  | c :: cs => if c = '"' ∨ c = '\\' then '\\' :: c :: escape cs else c :: escape cs

def Token.write : Token → List Char
  | .keyword k => k.spelling.toList
  | .integer n => Nat.toDigits 10 n
  | .text s => '"' :: escape s.toList ++ ['"']
  | .name x => x.toList
  | .mark m => m.spelling.toList

/-- Tokens as text, each with a blank behind it. -/
def spell (ts : List Token) : List Char := ts.flatMap fun t => t.write ++ [' ']

def SourceModule.print (m : SourceModule) : List Char := spell m.tokens

end Printer

section Shape

/-- Words that are names and no keywords. -/
def isIdentifier (word : String) : Bool := isName word.toList && (Keyword.ofSpelling? word).isNone

/-- Tokens that have a spelling of their own. -/
def Token.writable : Token → Bool
  | .name x => isIdentifier x
  | .integer n => decide (n ≤ maxInteger)
  | _ => true

mutual
/-- Only tuples have arguments. -/
def Kind.wellFormed : Kind → Bool
  | ⟨_, family, args⟩ => (args.isEmpty || family == .tuple) && wellFormedKinds args

def wellFormedKinds : List Kind → Bool
  | [] => true
  | k :: ks => k.wellFormed && wellFormedKinds ks
end

theorem wellFormedKinds_eq (ks : List Kind) : wellFormedKinds ks = ks.all Kind.wellFormed := by
  induction ks with
  | nil => rfl
  | cons k ks ih => rw [wellFormedKinds,ih,all_cons]

mutual
/-- Names are identifiers, integers can be written, and no tuple has exactly one item. -/
def Expr.wellFormed : Expr → Bool
  | .name _ x => isIdentifier x
  | .truth _ _ | .text _ _ => true
  | .integer _ value => decide (value ≤ maxInteger)
  | .tuple _ items => items.length != 1 && wellFormedExprs items
  | .call _ callee args => isIdentifier callee.node && wellFormedArgs args
  | .compare _ _ lhs rhs => lhs.wellFormed && rhs.wellFormed

def wellFormedExprs : List Expr → Bool
  | [] => true
  | e :: es => e.wellFormed && wellFormedExprs es

def wellFormedArgs : List Arg → Bool
  | [] => true
  | .thread x :: as => isIdentifier x.node && wellFormedArgs as
  | .value e :: as => e.wellFormed && wellFormedArgs as
end

def Stmt.isBareReturn : Stmt → Bool
  | .ret _ none => true
  | _ => false

mutual
/-- At least one name is bound by `let`. -/
def Stmt.wellFormed : Stmt → Bool
  | .bind _ names value => !names.isEmpty && names.all (isIdentifier ·.node) && value.wellFormed
  | .ret _ none => true
  | .ret _ (some value) => value.wellFormed
  | .branch _ cond t e => cond.wellFormed && t.wellFormed && e.wellFormed
  | .loop _ cond body => cond.wellFormed && body.wellFormed
  | .run _ e => e.wellFormed

def Block.wellFormed : Block → Bool
  | ⟨_, stmts⟩ => wellFormedStmts stmts

/-- Nothing follows a `return` without a value. -/
def wellFormedStmts : List Stmt → Bool
  | [] => true
  | s :: ss => s.wellFormed && (!s.isBareReturn || ss.isEmpty) && wellFormedStmts ss
end

def Param.wellFormed (p : Param) : Bool := isIdentifier p.name.node && p.kind.node.wellFormed

/-- Native functions, and no others, have no body. -/
def Decl.wellFormed (d : Decl) : Bool :=
  isIdentifier d.name.node && d.params.all Param.wellFormed && d.returns.all (·.node.wellFormed) &&
    d.body.all Block.wellFormed && (d.body.isNone == d.isNative)

def SourceModule.wellFormed (m : SourceModule) : Bool :=
  m.imports.all (isIdentifier ·.node) && m.functions.all Decl.wellFormed

end Shape

section Places

def Located.unplaced {α : Type} (x : Located α) : Located α := ⟨x.node, .nowhere⟩

mutual
def Expr.unplaced : Expr → Expr
  | .name _ x => .name .nowhere x
  | .truth _ value => .truth .nowhere value
  | .integer _ value => .integer .nowhere value
  | .text _ value => .text .nowhere value
  | .tuple _ items => .tuple .nowhere (unplacedExprs items)
  | .call _ callee args => .call .nowhere callee.unplaced (unplacedArgs args)
  | .compare _ op lhs rhs => .compare .nowhere op lhs.unplaced rhs.unplaced

def unplacedExprs : List Expr → List Expr
  | [] => []
  | e :: es => e.unplaced :: unplacedExprs es

def unplacedArgs : List Arg → List Arg
  | [] => []
  | .thread x :: as => .thread x.unplaced :: unplacedArgs as
  | .value e :: as => .value e.unplaced :: unplacedArgs as
end

def Arg.unplaced : Arg → Arg
  | .thread x => .thread x.unplaced
  | .value e => .value e.unplaced

theorem unplacedExprs_eq (es : List Expr) : unplacedExprs es = es.map Expr.unplaced := by
  induction es with
  | nil => rfl
  | cons e es ih => rw [unplacedExprs,ih,map_cons]

theorem unplacedArgs_eq (as : List Arg) : unplacedArgs as = as.map Arg.unplaced := by
  induction as with
  | nil => rfl
  | cons a as ih => cases a <;> rw [unplacedArgs,ih,map_cons,Arg.unplaced]

mutual
def Stmt.unplaced : Stmt → Stmt
  | .bind _ names value => .bind .nowhere (names.map Located.unplaced) value.unplaced
  | .ret _ none => .ret .nowhere none
  | .ret _ (some value) => .ret .nowhere (some value.unplaced)
  | .branch _ cond t e => .branch .nowhere cond.unplaced t.unplaced e.unplaced
  | .loop _ cond body => .loop .nowhere cond.unplaced body.unplaced
  | .run _ e => .run .nowhere e.unplaced

def Block.unplaced : Block → Block
  | ⟨_, stmts⟩ => ⟨.nowhere, unplacedStmts stmts⟩

def unplacedStmts : List Stmt → List Stmt
  | [] => []
  | s :: ss => s.unplaced :: unplacedStmts ss
end

theorem unplacedStmts_eq (ss : List Stmt) : unplacedStmts ss = ss.map Stmt.unplaced := by
  induction ss with
  | nil => rfl
  | cons s ss ih => rw [unplacedStmts,ih,map_cons]

def Param.unplaced (p : Param) : Param := ⟨p.name.unplaced, p.kind.unplaced⟩

def Decl.unplaced (d : Decl) : Decl where
  span := .nowhere
  name := d.name.unplaced
  isSync := d.isSync
  isNative := d.isNative
  params := d.params.map Param.unplaced
  returns := d.returns.map Located.unplaced
  body := d.body.map Block.unplaced

/-- The module without the places that its parts were read from. -/
def SourceModule.unplaced (m : SourceModule) : SourceModule :=
  ⟨m.imports.map Located.unplaced, m.functions.map Decl.unplaced⟩

end Places

section Reading

theorem digitsValue_toDigits (n : Nat) : digitsValue (Nat.toDigits 10 n) = n := by
  have hdigits : (Nat.toDigits 10 n).filter Char.isDigit = Nat.toDigits 10 n :=
    filter_eq_self.2 fun c hc => Nat.isDigit_of_mem_toDigits (by decide) (by decide) hc
  rw [digitsValue,hdigits]
  exact Nat.ofDigitChars_toDigits (by decide) (by decide)

theorem isNumeral_toDigits (n : Nat) : isNumeral (Nat.toDigits 10 n) = true := by
  obtain ⟨c,cs,hdigits⟩ := exists_cons_of_ne_nil (Nat.toDigits_ne_nil (n := n) (b := 10))
  have hall : ∀ d ∈ c :: cs, d.isDigit = true := fun d hd =>
    Nat.isDigit_of_mem_toDigits (by decide) (by decide) (hdigits ▸ hd)
  obtain ⟨hc,hcs⟩ := forall_mem_cons.1 hall
  rw [hdigits,isNumeral,hc,Bool.true_and,all_eq_true]
  exact fun d hd => by simp [isDigitPart,hcs d hd]

theorem spells_escape (cs : List Char) : Quoted.Spells (escape cs) cs := by
  induction cs with
  | nil => exact .nil
  | cons c cs ih =>
    unfold escape
    split
    · next h =>
      rcases h with rfl | rfl
      · exact .escaped (by decide) ih
      · exact .escaped (by decide) ih
    · next h => exact .plain (fun hc => h (.inl hc)) (fun hc => h (.inr hc)) ih

theorem Token.spells_write (h : t.writable = true) : t.Spells t.write := by
  cases t with
  | keyword k => rfl
  | integer n => exact ⟨isNumeral_toDigits n, digitsValue_toDigits n, of_decide_eq_true h⟩
  | text s => exact ⟨escape s.toList, rfl, spells_escape s.toList⟩
  | name x =>
    rw [writable,isIdentifier,Bool.and_eq_true,Option.isNone_iff_eq_none] at h
    exact ⟨rfl, h⟩
  | mark m => rfl

theorem lexFrom_write (h : t.writable = true) (file offset : Nat) (rest : List Char) :
    ∃ span, lexFrom file offset 0 (t.write ++ ' ' :: rest) =
      (lexFrom file (offset + byteLength (t.write ++ [' '])) 0 rest).map (⟨t, span⟩ :: ·) := by
  have hblank (o : Nat) : lexFrom file o 0 (' ' :: rest) = lexFrom file (o + byteLength [' ']) 0 rest :=
    rfl
  refine ⟨⟨offset, offset + byteLength t.write, file⟩, ?_⟩
  rw [lexFrom_spelled (Token.spells_write h) (t.stops_blank rfl rest),hblank,byteLength_append,
    Nat.add_assoc]

theorem lexFrom_spell (h : ∀ t ∈ ts, t.writable = true) (file offset : Nat) :
    ∃ ls, lexFrom file offset 0 (spell ts) = .ok ls ∧ ls.map (·.node) = ts := by
  induction ts generalizing offset with
  | nil => exact ⟨[], rfl, rfl⟩
  | cons t ts ih =>
    obtain ⟨ht,hts⟩ := forall_mem_cons.1 h
    obtain ⟨span,hlex⟩ := lexFrom_write ht file offset (spell ts)
    obtain ⟨ls,hls,hnodes⟩ := ih hts (offset + byteLength (t.write ++ [' ']))
    refine ⟨⟨t, span⟩ :: ls, ?_, by simp [hnodes]⟩
    rw [spell,flatMap_cons,append_assoc]
    exact hlex.trans (by rw [hls]; rfl)

theorem lex_spell (h : ∀ t ∈ ts, t.writable = true) (file : Nat) :
    ∃ ls, lex (spell ts) file = .ok ls ∧ ls.map (·.node) = ts :=
  lexFrom_spell h file 0

theorem Token.Spells.writable {word : List Char} (h : t.Spells word) : t.writable = true := by
  cases t with
  | integer n => exact decide_eq_true h.2.2
  | name x =>
    obtain ⟨rfl,hname,hnone⟩ := h
    rw [Token.writable,isIdentifier,hname,hnone]
    rfl
  | _ => rfl

theorem writable_of_lexFrom (file offset skip : Nat) (text : List Char) :
    ∀ ls, lexFrom file offset skip text = .ok ls → ∀ l ∈ ls, l.node.writable = true := by
  fun_induction lexFrom file offset skip text with
  | case1 =>
    rintro ls ⟨⟩
    simp
  | case2 offset skip c cs ih => exact ih
  | case3 offset c cs lexeme rest text hlexeme ih => exact ih
  | case4 offset c cs lexeme span rest t text hlexeme ih =>
    intro ls h
    cases hrest : rest with
    | error e =>
      rw [hrest] at h
      cases h
    | ok ls' =>
      rw [hrest] at h
      cases h
      exact forall_mem_cons.2 ⟨(Lexeme.first_eq_token_iff.1 hlexeme).1.writable, ih ls' hrest⟩
  | case5 => exact fun ls h => nomatch h

end Reading

end Polled
