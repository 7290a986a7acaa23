import Polled.Surface
import Polled.Token.Lexer

/-!
Reading tokens as a module.

Where a parser fails, the stream says how far it came. Nested parts are read with an explicit depth; the
number of tokens that are left is always enough of it, because every part takes at least one.
-/

namespace Polled

structure TokenStream where
  rest : List (Located Token)
  stop : Span

namespace TokenStream

def ofTokens (tokens : List (Located Token)) (file : Nat) : TokenStream :=
  ⟨tokens, (tokens.getLast?.map (·.span.after)).getD ⟨0, 0, file⟩⟩

def next? (s : TokenStream) : Option Token := s.rest.head?.map (·.node)

def here (s : TokenStream) : Span := (s.rest.head?.map (·.span)).getD s.stop

def found (s : TokenStream) : String := (s.next?.map (·.display)).getD "end of file"

def skip (s : TokenStream) : TokenStream := { s with rest := s.rest.tail }

end TokenStream

/-- A failed attempt and the stream where it gave up. -/
structure Snag where
  error : CompileError
  stream : TokenStream

abbrev Parser (α : Type) := StateT TokenStream (Except Snag) α

namespace Parser

variable {α : Type}

def failWith (fault : SourceFault) (span : Span) : Parser α :=
  fun s => .error ⟨.source fault span, s⟩

/-- The complaint about a next token that is not `what`. -/
def wanted (what : String) : Parser α :=
  fun s => .error ⟨.source (.expected what s.found) s.here, s⟩

def here : Parser Span := return (← get).here

def next? : Parser (Option Token) := return (← get).next?

def skip : Parser Unit := modify TokenStream.skip

def sees (t : Token) : Parser Bool := return (← get).next? == some t

def eat (t : Token) : Parser Bool := do
  if ← sees t then
    skip
    return true
  return false

def expect (t : Token) : Parser Span := do
  if ← sees t then
    let span ← here
    skip
    return span
  wanted t.display

def expectMark (m : Mark) : Parser Span := expect (.mark m)

def name : Parser (Located String) := do
  match ← next? with
  | some (.name x) =>
    let span ← here
    skip
    return ⟨x, span⟩
  | _ => wanted "identifier"

/-- One or more parts with commas between them. -/
def commaListFuel (part : Parser α) : Nat → Parser (List α)
  | 0 => return [← part]
  | n + 1 => do
    let a ← part
    if ← eat (.mark .comma) then
      return a :: (← commaListFuel part n)
    return [a]

def commaList (part : Parser α) : Parser (List α) :=
  fun s => commaListFuel part s.rest.length s

/-- Parts with commas between them up to a closing parenthesis; there may be none. -/
def untilParen (part : Parser α) : Parser (List α × Span) := do
  let parts ← if ← sees (.mark .closeParen) then pure [] else commaList part
  return (parts, ← expectMark .closeParen)

def kindFuel : Nat → Parser (Located Kind)
  | 0 => wanted "identifier"
  | n + 1 => do
    let start ← here
    let borrowed ← eat (.mark .ampersand)
    let word ← name
    let some family := Family.ofName? word.node
      | failWith (.unknownKind word.node) word.span
    if ← eat (.mark .less) then
      if family ≠ .tuple then
        failWith (.kindWithoutArguments word.node) word.span
      let args ← commaList (kindFuel n)
      let stop ← expectMark .greater
      return ⟨⟨borrowed, family, args.map (·.node)⟩, start.cover stop⟩
    return ⟨⟨borrowed, family, []⟩, start.cover word.span⟩

def kind : Parser (Located Kind) := fun s => kindFuel s.rest.length s

end Parser

def Token.comparison? : Token → Option Comparison
  | .mark .equal => some .eq
  | .mark .notEqual => some .ne
  | .mark .less => some .lt
  | .mark .lessEqual => some .le
  | .mark .greater => some .gt
  | .mark .greaterEqual => some .ge
  | _ => none

namespace Parser

/-- One operand, or two with a comparison between them. -/
def comparison (operand : Parser Expr) : Parser Expr := do
  let lhs ← operand
  match (← next?).bind Token.comparison? with
  | none => return lhs
  | some op =>
    skip
    let rhs ← operand
    return .compare (lhs.span.cover rhs.span) op lhs rhs

/-- An ampersand threads a variable only if a name comes right after it. -/
def seesThread : Parser Bool := do
  match (← get).rest with
  | ⟨.mark .ampersand, _⟩ :: ⟨.name _, _⟩ :: _ => return true
  | _ => return false

def argument (expr : Parser Expr) : Parser Arg := do
  if ← seesThread then
    skip
    return .thread (← name)
  return .value (← expr)

def callOf (expr : Parser Expr) (callee : Located String) : Parser Expr := do
  let _ ← expectMark .openParen
  let (args, close) ← untilParen (argument expr)
  return .call (callee.span.cover close) callee args

/-- What stands behind an opening parenthesis. A single expression is no tuple, but takes the place of
its parentheses. -/
def parenthesized (expr : Parser Expr) (start : Span) : Parser Expr := do
  let (items, close) ← untilParen expr
  let span := start.cover close
  match items with
  | [e] => return e.placed span
  | _ => return .tuple span items

def operandFuel : Nat → Parser Expr
  | 0 => wanted "expression"
  | n + 1 => do
    let span ← here
    let some token ← next? | wanted "expression"
    skip
    match token with
    | .integer v => return .integer span v
    | .text v => return .text span v
    | .keyword .trueKw => return .truth span true
    | .keyword .falseKw => return .truth span false
    | .name x =>
      if ← sees (.mark .openParen) then
        callOf (comparison (operandFuel n)) ⟨x, span⟩
      else
        return .name span x
    | .mark .openParen => parenthesized (comparison (operandFuel n)) span
    | other => failWith (.expected "expression" other.display) span

def expr : Parser Expr := fun s => comparison (operandFuel s.rest.length) s

def statement (block : Parser Block) : Parser Stmt := do
  let start ← here
  match ← next? with
  | some (.keyword .letKw) =>
    skip
    let names ← commaList name
    let _ ← expectMark .assign
    let value ← expr
    return .bind (start.cover value.span) names value
  | some (.keyword .returnKw) =>
    skip
    if ← sees (.mark .closeBrace) then
      return .ret start none
    let value ← expr
    return .ret (start.cover value.span) (some value)
  | some (.keyword .ifKw) =>
    skip
    let cond ← expr
    let onTrue ← block
    let onFalse ← if ← eat (.keyword .elseKw) then block else pure ⟨onTrue.span.after, []⟩
    return .branch (start.cover (onFalse.span.cover onTrue.span)) cond onTrue onFalse
  | some (.keyword .whileKw) =>
    skip
    let cond ← expr
    let body ← block
    return .loop (start.cover body.span) cond body
  | _ =>
    let e ← expr
    return .run (start.cover e.span) e

/-- Statements up to the closing brace, which is left in the stream. -/
def statementsFuel (stmt : Parser Stmt) : Nat → Parser (List Stmt)
  | 0 => do failWith .unclosedBlock (← here)
  | n + 1 => do
    if ← sees (.mark .closeBrace) then
      return []
    if (← next?).isNone then
      failWith .unclosedBlock (← here)
    let s ← stmt
    return s :: (← statementsFuel stmt n)

def statements (stmt : Parser Stmt) : Parser (List Stmt) :=
  fun s => statementsFuel stmt s.rest.length s

def blockFuel : Nat → Parser Block
  | 0 => wanted Mark.openBrace.spelling
  | n + 1 => do
    let opened ← expectMark .openBrace
    let stmts ← statements (statement (blockFuel n))
    let closed ← expectMark .closeBrace
    return ⟨opened.cover closed, stmts⟩

def block : Parser Block := fun s => blockFuel s.rest.length s

def param : Parser Param := do
  let x ← name
  let _ ← expectMark .colon
  return ⟨x, ← kind⟩

/-- One kind, or any number of them in parentheses. -/
def returnKinds : Parser (List (Located Kind)) := do
  if ← eat (.mark .openParen) then
    return (← untilParen kind).1
  return [← kind]

/-- The body that a function has exactly when it is not native. -/
def bodyOf (name : String) (isNative : Bool) : Parser (Option Block) := do
  if ← sees (.mark .openBrace) then
    if isNative then
      failWith (.nativeWithBody name) (← here)
    return some (← block)
  if isNative then
    return none
  failWith (.missingBody name) (← here)

def decl : Parser Decl := do
  let start ← here
  let isSync ← eat (.keyword .syncKw)
  let isNative ← eat (.keyword .nativeKw)
  let _ ← expect (.keyword .funcKw)
  let name ← name
  let _ ← expectMark .openParen
  let (params, _) ← untilParen param
  let _ ← expectMark .colon
  let returns ← returnKinds
  let body ← bodyOf name.node isNative
  let stop := (body.map (·.span)).getD name.span
  return ⟨start.cover stop, name, isSync, isNative, params, returns, body⟩

def importsFuel : Nat → Parser (List (Located String))
  | 0 => return []
  | n + 1 => do
    if ← eat (.keyword .importKw) then
      let x ← name
      return x :: (← importsFuel n)
    return []

def declsFuel : Nat → Parser (List Decl)
  | 0 => return []
  | n + 1 => do
    match ← next? with
    | none => return []
    | some (.keyword .syncKw) | some (.keyword .nativeKw) | some (.keyword .funcKw) =>
      let d ← decl
      return d :: (← declsFuel n)
    | some (.keyword .importKw) => failWith .lateImport (← here)
    | some _ => wanted "function declaration"

def sourceModule : Parser SourceModule := do
  let imports ← fun s => importsFuel s.rest.length s
  let functions ← fun s => declsFuel s.rest.length s
  return ⟨imports, functions⟩

end Parser

def SourceModule.parse (text : List Char) (file : Nat) : Except CompileError SourceModule := do
  let tokens ← lex text file
  match Parser.sourceModule (.ofTokens tokens file) with
  | .ok (m, _) => .ok m
  | .error snag => .error snag.error

end Polled
