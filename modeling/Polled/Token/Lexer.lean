import Polled.Fault
import Polled.Token

/-!
Reading text as tokens.

`Lexeme.first` cuts the longest lexeme off the front of a text, and `lex` goes on behind it, so that
every byte belongs to one lexeme.
-/

namespace Polled

def isBlank (c : Char) : Bool := c == ' ' || c == '\t' || c == '\r' || c == '\n'

def isNameStart (c : Char) : Bool := c.isAlpha || c == '_'

def isNamePart (c : Char) : Bool := c.isAlphanum || c == '_'

def isDigitPart (c : Char) : Bool := c.isDigit || c == '_'

/-- A word of the shape of a name; modules are named so too. -/
def isName : List Char → Bool
  | [] => false
  | c :: cs => isNameStart c && cs.all isNamePart

/-- The number that the digits spell; underscores only group them. -/
def digitsValue (cs : List Char) : Nat :=
  (cs.filter Char.isDigit).foldl (fun n c => 10 * n + (c.toNat - '0'.toNat)) 0

/-- What a backslash and the character after it stand for. Pairs that mean nothing stay as they are. -/
def unescape : Char → List Char
  | 'n' => ['\n']
  | 't' => ['\t']
  | '\\' => ['\\']
  | '"' => ['"']
  | c => ['\\', c]

/-- The part of a string literal behind its opening quote. -/
structure Quoted where
  /-- The characters that the literal stands for. -/
  content : List Char
  /-- Its text as written, with the closing quote if there is one. -/
  raw : List Char
  closed : Bool
  deriving DecidableEq, Repr

/-- Takes whole elements only: a character, or a backslash and a character of the same line. -/
def Quoted.read : List Char → Quoted
  | [] => ⟨[], [], false⟩
  | '"' :: _ => ⟨[], ['"'], true⟩
  | '\\' :: c :: cs =>
    if c = '\n' then ⟨[], [], false⟩
    else
      let q := read cs
      ⟨unescape c ++ q.content, '\\' :: c :: q.raw, q.closed⟩
  | '\\' :: [] => ⟨[], [], false⟩
  | c :: cs =>
    let q := read cs
    ⟨c :: q.content, c :: q.raw, q.closed⟩

theorem Quoted.raw_isPrefix (cs : List Char) : (read cs).raw <+: cs := by
  fun_induction read cs with
  | case1 => simp
  | case2 => simp [List.cons_prefix_cons]
  | case3 => simp
  | case4 c cs h q ih => simpa [List.cons_prefix_cons] using ih
  | case5 => simp
  | case6 c cs _ _ _ q ih => simpa [List.cons_prefix_cons] using ih

/-- A piece of the text: nothing but layout, a token, or the start of something that is neither. -/
inductive Lexeme where
  | layout (text : List Char)
  | token (token : Token) (text : List Char)
  | fault (fault : SourceFault) (text : List Char)
  deriving DecidableEq, Repr

namespace Lexeme

def text : Lexeme → List Char
  | .layout text => text
  | .token _ text => text
  | .fault _ text => text

def ofWord (word : List Char) : Lexeme :=
  match Keyword.ofSpelling? (String.ofList word) with
  | some k => .token (.keyword k) word
  | none => .token (.name (String.ofList word)) word

def ofDigits (run : List Char) : Lexeme :=
  if digitsValue run ≤ maxInteger then .token (.integer (digitsValue run)) run
  else .fault (.integerOutOfRange (String.ofList run)) run

def ofQuoted (q : Quoted) : Lexeme :=
  if q.closed then .token (.text (String.ofList q.content)) ('"' :: q.raw)
  else .fault .unterminatedString ('"' :: q.raw)

def ofMark (m : Mark) (text : List Char) : Lexeme := .token (.mark m) text

/-- Operators and punctuation, two characters before one. -/
def mark? : List Char → Option Lexeme
  | '=' :: '=' :: _ => some (ofMark .equal ['=', '='])
  | '!' :: '=' :: _ => some (ofMark .notEqual ['!', '='])
  | '<' :: '=' :: _ => some (ofMark .lessEqual ['<', '='])
  | '>' :: '=' :: _ => some (ofMark .greaterEqual ['>', '='])
  | '=' :: _ => some (ofMark .assign ['='])
  | '<' :: _ => some (ofMark .less ['<'])
  | '>' :: _ => some (ofMark .greater ['>'])
  | '&' :: _ => some (ofMark .ampersand ['&'])
  | '(' :: _ => some (ofMark .openParen ['('])
  | ')' :: _ => some (ofMark .closeParen [')'])
  | '{' :: _ => some (ofMark .openBrace ['{'])
  | '}' :: _ => some (ofMark .closeBrace ['}'])
  | ',' :: _ => some (ofMark .comma [','])
  | ':' :: _ => some (ofMark .colon [':'])
  | _ => none

/-- The lexeme that the text `c :: cs` starts with. -/
def first (c : Char) (cs : List Char) : Lexeme :=
  if isBlank c then .layout [c]
  else if isNameStart c then ofWord (c :: cs.takeWhile isNamePart)
  else if c.isDigit then ofDigits (c :: cs.takeWhile isDigitPart)
  else if c = '"' then ofQuoted (Quoted.read cs)
  else if c = '/' && cs.head? = some '/' then .layout (c :: cs.takeWhile (· ≠ '\n'))
  else (mark? (c :: cs)).getD (.fault (.unexpectedCharacter (String.ofList [c])) [c])

@[simp] theorem text_ofWord (word : List Char) : (ofWord word).text = word := by
  unfold ofWord
  split <;> rfl

@[simp] theorem text_ofDigits (run : List Char) : (ofDigits run).text = run := by
  unfold ofDigits
  split <;> rfl

@[simp] theorem text_ofQuoted (q : Quoted) : (ofQuoted q).text = '"' :: q.raw := by
  unfold ofQuoted
  split <;> rfl

theorem mark?_text {cs : List Char} {l : Lexeme} (h : mark? cs = some l) :
    l.text <+: cs ∧ l.text ≠ [] := by
  unfold mark? at h
  split at h <;> cases h <;> simp [ofMark,text,List.cons_prefix_cons]

/-- A lexeme takes at least one character and no character that is not there. -/
theorem text_isPrefix (c : Char) (cs : List Char) :
    (first c cs).text <+: c :: cs ∧ (first c cs).text ≠ [] := by
  unfold first
  split
  · simp [text,List.cons_prefix_cons]
  split
  · simp [List.cons_prefix_cons,List.takeWhile_prefix]
  split
  · simp [List.cons_prefix_cons,List.takeWhile_prefix]
  split
  · subst_vars
    simp [List.cons_prefix_cons,Quoted.raw_isPrefix]
  split
  · simp [text,List.cons_prefix_cons,List.takeWhile_prefix]
  · cases h : mark? (c :: cs) with
    | none => simp [text,List.cons_prefix_cons]
    | some l => exact mark?_text h

end Lexeme

/-- The tokens of `text`, which starts at byte `offset` of its file. The first `skip` characters belong
to a lexeme that began before them. -/
def lexFrom (file : Nat) :
    (offset skip : Nat) → (text : List Char) → Except CompileError (List (Located Token))
  | _, _, [] => .ok []
  | offset, skip + 1, c :: cs => lexFrom file (offset + c.utf8Size) skip cs
  | offset, 0, c :: cs =>
    let lexeme := Lexeme.first c cs
    let span : Span := ⟨offset, offset + byteLength lexeme.text, file⟩
    let rest := lexFrom file (offset + c.utf8Size) (lexeme.text.length - 1) cs
    match lexeme with
    | .layout _ => rest
    | .token t _ => rest.map (⟨t, span⟩ :: ·)
    | .fault f _ => .error (.source f span)

def lex (text : List Char) (file : Nat) : Except CompileError (List (Located Token)) :=
  lexFrom file 0 0 text

/-- What is left of a lexeme is passed over without a trace. -/
theorem lexFrom_skip (file offset : Nat) (skipped rest : List Char) :
    lexFrom file offset skipped.length (skipped ++ rest) =
      lexFrom file (offset + byteLength skipped) 0 rest := by
  induction skipped generalizing offset with
  | nil => simp [byteLength]
  | cons c cs ih => simp [lexFrom,byteLength,ih,Nat.add_assoc]

end Polled
