import Polled.Span

/-!
Tokens of the source language.

`Token.display` is the wording that messages use, in which every name is just an identifier.
-/

namespace Polled

inductive Keyword where
  | importKw
  | funcKw
  | syncKw
  | nativeKw
  | letKw
  | returnKw
  | ifKw
  | elseKw
  | whileKw
  | trueKw
  | falseKw
  deriving DecidableEq, Repr

namespace Keyword

def spelling : Keyword → String
  | .importKw => "import"
  | .funcKw => "func"
  | .syncKw => "sync"
  | .nativeKw => "native"
  | .letKw => "let"
  | .returnKw => "return"
  | .ifKw => "if"
  | .elseKw => "else"
  | .whileKw => "while"
  | .trueKw => "true"
  | .falseKw => "false"

def all : List Keyword :=
  [.importKw, .funcKw, .syncKw, .nativeKw, .letKw, .returnKw, .ifKw, .elseKw, .whileKw, .trueKw,
    .falseKw]

def ofSpelling? (word : String) : Option Keyword := all.find? (·.spelling == word)

theorem ofSpelling?_spelling (k : Keyword) : ofSpelling? k.spelling = some k := by
  cases k <;> decide

end Keyword

inductive Mark where
  | assign
  | equal
  | notEqual
  | less
  | greater
  | lessEqual
  | greaterEqual
  | ampersand
  | openParen
  | closeParen
  | openBrace
  | closeBrace
  | comma
  | colon
  deriving DecidableEq, Repr

def Mark.spelling : Mark → String
  | .assign => "="
  | .equal => "=="
  | .notEqual => "!="
  | .less => "<"
  | .greater => ">"
  | .lessEqual => "<="
  | .greaterEqual => ">="
  | .ampersand => "&"
  | .openParen => "("
  | .closeParen => ")"
  | .openBrace => "\x7b"
  | .closeBrace => "\x7d"
  | .comma => ","
  | .colon => ":"

inductive Token where
  | keyword (word : Keyword)
  | integer (value : Nat)
  | text (value : String)
  | name (spelling : String)
  | mark (mark : Mark)
  deriving DecidableEq, Repr

def Token.display : Token → String
  | .keyword k => k.spelling
  | .integer n => toString n
  | .text s => "\"" ++ s ++ "\""
  | .name _ => "identifier"
  | .mark m => m.spelling

/-- The largest integer literal: literals fill signed words of 64 bits. -/
def maxInteger : Nat := 0x7fff_ffff_ffff_ffff

end Polled
