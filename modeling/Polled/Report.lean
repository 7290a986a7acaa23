import Polled.Pieces
import Polled.Sources

/-!
Error reports for people.

A report with a place shows the line and column of a character, where lines end at every line break that
Unicode knows.
-/

namespace Polled

inductive Report where
  | placed (title : String) (position : Position) (label : String) (note : Option String)
  | plain (texts : List String)
  deriving DecidableEq, Repr

/-- Line feed, vertical tab, form feed, carriage return, next line, and the two separators. -/
def isLineBreak (c : Char) : Bool :=
  (10 ≤ c.toNat && c.toNat ≤ 13) || c.toNat == 0x85 || c.toNat == 0x2028 || c.toNat == 0x2029

/-- The position of the character numbered `offset`. A carriage return and a line feed are one line
break, and a break at the very end starts no line. -/
def characterPosition : (text : List Char) → (offset : Nat) → Position → Position
  | _, 0, p => p
  | [], _, p => p
  | c :: cs, n + 1, p =>
    if isLineBreak c && !cs.isEmpty && !(c == '\r' && cs.head? == some '\n') then
      characterPosition cs n ⟨p.line + 1, 1⟩
    else characterPosition cs n ⟨p.line, p.column + 1⟩

def CompileError.report (m : Sources) (e : CompileError) : Report :=
  match m.fileOf? e with
  | some (file, span) =>
    .placed s!"{e.category.word} error in {file.path}"
      (characterPosition file.text.toList span.start .first) e.bareMessage
      (e.function?.map fun name => s!"while generating function `{name}`")
  | none =>
    match e.root with
    | .manifest fault path => .plain [s!"error[manifest]: {fault.message}", s!"  --> {path}"]
    | _ => .plain [s!"error[{e.category.word}]: {e.bareMessage}"]

/-- What is printed for a report, one text after another. -/
def Report.texts : Report → List String
  | .plain texts => texts
  | .placed title position label note =>
    [s!"{title}:{position.text}: {label}"] ++ note.toList.map fun n => s!"  note: {n}"

/-- A line without the carriage return that belongs to its end. -/
def trimReturn (line : List Char) : List Char :=
  if line.getLast? = some '\r' then line.dropLast else line

/-- The lines that a reader of printed texts sees. -/
def printedLines (texts : List String) : List String :=
  texts.flatMap fun s => (pieces '\n' s.toList).map fun line => String.ofList (trimReturn line)

end Polled
