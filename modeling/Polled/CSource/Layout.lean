import Polled.CSource.Symbol

/-!
Indented text: lines, and blocks that indent what they hold by four blanks.
-/

namespace Polled.CSource

inductive Layout where
  | blank
  | line (l : Line)
  | block (first : Line) (body : List Layout) (last : Line)

namespace Layout

def indented (depth : Nat) (l : Line) : String :=
  String.ofList (List.replicate (4 * depth) ' ') ++ l.write ++ "\n"

mutual
def write (depth : Nat) : Layout → String
  | .blank => "\n"
  | .line l => indented depth l
  | .block first body last =>
    indented depth first ++ writeAll (depth + 1) body ++ indented depth last

def writeAll (depth : Nat) : List Layout → String
  | [] => ""
  | x :: xs => x.write depth ++ writeAll depth xs
end

mutual
/-- The names of file scope in a text. -/
def symbols : Layout → List Symbol
  | .blank => []
  | .line l => l.symbols
  | .block first body last => first.symbols ++ symbolsAll body ++ last.symbols

def symbolsAll : List Layout → List Symbol
  | [] => []
  | x :: xs => x.symbols ++ symbolsAll xs
end

theorem symbolsAll_append (xs ys : List Layout) :
    symbolsAll (xs ++ ys) = symbolsAll xs ++ symbolsAll ys := by
  induction xs with
  | nil => simp [symbolsAll]
  | cons x xs ih => simp [symbolsAll,ih,List.append_assoc]

end Layout

end Polled.CSource
