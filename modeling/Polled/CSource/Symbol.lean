/-!
Names of generated C.

A line of C is a list of pieces, so that the names of file scope in it can be read off.
-/

namespace Polled.CSource

inductive Symbol where
  /-- The type of a routine's activation record. -/
  | record (routine : String)
  /-- Makes a fresh record. -/
  | maker (routine : String)
  /-- Lets an activation go on as far as it can. -/
  | poller (routine : String)
  /-- A routine that is called in place and written elsewhere. -/
  | native (routine : String)
  /-- Starts the program. -/
  | starter (entry : String)
  deriving DecidableEq, Repr

def Symbol.text : Symbol → String
  | .record f => "hang10_" ++ f ++ "_state"
  | .maker f => "hang10_" ++ f ++ "_new"
  | .poller f => "hang10_" ++ f ++ "_poll"
  | .native f => "hang10_" ++ f
  | .starter e => "hang10_start_" ++ e

inductive Piece where
  | text (s : String)
  | symbol (s : Symbol)
  deriving DecidableEq, Repr

instance : Coe String Piece := ⟨.text⟩

instance : Coe Symbol Piece := ⟨.symbol⟩

def Piece.write : Piece → String
  | .text s => s
  | .symbol s => s.text

def Piece.symbol? : Piece → Option Symbol
  | .text _ => none
  | .symbol s => some s

abbrev Line := List Piece

def Line.followedBy (l : Line) (s : String) : Line := l ++ [.text s]

def Line.write (l : Line) : String := String.join (l.map Piece.write)

def Line.symbols (l : Line) : List Symbol := l.filterMap Piece.symbol?

end Polled.CSource
