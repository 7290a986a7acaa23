/-!
Places in source text.

Offsets count the bytes of the UTF-8 form. A `Span` is a half-open range of them in one file, and a
`Position` is a line and a column, both counted from one.
-/

namespace Polled

/-- The bytes from `start` up to, and without, `stop` in the file numbered `file`. -/
structure Span where
  start : Nat
  stop : Nat
  file : Nat
  deriving DecidableEq, Repr

/-- The span of what has no place of its own. -/
def Span.nowhere : Span := ⟨0, 0, 0⟩

/-- A file number alone does not make a place. -/
def Span.isNowhere (s : Span) : Bool := s.start == 0 && s.stop == 0

/-- The empty span at the end of `s`. -/
def Span.after (s : Span) : Span := ⟨s.stop, s.stop, s.file⟩

/-- The smallest span over both, in the file of the first. -/
def Span.cover (s t : Span) : Span := ⟨min s.start t.start, max s.stop t.stop, s.file⟩

/-- A value together with the place it was read from. -/
structure Located (α : Type) where
  node : α
  span : Span
  deriving DecidableEq, Repr

def byteLength : List Char → Nat
  | [] => 0
  | c :: cs => c.utf8Size + byteLength cs

@[simp] theorem byteLength_append (cs ds : List Char) :
    byteLength (cs ++ ds) = byteLength cs + byteLength ds := by
  induction cs with
  | nil => simp [byteLength]
  | cons c cs ih => simp [byteLength,ih,Nat.add_assoc]

/-- The characters that end at or before byte `offset`, all of them when the text is shorter. An offset
inside a character has no such division. -/
def beforeOffset : Nat → List Char → Option (List Char)
  | _, [] => some []
  | offset, c :: cs =>
    if offset = 0 then some []
    else if c.utf8Size ≤ offset then (beforeOffset (offset - c.utf8Size) cs).map (c :: ·)
    else none

/-- Line and column, both from one; the column counts bytes. -/
structure Position where
  line : Nat
  column : Nat
  deriving DecidableEq, Repr

namespace Position

def first : Position := ⟨1, 1⟩

def step (p : Position) (c : Char) : Position :=
  if c = '\n' then ⟨p.line + 1, 1⟩ else ⟨p.line, p.column + c.utf8Size⟩

def after (cs : List Char) : Position := cs.foldl step first

/-- The position of a byte offset, that of the end for an offset past it. -/
def atOffset (text : List Char) (offset : Nat) : Option Position := (beforeOffset offset text).map after

def text (p : Position) : String := s!"{p.line}:{p.column}"

end Position

end Polled
