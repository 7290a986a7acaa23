import Polled.Pieces

/-!
Paths as texts.

An empty segment and a `.` do not count, except for a `.` that comes first; a path with an empty first
segment is absolute. Nothing here looks at files.
-/

namespace Polled

structure Path where
  text : String
  deriving DecidableEq, Repr

namespace Path

def segments (p : Path) : List String := (pieces '/' p.text.toList).map String.ofList

/-- Segments that change nothing. -/
def isIdle (segment : String) : Bool := segment == "" || segment == "."

def isAbsolute (p : Path) : Bool := p.text.toList.head? == some '/'

/-- A path seen from another. One slash stands between the two, and an absolute path is the same from
everywhere. -/
def join (base name : Path) : Path :=
  if name.isAbsolute then name
  else if base.text.isEmpty || base.text.toList.getLast? == some '/' then ⟨base.text ++ name.text⟩
  else ⟨base.text ++ "/" ++ name.text⟩

def file (dir : Path) (name : String) : Path := dir.join ⟨name⟩

/-- The first segment, and the others from the last one that counts back to the second. -/
def spine (p : Path) : String × List String :=
  match p.segments with
  | [] => ("", [])
  | first :: others => (first, others.reverse.dropWhile isIdle)

/-- The last segment that counts, if it names a file. -/
def fileName? (p : Path) : Option String :=
  match p.spine with
  | (_, last :: _) => if last == ".." then none else some last
  | (first, []) => if isIdle first || first == ".." then none else some first

/-- What stands before the last segment that counts. -/
def parent? (p : Path) : Option Path :=
  match p.spine with
  | (first, _ :: before) =>
    match before.dropWhile isIdle with
    | [] => some ⟨if first == "" then "/" else first⟩
    | kept => some ⟨"/".intercalate (first :: kept.reverse)⟩
  | (first, []) => if first == "" then none else some ⟨""⟩

/-- A file name up to its last dot, or all of it if there is no dot but the first character. -/
def stem (name : String) : String :=
  match name.toList.reverse.dropWhile (· != '.') with
  | [] | [_] => name
  | _ :: before => String.ofList before.reverse

def stem? (p : Path) : Option String := p.fileName?.map stem

def withFileName (p : Path) (name : String) : Path :=
  match p.fileName? with
  | none => p.file name
  | some _ => (p.parent?.getD p).file name

def ancestorsWithin : Nat → Path → List Path
  | 0, p => [p]
  | n + 1, p => p :: ((p.parent?.map (ancestorsWithin n)).getD [])

/-- The path, its parent, the parent of that, and so on. -/
def ancestors (p : Path) : List Path := ancestorsWithin p.segments.length p

end Path

end Polled
