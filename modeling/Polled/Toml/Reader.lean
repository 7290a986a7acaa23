import Polled.Toml
import Polled.Toml.Scalar

/-!
Reading TOML.

Readers take a text and give what they found with the rest of it.
-/

namespace Polled.Toml

def isKeyChar (c : Char) : Bool := c.isAlphanum || c == '_' || c == '-'

def skipBlanks (cs : List Char) : List Char := cs.dropWhile isBlank

/-- The end of a line, with a comment before it. -/
def endOfLine (cs : List Char) : Option (List Char) :=
  let rest := match skipBlanks cs with
    | '#' :: comment => comment.dropWhile isPlain
    | rest => rest
  if rest.isEmpty then some [] else (newline? rest).map rest.drop

/-- Blanks, line ends and comments between the items of a list. -/
def skipGap : (inComment : Bool) → List Char → List Char
  | _, [] => []
  | inComment, c :: cs =>
    if inComment && isPlain c then skipGap true cs
    else if isBlank c || c == '\n' || (c == '\r' && cs.head? == some '\n') then skipGap false cs
    else if c == '#' then skipGap true cs
    else c :: cs

def readKey (cs : List Char) : Option (String × List Char) :=
  match cs.takeWhile isKeyChar with
  | [] => readLine cs
  | key => some (String.ofList key, cs.dropWhile isKeyChar)

/-- Keys with dots between them, and blanks around each. -/
def readKeys : (fuel : Nat) → List Char → Option (KeyPath × List Char)
  | 0, _ => none
  | fuel + 1, cs => do
    let (key, rest) ← readKey (skipBlanks cs)
    match skipBlanks rest with
    | '.' :: rest =>
      let (path, rest) ← readKeys fuel rest
      return (path.push key, rest)
    | rest => return (⟨[], key⟩, rest)

/-- How many keys a dotted key can have, and how many lists and inline tables can stand inside one
another. -/
def deepest : Nat := 79

def readPath (cs : List Char) : Option (KeyPath × List Char) := do
  let (path, rest) ← readKeys cs.length cs
  if path.keys.length ≤ deepest then some (path, rest) else none

mutual
/-- Reads a value, in which lists and inline tables go at most as deep as the second argument says. -/
def readValue : (fuel depth : Nat) → List Char → Option (Value × List Char)
  | 0, _, _ => none
  | fuel + 1, depth, cs =>
    match cs with
    | '[' :: rest =>
      match depth with
      | 0 => none
      | depth + 1 => do
        let (items, rest) ← readItems fuel depth (skipGap false rest)
        return (.list items, rest)
    | '{' :: rest =>
      match depth with
      | 0 => none
      | depth + 1 =>
        match skipBlanks rest with
        | '}' :: rest => some (.table .braces [], rest)
        | rest => do
          let (t, rest) ← readPairs fuel depth [] rest
          return (.table .braces t, rest)
    | '"' :: _ | '\x27' :: _ => (readString cs).map fun (s, rest) => (.text s, rest)
    | _ => (readScalar cs).map fun rest => (.scalar, rest)

/-- Items up to the closing bracket. A comma may follow the last. -/
def readItems : (fuel depth : Nat) → List Char → Option (List Value × List Char)
  | 0, _, _ => none
  | fuel + 1, depth, cs =>
    match cs with
    | ']' :: rest => some ([], rest)
    | _ => do
      let (item, rest) ← readValue fuel depth cs
      match skipGap false rest with
      | ',' :: rest =>
        let (items, rest) ← readItems fuel depth (skipGap false rest)
        return (item :: items, rest)
      | ']' :: rest => return ([item], rest)
      | _ => none

/-- Assignments up to the closing brace, one at least. No comma follows the last. -/
def readPairs : (fuel depth : Nat) → Table → List Char → Option (Table × List Char)
  | 0, _, _, _ => none
  | fuel + 1, depth, t, cs => do
    let (path, rest) ← readPath cs
    let rest ← expect '=' rest
    let (v, rest) ← readValue fuel depth (skipBlanks rest)
    let t ← t.assign? path v
    match skipBlanks rest with
    | ',' :: rest => readPairs fuel depth t rest
    | '}' :: rest => return (t, rest)
    | _ => none
end

/-- A text read in part: all that it has said, and the way to the table it is speaking of. -/
structure Draft where
  root : Table
  heading : List String

namespace Draft

def start : Draft := ⟨[], []⟩

def assign? (d : Draft) (path : KeyPath) (v : Value) : Option Draft := do
  let root ← d.root.alter? .wayToHeading (fun _ t => t.assign? path v) d.heading .heading
  return { d with root }

/-- Reads one line, or one assignment over several. -/
def readStatement (d : Draft) (cs : List Char) : Option (Draft × List Char) := do
  match cs with
  | '[' :: '[' :: rest =>
    let (path, rest) ← readPath rest
    let rest ← endOfLine (← expect ']' (← expect ']' rest))
    return (⟨← d.root.addRow? path, path.keys⟩, rest)
  | '[' :: rest =>
    let (path, rest) ← readPath rest
    let rest ← endOfLine (← expect ']' rest)
    return (⟨← d.root.addHeading? path, path.keys⟩, rest)
  | '#' :: _ | '\n' :: _ | '\r' :: _ => return (d, ← endOfLine cs)
  | _ =>
    let (path, rest) ← readPath cs
    let rest ← expect '=' rest
    let (v, rest) ← readValue rest.length deepest (skipBlanks rest)
    return (← d.assign? path v, ← endOfLine rest)

def run : (fuel : Nat) → Draft → List Char → Option Table
  | fuel, d, cs =>
    match skipBlanks cs with
    | [] => some d.root
    | cs =>
      match fuel with
      | 0 => none
      | fuel + 1 => do
        let (d, rest) ← d.readStatement cs
        run fuel d rest

end Draft

/-- Reads a whole text. A byte order mark at its start is skipped. -/
def read (text : List Char) : Option Table :=
  let cs := match text with
    | '\ufeff' :: rest => rest
    | cs => cs
  Draft.start.run cs.length cs

end Polled.Toml
