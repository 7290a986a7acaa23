/-!
Strings of TOML.

Only double quotes know escapes, and only three quotes let a string run over several lines.
-/

namespace Polled.Toml

def isBlank (c : Char) : Bool := c == ' ' || c == '\t'

/-- Characters of strings and comments: all but the controls of ASCII, with the tab. -/
def isPlain (c : Char) : Bool := c == '\t' || (32 ≤ c.toNat && c.toNat != 127)

/-- The length of a line end at the head. -/
def newline? : List Char → Option Nat
  | '\n' :: _ => some 1
  | '\r' :: '\n' :: _ => some 2
  | _ => none

def skipLines : List Char → List Char
  | [] => []
  | c :: cs =>
    if isBlank c || c == '\n' || (c == '\r' && cs.head? == some '\n') then skipLines cs else c :: cs

def hexValue? (c : Char) : Option Nat :=
  if '0' ≤ c && c ≤ '9' then some (c.toNat - 48)
  else if 'a' ≤ c && c ≤ 'f' then some (c.toNat - 87)
  else if 'A' ≤ c && c ≤ 'F' then some (c.toNat - 55)
  else none

/-- The character with the given number, unless it is half of a pair or beyond the last one. -/
def scalar? (n : Nat) : Option Char :=
  if n < 0xD800 || (0xDFFF < n && n < 0x110000) then some (Char.ofNat n) else none

/-- The character named by the first `width` hexadecimal digits. -/
def numbered? (width : Nat) (cs : List Char) : Option Char := do
  let digits := cs.take width
  if digits.length < width then none
  else scalar? (← digits.foldlM (fun n c => (hexValue? c).map (16 * n + ·)) 0)

/-- What stands behind a backslash: the character meant, and how many characters name it. -/
def escape? : List Char → Option (Char × Nat)
  | 'b' :: _ => some (Char.ofNat 8, 1)
  | 't' :: _ => some ('\t', 1)
  | 'n' :: _ => some ('\n', 1)
  | 'f' :: _ => some (Char.ofNat 12, 1)
  | 'r' :: _ => some ('\r', 1)
  | '"' :: _ => some ('"', 1)
  | '\\' :: _ => some ('\\', 1)
  | 'u' :: cs => (numbered? 4 cs).map (·, 5)
  | 'U' :: cs => (numbered? 8 cs).map (·, 9)
  | _ => none

/-- A line that ends behind a backslash goes on at the next visible character. -/
def foldedLine? (cs : List Char) : Option Nat := do
  let rest := cs.dropWhile isBlank
  let n ← newline? rest
  return cs.length - (skipLines (rest.drop n)).length

structure StringForm where
  quote : Char
  multiline : Bool
  deriving DecidableEq, Repr

namespace StringForm

def escapes (f : StringForm) : Bool := f.quote == '"'

/-- The end of the string: quotes that still belong to it, and the length of what ends it. Up to two
quotes can stand right before the three that close a string of several lines. -/
def closing? (f : StringForm) (cs : List Char) : Option (List Char × Nat) :=
  let run := (cs.takeWhile (· == f.quote)).length
  if f.multiline then
    if run < 3 then none
    else
      let own := min (run - 3) 2
      some (List.replicate own f.quote, own + 3)
  else if run == 0 then none
  else some ([], 1)

/-- The next piece inside the string: what it stands for, and its length. -/
def piece? (f : StringForm) (cs : List Char) : Option (List Char × Nat) :=
  match cs with
  | [] => none
  | c :: rest =>
    if c == '\\' && f.escapes then
      match if f.multiline then foldedLine? rest else none with
      | some n => some ([], n + 1)
      | none => (escape? rest).map fun (x, n) => ([x], n + 1)
    else if isPlain c then some ([c], 1)
    else if f.multiline then (newline? cs).map (['\n'], ·)
    else none

/-- Reads to the end of the string. The first argument counts characters that a piece has already
taken. -/
def body (f : StringForm) : Nat → List Char → Option (List Char × List Char)
  | _, [] => none
  | skip + 1, _ :: cs => f.body skip cs
  | 0, c :: cs =>
    match f.closing? (c :: cs) with
    | some (own, n) => some (own, (c :: cs).drop n)
    | none =>
      match f.piece? (c :: cs) with
      | none => none
      | some (text, n) => (f.body (n - 1) cs).map fun (s, rest) => (text ++ s, rest)

end StringForm

def readLine (cs : List Char) : Option (String × List Char) :=
  match cs with
  | q :: rest =>
    if q == '"' || q == '\x27' then
      (StringForm.body ⟨q, false⟩ 0 rest).map fun (s, rest) => (String.ofList s, rest)
    else none
  | [] => none

/-- A string of any form. A line end right behind three quotes is not part of it. -/
def readString (cs : List Char) : Option (String × List Char) :=
  match cs with
  | q :: q' :: q'' :: rest =>
    if (q == '"' || q == '\x27') && q' == q && q'' == q then
      let inner := rest.drop ((newline? rest).getD 0)
      (StringForm.body ⟨q, true⟩ 0 inner).map fun (s, rest) => (String.ofList s, rest)
    else readLine cs
  | _ => readLine cs

end Polled.Toml
