import Polled.Toml.Text

/-!
Numbers, dates and truth values of TOML.

Nothing in a manifest asks for the value of one, so the readers here give only the text behind it, if it
is well formed and in range.
-/

namespace Polled.Toml

/-- Digits of a run behind its first. One underscore may stand between two of them. -/
def moreDigits (digit : Char → Bool) : List Char → Option (List Char × List Char)
  | [] => some ([], [])
  | ['_'] => none
  | '_' :: c :: cs =>
    if digit c then (moreDigits digit cs).map fun (ds, rest) => (c :: ds, rest) else none
  | c :: cs =>
    if digit c then (moreDigits digit cs).map fun (ds, rest) => (c :: ds, rest) else some ([], c :: cs)

def digits (digit : Char → Bool) : List Char → Option (List Char × List Char)
  | [] => none
  | c :: cs => if digit c then (moreDigits digit cs).map fun (ds, rest) => (c :: ds, rest) else none

/-- Digits before the point, where a zero stands alone. -/
def wholeDigits : List Char → Option (List Char × List Char)
  | '0' :: cs => some (['0'], cs)
  | cs => digits Char.isDigit cs

def digitsValue (base : Nat) (ds : List Char) : Nat :=
  ds.foldl (fun n c => base * n + (hexValue? c).getD 0) 0

/-- Whether a minus stands at the head, and what follows the sign. -/
def sign : List Char → Bool × List Char
  | '-' :: cs => (true, cs)
  | '+' :: cs => (false, cs)
  | cs => (false, cs)

def isBelow (base : Nat) (c : Char) : Bool := (hexValue? c).any (· < base)

def largestInteger : Nat := 0x7fff_ffff_ffff_ffff

/-- A whole number in a base other than ten, without a sign. -/
def readInBase (base : Nat) (cs : List Char) : Option (List Char) := do
  let (ds, rest) ← digits (isBelow base) cs
  if digitsValue base ds ≤ largestInteger then some rest else none

/-- Half a step above the largest number in 64 bits, from where on a number is rounded to infinity. -/
def infinityBound : Nat := (1 <<< 54 - 1) <<< 970

/-- Whether the number with these digits, moved by a power of ten, is rounded to infinity. Only a number
with about as many digits as the bound has to be compared with it. -/
def isInfinite (ds : List Char) (exponent : Int) : Bool :=
  let ds := ds.dropWhile (· == '0')
  let places : Int := ds.length + exponent
  if ds.isEmpty || places < 300 then false
  else if 320 < places then true
  else
    let n := digitsValue 10 ds
    match exponent with
    | .ofNat e => infinityBound ≤ n * Nat.pow 10 e
    | .negSucc e => infinityBound * Nat.pow 10 (e + 1) ≤ n

/-- What follows a point, if there is one. -/
def readFraction : List Char → Option (List Char × List Char)
  | '.' :: cs => digits Char.isDigit cs
  | cs => some ([], cs)

/-- What follows the letter of an exponent, if there is one. -/
def readExponent (cs : List Char) : Option (Option Int × List Char) :=
  match cs with
  | c :: rest =>
    if c == 'e' || c == 'E' then do
      let (negative, rest) := sign rest
      let (ds, rest) ← digits Char.isDigit rest
      let n : Int := digitsValue 10 ds
      return (some (if negative then -n else n), rest)
    else some (none, cs)
  | [] => some (none, [])

/-- A number in base ten. With a point or an exponent it may be below every bound, but not above. -/
def readDecimal (cs : List Char) : Option (List Char) := do
  let (negative, rest) := sign cs
  let (whole, rest) ← wholeDigits rest
  let (fraction, rest) ← readFraction rest
  let (exponent, rest) ← readExponent rest
  if fraction.isEmpty && exponent.isNone then
    let bound := if negative then largestInteger + 1 else largestInteger
    if digitsValue 10 whole ≤ bound then some rest else none
  else if !negative && isInfinite (whole ++ fraction) (exponent.getD 0 - fraction.length) then none
  else some rest

/-- A number of a fixed width between two bounds. -/
def readField (width low high : Nat) (cs : List Char) : Option (Nat × List Char) :=
  let ds := cs.take width
  let n := digitsValue 10 ds
  if ds.length == width && ds.all Char.isDigit && low ≤ n && n ≤ high then some (n, cs.drop width)
  else none

def expect (c : Char) : List Char → Option (List Char)
  | [] => none
  | d :: rest => if c = d then some rest else none

def isLeapYear (year : Nat) : Bool := year % 4 == 0 && (year % 100 != 0 || year % 400 == 0)

def daysInMonth (year month : Nat) : Nat :=
  if month == 2 then if isLeapYear year then 29 else 28
  else if month == 4 || month == 6 || month == 9 || month == 11 then 30
  else 31

def readDate (cs : List Char) : Option (List Char) := do
  let (year, rest) ← readField 4 0 9999 cs
  let (month, rest) ← readField 2 1 12 (← expect '-' rest)
  let (_, rest) ← readField 2 1 (daysInMonth year month) (← expect '-' rest)
  return rest

def readClock (cs : List Char) : Option (List Char) := do
  let (_, rest) ← readField 2 0 23 cs
  let (_, rest) ← readField 2 0 59 (← expect ':' rest)
  return rest

/-- A time with its seconds, of which a minute can have sixty-one, and parts of them. -/
def readTime (cs : List Char) : Option (List Char) := do
  let rest ← readClock cs
  let (_, rest) ← readField 2 0 60 (← expect ':' rest)
  match rest with
  | '.' :: c :: parts => return if c.isDigit then parts.dropWhile Char.isDigit else rest
  | _ => return rest

/-- The distance from universal time, if it stands next. -/
def skipOffset (cs : List Char) : List Char :=
  match cs with
  | c :: rest =>
    if c == 'Z' || c == 'z' then rest
    else if c == '+' || c == '-' then (readClock rest).getD cs
    else cs
  | [] => []

def readMoment (cs : List Char) : Option (List Char) :=
  match readDate cs with
  | none => readTime cs
  | some rest =>
    match rest with
    | c :: time =>
      if c == 'T' || c == 't' || c == ' ' then some
        (((readTime time).map skipOffset).getD rest) else some rest
    | [] => some []

def readScalar : List Char → Option (List Char)
  | 't' :: 'r' :: 'u' :: 'e' :: rest => some rest
  | 'f' :: 'a' :: 'l' :: 's' :: 'e' :: rest => some rest
  | '0' :: 'x' :: rest => readInBase 16 rest
  | '0' :: 'o' :: rest => readInBase 8 rest
  | '0' :: 'b' :: rest => readInBase 2 rest
  | cs =>
    match (sign cs).2 with
    | 'i' :: 'n' :: 'f' :: rest => some rest
    | 'n' :: 'a' :: 'n' :: rest => some rest
    | _ => readMoment cs <|> readDecimal cs

end Polled.Toml
