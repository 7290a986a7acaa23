/-!
JSON values and their indented text.

The members of an object keep the order they are given in.
-/

namespace Polled

inductive Json where
  | null
  | bool (value : Bool)
  | int (value : Int)
  | str (value : String)
  | arr (items : List Json)
  | obj (members : List (String × Json))

namespace Json

def hexDigit (n : Nat) : Char := (Nat.toDigits 16 n).getLastD '0'

/-- Quotes, backslashes and control characters are escaped, the common ones by a letter. -/
def escape (c : Char) : List Char :=
  if c = '"' then ['\\', '"']
  else if c = '\\' then ['\\', '\\']
  else if c = '\n' then ['\\', 'n']
  else if c = '\t' then ['\\', 't']
  else if c = '\r' then ['\\', 'r']
  else if c.toNat = 8 then ['\\', 'b']
  else if c.toNat = 12 then ['\\', 'f']
  else if c.toNat < 32 then ['\\', 'u', '0', '0', hexDigit (c.toNat / 16), hexDigit (c.toNat % 16)]
  else [c]

def quoted (s : String) : List Char := '"' :: s.toList.flatMap escape ++ ['"']

def newLine (depth : Nat) : List Char := '\n' :: List.replicate (2 * depth) ' '

mutual
def write (depth : Nat) : Json → List Char
  | .null => "null".toList
  | .bool true => "true".toList
  | .bool false => "false".toList
  | .int n => (toString n).toList
  | .str s => quoted s
  | .arr [] => "[]".toList
  | .arr (j :: js) =>
    '[' :: newLine (depth + 1) ++ write (depth + 1) j ++ writeItems (depth + 1) js ++
      newLine depth ++ [']']
  | .obj [] => "\x7b\x7d".toList
  | .obj ((key, j) :: ms) =>
    '{' :: newLine (depth + 1) ++ quoted key ++ ": ".toList ++ write (depth + 1) j ++
      writeMembers (depth + 1) ms ++ newLine depth ++ ['}']

def writeItems (depth : Nat) : List Json → List Char
  | [] => []
  | j :: js => ',' :: newLine depth ++ write depth j ++ writeItems depth js

def writeMembers (depth : Nat) : List (String × Json) → List Char
  | [] => []
  | (key, j) :: ms =>
    ',' :: newLine depth ++ quoted key ++ ": ".toList ++ write depth j ++ writeMembers depth ms
end

def pretty (j : Json) : String := String.ofList (j.write 0)

def nat (n : Nat) : Json := .int n

def nats (ns : List Nat) : Json := .arr (ns.map nat)

end Json

end Polled
