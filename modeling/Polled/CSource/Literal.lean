/-!
String literals of C.

An octal escape always has three digits, so the byte behind it cannot be read as one more digit of it.
-/

namespace Polled.CSource

def utf8 (s : String) : List UInt8 := s.toList.flatMap String.utf8EncodeChar

def octalDigit (n : Nat) : Char := Char.ofNat (48 + n % 8)

def escapeByte (b : UInt8) : List Char :=
  if b = 34 then ['\\', '"']
  else if b = 92 then ['\\', '\\']
  else if b = 10 then ['\\', 'n']
  else if b = 9 then ['\\', 't']
  else if b = 13 then ['\\', 'r']
  else if 32 ≤ b ∧ b ≤ 126 then [Char.ofNat b.toNat]
  else ['\\', octalDigit (b.toNat / 64), octalDigit (b.toNat / 8), octalDigit b.toNat]

def literal (s : String) : List Char := '"' :: (utf8 s).flatMap escapeByte ++ ['"']

end Polled.CSource
