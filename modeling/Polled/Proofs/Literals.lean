import Mathlib.Data.Nat.Digits.Defs
import Polled.CSource.Action
import Polled.Proofs.Printing

/-!
Literals, from the source text to the C text.

A numeral is read as the number that its digits spell, as long as this fits. A text is quoted in two
ways; `readLiteral` follows the rules of C and gives the bytes of the text back (`readLiteral_escape`).
-/

namespace Polled

open List

section Integers

variable {c : Char} {word rest : List Char}

/-- The value of the digits in base ten; underscores do not count. -/
def decimalValue (word : List Char) : Nat :=
  Nat.ofDigits 10 ((word.filter (· ≠ '_')).map fun c => c.toNat - '0'.toNat).reverse

section

variable (h : isNumeral word = true)

include h

theorem isNumeral.isDigitPart : ∀ c ∈ word, isDigitPart c = true := by
  cases word with
  | nil => simp
  | cons d word =>
    simp only [isNumeral,Bool.and_eq_true,all_eq_true] at h
    exact forall_mem_cons.2 ⟨by simp [Polled.isDigitPart,h.1], h.2⟩

theorem digitsValue_eq_decimalValue : digitsValue word = decimalValue word := by
  have hfilter : word.filter Char.isDigit = word.filter (· ≠ '_') := by
    refine filter_congr fun c hc => ?_
    have hpart := isNumeral.isDigitPart h c hc
    by_cases hunderscore : c = '_'
    · subst hunderscore
      rfl
    · simpa [isDigitPart,hunderscore] using hpart
  rw [digitsValue,decimalValue,hfilter,Nat.ofDigits_eq_foldr,foldr_reverse,foldl_map]
  simp only [Nat.cast_id,Nat.add_comm]

theorem byteLength_numeral : byteLength word = word.length := by
  have hsize : ∀ c ∈ word, c.utf8Size = 1 := by
    intro c hc
    have hpart := isNumeral.isDigitPart h c hc
    simp only [isDigitPart,Char.isDigit,Bool.or_eq_true,Bool.and_eq_true,decide_eq_true_eq,
      beq_iff_eq] at hpart
    rcases hpart with ⟨-,hnine⟩ | rfl
    · exact Char.utf8Size_eq_one_iff.2 (UInt32.le_trans hnine (by decide))
    · rfl
  clear h
  induction word with
  | nil => rfl
  | cons c word ih =>
    obtain ⟨hc,hword⟩ := forall_mem_cons.1 hsize
    rw [byteLength,hc,ih hword,length_cons,Nat.add_comm]

end

/-- A numeral at the start of a text is read as the number that its digits spell in base ten, and spans
its characters. If this number does not fit, that is what is wrong with the text. -/
theorem numeral_read_exactly (word rest : List Char) (file : Nat) (h : isNumeral word = true)
    (hstop : ∀ c ∈ rest.head?, isDigitPart c = false) :
    (decimalValue word ≤ 2 ^ 63 - 1 →
      (∀ tokens, lex (word ++ rest) file = .ok tokens →
        tokens.head? = some ⟨.integer (decimalValue word), ⟨0, word.length, file⟩⟩) ∧
      lex word file = .ok [⟨.integer (decimalValue word), ⟨0, word.length, file⟩⟩]) ∧
    (2 ^ 63 - 1 < decimalValue word → lex (word ++ rest) file =
      .error (.source (.integerOutOfRange (String.ofList word)) ⟨0, word.length, file⟩)) := by
  have hmax : maxInteger = 2 ^ 63 - 1 := rfl
  rw [← digitsValue_eq_decimalValue h,← byteLength_numeral h,← hmax]
  refine ⟨fun hle => ?_, fun hlt => ?_⟩
  · have hlex (rest : List Char) (hstop : ∀ c ∈ rest.head?, isDigitPart c = false) :=
      lexFrom_spelled (t := .integer (digitsValue word)) ⟨h, rfl, hle⟩ hstop file 0
    simp only [Nat.zero_add] at hlex
    constructor
    · intro tokens htokens
      rw [lex,hlex rest hstop] at htokens
      cases hrest : lexFrom file (byteLength word) 0 rest with
      | error e =>
        rw [hrest] at htokens
        cases htokens
      | ok ts =>
        rw [hrest] at htokens
        cases htokens
        rfl
    · rw [lex,← append_nil word,hlex [] (by simp),append_nil]
      rfl
  · obtain ⟨c,cs,htext⟩ :=
      exists_cons_of_ne_nil (l := word ++ rest) (by cases word <;> simp_all [isNumeral])
    have hfirst : Lexeme.first c cs = .fault (.integerOutOfRange (String.ofList word)) word :=
      (Lexeme.first_of_isNumeral h hstop htext.symm).trans (if_neg (Nat.not_le_of_lt hlt))
    rw [lex,htext,lexFrom_cons file 0 (by rw [hfirst,← htext]; rfl),hfirst,Lexeme.before,Nat.zero_add]

/-- The largest integer with a superfluous zero and underscores, before a name; and the next integer. -/
def brink : List Char := "09_223__372_036_854_775_807_".toList

def past : List Char := "9223372036854775808".toList

theorem brink_read_exactly : (∀ tokens, lex (brink ++ ['x']) 3 = .ok tokens →
      tokens.head? = some ⟨.integer (2 ^ 63 - 1), ⟨0, 28, 3⟩⟩) ∧
    lex (past ++ ['-']) 3 = .error (.source (.integerOutOfRange (String.ofList past)) ⟨0, 19, 3⟩) := by
  have hbrink : decimalValue brink = 2 ^ 63 - 1 := rfl
  have hpast : decimalValue past = 2 ^ 63 := rfl
  constructor
  · rw [← hbrink]
    exact ((numeral_read_exactly brink ['x'] 3 rfl (by simp; decide)).1 hbrink.le).1
  · exact (numeral_read_exactly past ['-'] 3 rfl (by simp; decide)).2 (by rw [hpast]; decide)

end Integers

section Texts

namespace CSource

def simpleEscape? : Char → Option UInt8
  | '"' => some 34
  | '\\' => some 92
  | 'n' => some 10
  | 't' => some 9
  | 'r' => some 13
  | _ => none

def octal? (c : Char) : Option Nat := if '0' ≤ c ∧ c ≤ '7' then some (c.toNat - '0'.toNat) else none

def octalEscape? (a b c : Char) : Option UInt8 := do
  let n := 64 * (← octal? a) + 8 * (← octal? b) + (← octal? c)
  if n < 256 then some (UInt8.ofNat n) else none

def isPrintable (c : Char) : Bool := ' ' ≤ c && c ≤ '~'

/-- The bytes of a literal of C whose opening quote has been read, and what follows its closing quote. -/
def readLiteral : List Char → Option (List UInt8 × List Char)
  | [] => none
  | '"' :: cs => some ([], cs)
  | '\\' :: c :: cs =>
    match simpleEscape? c, cs with
    | some b, cs => (readLiteral cs).map fun p => (b :: p.1, p.2)
    | none, d :: e :: cs => do
      let b ← octalEscape? c d e
      (readLiteral cs).map fun p => (b :: p.1, p.2)
    | none, _ => none
  | c :: cs =>
    if isPrintable c then (readLiteral cs).map fun p => (UInt8.ofNat c.toNat :: p.1, p.2) else none

/-- A quote stands where no backslash escapes it. -/
def hasBareQuote : List Char → Bool
  | [] => false
  | '"' :: _ => true
  | '\\' :: _ :: cs => hasBareQuote cs
  | _ :: cs => hasBareQuote cs

/-- How one byte may stand in a literal. -/
inductive Element : UInt8 → List Char → Prop
  | simple {c : Char} {b : UInt8} (h : simpleEscape? c = some b) (hprint : isPrintable c = true) :
      Element b ['\\', c]
  | plain {c : Char} (hquote : c ≠ '"') (hslash : c ≠ '\\') (hprint : isPrintable c = true) :
      Element (UInt8.ofNat c.toNat) [c]
  | octal (b : UInt8) : Element b ['\\', octalDigit (b.toNat / 64), octalDigit (b.toNat / 8),
      octalDigit b.toNat]

theorem octalDigit_spec (n : Nat) :
    octal? (octalDigit n) = some (n % 8) ∧ isPrintable (octalDigit n) = true ∧
    simpleEscape? (octalDigit n) = none ∧ octalDigit n ≠ '"' ∧ octalDigit n ≠ '\\' := by
  have hdigit : ∀ m < 8, octal? (Char.ofNat (48 + m)) = some m ∧
    isPrintable (Char.ofNat (48 + m)) = true ∧
      simpleEscape? (Char.ofNat (48 + m)) = none ∧ Char.ofNat (48 + m) ≠ '"' ∧
      Char.ofNat (48 + m) ≠ '\\' := by decide
  exact hdigit _ (Nat.mod_lt _ (by decide))

theorem octalEscape?_octalDigit (b : UInt8) :
    octalEscape? (octalDigit (b.toNat / 64)) (octalDigit (b.toNat / 8))
      (octalDigit b.toNat) = some b := by
  have hlt : b.toNat < 256 := b.toNat_lt
  have hvalue : 64 * (b.toNat / 64 % 8) + 8 * (b.toNat / 8 % 8) + b.toNat % 8 = b.toNat := by omega
  simp only [octalEscape?,(octalDigit_spec _).1,Option.bind_eq_bind,Option.bind_some,hvalue,if_pos hlt,
    UInt8.ofNat_toNat]

theorem element_plain {b : UInt8} (hquote : b ≠ 34) (hslash : b ≠ 92) (h : 32 ≤ b ∧ b ≤ 126) :
    Element b [Char.ofNat b.toNat] := by
  have hchar : ∀ n < 127, 32 ≤ n ∧ n ≠ 34 ∧ n ≠ 92 → (Char.ofNat n).toNat = n ∧ Char.ofNat n ≠ '"' ∧
      Char.ofNat n ≠ '\\' ∧ isPrintable (Char.ofNat n) = true := by decide
  rw [UInt8.le_iff_toNat_le,UInt8.le_iff_toNat_le] at h
  rw [ne_eq,← UInt8.toNat_inj] at hquote hslash
  obtain ⟨hnat,hquote,hslash,hprint⟩ := hchar b.toNat (Nat.lt_succ_of_le h.2) ⟨h.1, hquote, hslash⟩
  have hplain := Element.plain hquote hslash hprint
  rwa [hnat,UInt8.ofNat_toNat] at hplain

theorem element_escapeByte (b : UInt8) : Element b (escapeByte b) := by
  unfold escapeByte
  split_ifs with hquote hslash hline htab hreturn hplain
  · exact hquote ▸ .simple rfl rfl
  · exact hslash ▸ .simple rfl rfl
  · exact hline ▸ .simple rfl rfl
  · exact htab ▸ .simple rfl rfl
  · exact hreturn ▸ .simple rfl rfl
  · exact element_plain hquote hslash hplain
  · exact .octal b

section

variable {b : UInt8} {cs : List Char} (h : Element b cs)

include h

theorem Element.read (rest : List Char) :
    readLiteral (cs ++ rest) = (readLiteral rest).map fun p => (b :: p.1, p.2) := by
  cases h with
  | simple h => simp [readLiteral,h]
  | plain hquote hslash hprint =>
    rw [singleton_append,readLiteral,if_pos hprint]
    · exact hquote
    · exact fun _ _ h => absurd h hslash
  | octal => simp [readLiteral,octalDigit_spec,octalEscape?_octalDigit]

theorem Element.hasBareQuote_append (rest : List Char) :
    hasBareQuote (cs ++ rest) = hasBareQuote rest := by
  cases h with
  | simple => rfl
  | plain hquote hslash _ =>
    rw [singleton_append,hasBareQuote]
    · exact hquote
    · exact fun _ _ h => absurd h hslash
  | octal => simp [hasBareQuote,octalDigit_spec]

theorem Element.printable : ∀ c ∈ cs, isPrintable c = true := by
  cases h with
  | simple h hprint => exact forall_mem_cons.2 ⟨rfl, forall_mem_singleton.2 hprint⟩
  | plain _ _ hprint => exact forall_mem_singleton.2 hprint
  | octal =>
    simp only [forall_mem_cons,octalDigit_spec,true_and]
    exact ⟨rfl, forall_mem_nil _⟩

end

theorem readLiteral_escape (bs : List UInt8) (rest : List Char) :
    readLiteral (bs.flatMap escapeByte ++ '"' :: rest) = some (bs, rest) := by
  induction bs with
  | nil => rfl
  | cons b bs ih => rw [flatMap_cons,append_assoc,(element_escapeByte b).read,ih,Option.map_some]

theorem hasBareQuote_escape (bs : List UInt8) : hasBareQuote (bs.flatMap escapeByte) = false := by
  induction bs with
  | nil => rfl
  | cons b bs ih => rw [flatMap_cons,(element_escapeByte b).hasBareQuote_append,ih]

theorem printable_literal (s : String) : ∀ c ∈ literal s, isPrintable c = true := by
  have hbytes : ∀ c ∈ (utf8 s).flatMap escapeByte, isPrintable c = true := by
    intro c hc
    obtain ⟨b,-,hc⟩ := mem_flatMap.1 hc
    exact (element_escapeByte b).printable c hc
  exact forall_mem_append.2 ⟨forall_mem_cons.2 ⟨rfl, hbytes⟩, forall_mem_singleton.2 rfl⟩

theorem toByteArray_utf8 (s : String) : (utf8 s).toByteArray = s.toUTF8 := by
  conv => rhs; rw [← String.ofList_toList (s := s),String.toUTF8_eq_toByteArray,
    String.toByteArray_ofList]
  rfl

end CSource

theorem lex_quoted (s : String) (file : Nat) : lex ('"' :: escape s.toList ++ ['"']) file =
    .ok [⟨.text s, ⟨0, byteLength ('"' :: escape s.toList ++ ['"']), file⟩⟩] := by
  have hstop : (Token.text s).Stops [] := trivial
  have hlex := lexFrom_spelled (Token.spells_write rfl) hstop file 0
  rw [append_nil,Nat.zero_add] at hlex
  exact hlex

open CSource in
/-- A text is read from its quoted form as it is. Its literal of C is printable, has no quote inside that
is not escaped, and stands for the bytes of the text, whose number is passed along with it. -/
theorem text_survives : (∀ (s : String) (file : Nat), lex ('"' :: escape s.toList ++ ['"']) file =
      .ok [⟨.text s, ⟨0, byteLength ('"' :: escape s.toList ++ ['"']), file⟩⟩]) ∧
    ∀ v : String, (literal v).all isPrintable = true ∧
      (∃ body, literal v = '"' :: body ++ ['"'] ∧ hasBareQuote body = false ∧
        ∀ rest, ∃ bytes, readLiteral (body ++ '"' :: rest) = some (bytes, rest) ∧
          bytes.toByteArray = v.toUTF8) ∧
      (Datum.string v).text = "hang10_string_new(" ++ String.ofList (literal v) ++ ", " ++
        toString v.toUTF8.size ++ ")" := by
  refine ⟨lex_quoted, fun v => ⟨all_eq_true.2 (printable_literal v), ?_, ?_⟩⟩
  · exact ⟨(utf8 v).flatMap escapeByte, rfl, hasBareQuote_escape _, fun rest =>
      ⟨utf8 v, readLiteral_escape _ rest, toByteArray_utf8 v⟩⟩
  · rw [← toByteArray_utf8 v,size_toByteArray]
    rfl

end Texts

end Polled
