import Mathlib.Data.List.TakeWhile
import Mathlib.Tactic.Common
import Polled.Token.Lexer

/-!
How tokens are written.

`Token.Spells` says which texts a token may have, and `Token.Stops` what may follow it.
`Lexeme.first_spec` says for every text whether it starts with a token, with layout, or with neither.
-/

namespace Polled

open List

variable {c : Char} {cs word rest : List Char} {t : Token}

/-- Digits, with underscores behind the first. -/
def isNumeral : List Char → Bool
  | [] => false
  | c :: cs => c.isDigit && cs.all isDigitPart

/-- What stands between two quotes, and what it stands for. -/
inductive Quoted.Spells : List Char → List Char → Prop
  | nil : Spells [] []
  | plain {c : Char} {raw content : List Char} (hquote : c ≠ '"') (hslash : c ≠ '\\')
      (h : Spells raw content) :
      Spells (c :: raw) (c :: content)
  | escaped {c : Char} {raw content : List Char} (hline : c ≠ '\n') (h : Spells raw content) :
      Spells ('\\' :: c :: raw) (unescape c ++ content)

def Token.Spells (word : List Char) : Token → Prop
  | .keyword k => word = k.spelling.toList
  | .integer n => isNumeral word = true ∧ digitsValue word = n ∧ n ≤ maxInteger
  | .text s => ∃ raw, word = '"' :: raw ++ ['"'] ∧ Quoted.Spells raw s.toList
  | .name x => word = x.toList ∧ isName word = true ∧ Keyword.ofSpelling? x = none
  | .mark m => word = m.spelling.toList

/-- The token does not go on with what follows. -/
def Token.Stops (rest : List Char) : Token → Prop
  | .keyword _ | .name _ => ∀ c ∈ rest.head?, isNamePart c = false
  | .integer _ => ∀ c ∈ rest.head?, isDigitPart c = false
  | .mark .assign | .mark .less | .mark .greater => rest.head? ≠ some '='
  | _ => True

/-- A blank, or a comment up to the end of its line. -/
def IsLayout (word rest : List Char) : Prop :=
  (∃ c, isBlank c = true ∧ word = [c]) ∨
    ∃ line, word = '/' :: '/' :: line ∧ '\n' ∉ line ∧ ∀ c ∈ rest.head?, c = '\n'

/-- Nothing that the text starts with is layout or a token. -/
structure Stuck (cs : List Char) : Prop where
  ne_nil : cs ≠ []
  not_blank : ∀ c ∈ cs.head?, isBlank c = false
  not_comment : ¬['/', '/'] <+: cs
  no_token : ∀ word t, word <+: cs → ¬Token.Spells word t

/-- The text starts with a whole numeral that no literal can hold. -/
def Overflows (cs : List Char) : Prop :=
  ∃ word rest, cs = word ++ rest ∧ isNumeral word = true ∧ (∀ c ∈ rest.head?, isDigitPart c = false) ∧
    maxInteger < digitsValue word

theorem Keyword.spelling_of_ofSpelling? {w : String} {k : Keyword} (h : ofSpelling? w = some k) :
    k.spelling = w := by
  simpa using find?_some h

theorem Token.Spells.ne_nil (h : t.Spells word) : word ≠ [] := by
  rintro rfl
  cases t with
  | keyword k => cases k <;> cases h
  | integer n => cases h.1
  | text s =>
    obtain ⟨_,hword,-⟩ := h
    cases hword
  | name x => cases h.2.1
  | mark m => cases m <;> cases h

theorem Token.stops_blank (hc : isBlank c = true) (t : Token) (rest : List Char) :
    t.Stops (c :: rest) := by
  simp only [isBlank,Bool.or_eq_true,beq_iff_eq] at hc
  cases t with
  | text s => trivial
  | mark m => cases m <;> rcases hc with ((rfl | rfl) | rfl) | rfl <;> simp [Stops]
  | _ =>
    rintro _ ⟨⟩
    rcases hc with ((rfl | rfl) | rfl) | rfl <;> rfl

namespace Quoted

theorem Spells.read {raw content : List Char} (h : Spells raw content) (rest : List Char) :
    read (raw ++ '"' :: rest) = ⟨content, raw ++ ['"'], true⟩ := by
  induction h with
  | nil => rfl
  | plain hquote hslash _ ih =>
    rw [cons_append,Quoted.read,ih] <;> simp_all
  | escaped hline _ ih => simp [Quoted.read,hline,ih]

theorem spells_of_closed (h : (Quoted.read cs).closed = true) : ∃ raw rest, cs = raw ++ '"' :: rest ∧
    (Quoted.read cs).raw = raw ++ ['"'] ∧ Spells raw (Quoted.read cs).content := by
  fun_induction Quoted.read cs with
  | case1 => cases h
  | case2 rest => exact ⟨[], rest, rfl, rfl, .nil⟩
  | case3 => cases h
  | case4 c cs hline q ih =>
    obtain ⟨raw,rest,rfl,hraw,hspells⟩ := ih h
    exact ⟨'\\' :: c :: raw, rest, rfl, by rw [hraw]; rfl, .escaped hline hspells⟩
  | case5 => cases h
  | case6 c cs hquote hpair hslash q ih =>
    obtain ⟨raw,rest,rfl,hraw,hspells⟩ := ih h
    have hc : c ≠ '\\' := by
      rintro rfl
      cases raw <;> simp at hpair
    exact ⟨c :: raw, rest, rfl, by rw [hraw]; rfl, .plain hquote hc hspells⟩

end Quoted

theorem takeWhile_append_stop {p : Char → Bool} (h : ∀ c ∈ cs, p c = true)
    (hstop : ∀ c ∈ rest.head?, p c = false) :
    (cs ++ rest).takeWhile p = cs := by
  rw [takeWhile_append_of_pos h]
  cases rest with
  | nil => simp
  | cons c rest => simp [hstop c rfl]

theorem exists_takeWhile (p : Char → Bool) (cs : List Char) :
    ∃ rest, cs = cs.takeWhile p ++ rest ∧ ∀ c ∈ rest.head?, p c = false := by
  refine ⟨cs.dropWhile p, takeWhile_append_dropWhile.symm, fun c hc => ?_⟩
  have hstop := head?_dropWhile_not p cs
  rw [Option.mem_def.1 hc] at hstop
  exact hstop

theorem not_isBlank_of_isNameStart (h : isNameStart c = true) : isBlank c = false := by
  by_contra hblank
  simp only [isBlank,Bool.not_eq_false,Bool.or_eq_true,beq_iff_eq] at hblank
  rcases hblank with ((rfl | rfl) | rfl) | rfl <;> exact absurd h (by decide)

theorem apart_of_isDigit (h : c.isDigit = true) : isBlank c = false ∧ isNameStart c = false := by
  constructor
  · by_contra hblank
    simp only [isBlank,Bool.not_eq_false,Bool.or_eq_true,beq_iff_eq] at hblank
    rcases hblank with ((rfl | rfl) | rfl) | rfl <;> exact absurd h (by decide)
  · by_contra hname
    rw [Bool.not_eq_false] at hname
    change ((decide (c.val ≥ 'A'.val ∧ c.val ≤ 'Z'.val) ||
      (decide (c.val ≥ 'a'.val) && decide (c.val ≤ 'z'.val))) || c == '_') = true at hname
    simp only [Bool.or_eq_true,beq_iff_eq,Bool.and_eq_true,decide_eq_true_eq,ge_iff_le,
      UInt32.le_iff_toNat_le] at hname
    simp only [Char.isDigit,Bool.and_eq_true,decide_eq_true_eq,ge_iff_le,UInt32.le_iff_toNat_le] at h
    rcases hname with (hname | hname) | rfl
    · simp at h hname
      omega
    · simp at h hname
      omega
    · exact absurd h (by decide)

namespace Lexeme

theorem first_of_isName (h : isName word = true) (hstop : ∀ c ∈ rest.head?, isNamePart c = false)
    (heq : c :: cs = word ++ rest) : first c cs = ofWord word := by
  cases word with
  | nil => cases h
  | cons c word =>
    rw [cons_append] at heq
    obtain ⟨rfl,rfl⟩ := cons.inj heq
    simp only [isName,Bool.and_eq_true,all_eq_true] at h
    rw [first,not_isBlank_of_isNameStart h.1,if_neg Bool.false_ne_true,if_pos h.1,
      takeWhile_append_stop h.2 hstop]

theorem first_of_isNumeral (h : isNumeral word = true) (hstop : ∀ c ∈ rest.head?, isDigitPart c = false)
    (heq : c :: cs = word ++ rest) : first c cs = ofDigits word := by
  cases word with
  | nil => cases h
  | cons c word =>
    rw [cons_append] at heq
    obtain ⟨rfl,rfl⟩ := cons.inj heq
    simp only [isNumeral,Bool.and_eq_true,all_eq_true] at h
    obtain ⟨hblank,hname⟩ := apart_of_isDigit h.1
    rw [first,hblank,hname,if_neg Bool.false_ne_true,if_neg Bool.false_ne_true,if_pos h.1,
      takeWhile_append_stop h.2 hstop]

theorem first_quote (cs : List Char) : first '"' cs = ofQuoted (Quoted.read cs) := rfl

theorem mark?_eq_some {l : Lexeme} (h : mark? cs = some l) :
    ∃ m rest, l = .token (.mark m) m.spelling.toList ∧
    cs = m.spelling.toList ++ rest ∧ (Token.mark m).Stops rest := by
  unfold mark? at h
  split at h <;> cases h <;> refine ⟨_, _, rfl, rfl, ?_⟩ <;> simp only [Token.Stops,ne_eq]
  -- the longer mark was tried before
  all_goals next rest hlong => cases rest <;> simp_all

theorem mark?_spelling (m : Mark) (h : (Token.mark m).Stops rest) :
    mark? (m.spelling.toList ++ rest) = some (.token (.mark m) m.spelling.toList) := by
  cases m with
  | assign | less | greater =>
    cases rest with
    | nil => rfl
    | cons c rest =>
      have hc : c ≠ '=' := by simpa [Token.Stops] using h
      simp [Mark.spelling,mark?,hc,ofMark]
  | _ => rfl

theorem mark?_ne_none (m : Mark) (rest : List Char) : mark? (m.spelling.toList ++ rest) ≠ none := by
  by_cases h : (Token.mark m).Stops rest
  · simp [mark?_spelling m h]
  · cases m with
    | assign | less | greater =>
      obtain ⟨tail,rfl⟩ : ∃ tail, rest = '=' :: tail := by
        cases rest <;> simp_all [Token.Stops]
      exact Option.some_ne_none _
    | _ => exact absurd trivial h

theorem no_token (hname : isNameStart c = false) (hdigit : c.isDigit = false)
    (hquote : c = '"' → (Quoted.read cs).closed = false) (hmark : mark? (c :: cs) = none)
    (word : List Char) (t : Token) (hword : word <+: c :: cs) : ¬t.Spells word := by
  obtain ⟨rest,heq⟩ := hword
  have hno : ∀ {w : List Char}, isName w = true → w ++ rest = c :: cs → False := by
    intro w hw heq
    cases w with
    | nil => cases hw
    | cons d w =>
      obtain ⟨rfl,-⟩ := cons.inj heq
      simp [isName,hname] at hw
  intro hspells
  cases t with
  | keyword k =>
    obtain rfl : word = _ := hspells
    exact hno (by cases k <;> decide) heq
  | integer n =>
    cases word with
    | nil => cases hspells.1
    | cons d w =>
      obtain ⟨rfl,-⟩ := cons.inj heq
      simpa [isNumeral,hdigit] using hspells.1
  | text s =>
    obtain ⟨_,rfl,hraw⟩ := hspells
    simp only [cons_append,append_assoc] at heq
    obtain ⟨rfl,rfl⟩ := cons.inj heq
    simpa [hraw.read] using hquote rfl
  | name x => exact hno hspells.2.1 heq
  | mark m =>
    obtain rfl : word = _ := hspells
    exact mark?_ne_none m rest (heq ▸ hmark)

/-- What the first lexeme of a text says about the text. -/
inductive First (text : List Char) : Lexeme → Prop
  | layout {word rest : List Char} (htext : text = word ++ rest) (h : IsLayout word rest) :
      First text (.layout word)
  | token {t : Token} {word rest : List Char} (htext : text = word ++ rest) (h : t.Spells word)
      (hstop : t.Stops rest) :
      First text (.token t word)
  | fault {f : SourceFault} {word : List Char} (h : Stuck text ∨ Overflows text) :
      First text (.fault f word)

theorem first_spec (c : Char) (cs : List Char) : First (c :: cs) (first c cs) := by
  unfold first
  split
  · next hblank => exact .layout rfl (.inl ⟨c, hblank, rfl⟩)
  next hblank =>
  split
  · next hstart =>
    obtain ⟨rest,hcs,hstop⟩ := exists_takeWhile isNamePart cs
    have htext : c :: cs = c :: cs.takeWhile isNamePart ++ rest := by rw [cons_append,← hcs]
    have hword : isName (c :: cs.takeWhile isNamePart) = true := by
      simp only [isName,hstart,all_takeWhile,Bool.and_self]
    unfold ofWord
    split
    · next k hk =>
      refine .token htext ?_ hstop
      rw [Token.Spells,Keyword.spelling_of_ofSpelling? hk,String.toList_ofList]
    · next hnone => exact .token htext ⟨String.toList_ofList.symm, hword, hnone⟩ hstop
  next hname =>
  split
  · next hdigit =>
    obtain ⟨rest,hcs,hstop⟩ := exists_takeWhile isDigitPart cs
    have htext : c :: cs = c :: cs.takeWhile isDigitPart ++ rest := by rw [cons_append,← hcs]
    have hword : isNumeral (c :: cs.takeWhile isDigitPart) = true := by
      simp only [isNumeral,hdigit,all_takeWhile,Bool.and_self]
    unfold ofDigits
    split
    · next hle => exact .token htext ⟨hword, rfl, hle⟩ hstop
    · next hlt => exact .fault (.inr ⟨_, rest, htext, hword, hstop, Nat.lt_of_not_le hlt⟩)
  next hdigit =>
  have hblank : ∀ d ∈ (c :: cs).head?, isBlank d = false := by simpa using hblank
  rw [Bool.not_eq_true] at hname hdigit
  split
  · next hquote =>
    subst hquote
    unfold ofQuoted
    split
    · next hclosed =>
      obtain ⟨raw,rest,hcs,hraw,_⟩ := Quoted.spells_of_closed hclosed
      have htext : '"' :: cs = '"' :: (Quoted.read cs).raw ++ rest := by
        rw [hraw,cons_append,append_assoc]
        exact congrArg _ hcs
      exact .token htext ⟨raw, by rw [hraw]; rfl, by rwa [String.toList_ofList]⟩ trivial
    · next hopen =>
      refine .fault (.inl ⟨cons_ne_nil _ _, hblank, by simp [cons_prefix_cons], ?_⟩)
      exact no_token hname hdigit (fun _ => Bool.eq_false_iff.2 hopen) rfl
  next hquote =>
  split
  · next hslashes =>
    simp only [Bool.and_eq_true,decide_eq_true_eq] at hslashes
    obtain ⟨rfl,_⟩ := hslashes
    obtain ⟨cs,rfl⟩ : ∃ ds, cs = '/' :: ds := by
      cases cs <;> simp_all
    obtain ⟨rest,hcs,hstop⟩ := exists_takeWhile (· ≠ '\n') cs
    have htext : '/' :: '/' :: cs = '/' :: ('/' :: cs).takeWhile (· ≠ '\n') ++ rest := by
      rw [takeWhile_cons_of_pos (by decide)]
      exact congrArg (fun ds => '/' :: '/' :: ds) hcs
    refine .layout htext (.inr ⟨cs.takeWhile (· ≠ '\n'), by simp, ?_, by simpa using hstop⟩)
    exact fun hmem => by simpa using mem_takeWhile_imp hmem
  · next hslashes =>
    cases hmark : mark? (c :: cs) with
    | none =>
      refine .fault
        (.inl ⟨cons_ne_nil _ _, hblank, ?_, no_token hname hdigit (fun h => absurd h hquote) hmark⟩)
      rintro ⟨rest,heq⟩
      obtain ⟨rfl,rfl⟩ := cons.inj heq
      exact hslashes rfl
    | some l =>
      obtain ⟨m,_,rfl,htext,hstop⟩ := mark?_eq_some hmark
      exact .token htext rfl hstop

/-- A text starts with a token just if it starts with a spelling of it that what follows does not
extend. -/
theorem first_eq_token_iff :
    first c cs = .token t word ↔ t.Spells word ∧ ∃ rest, c :: cs = word ++ rest ∧ t.Stops rest := by
  constructor
  · intro h
    have hspec := first_spec c cs
    rw [h] at hspec
    obtain _ | ⟨htext,hspells,hstop⟩ := hspec
    exact ⟨hspells, _, htext, hstop⟩
  · rintro ⟨hspells,_,heq,hstop⟩
    cases t with
    | keyword k =>
      obtain rfl : word = _ := hspells
      rw [first_of_isName (by cases k <;> decide) hstop heq,ofWord,String.ofList_toList,
        Keyword.ofSpelling?_spelling]
    | integer n =>
      obtain ⟨hnumeral,rfl,hle⟩ := hspells
      rw [first_of_isNumeral hnumeral hstop heq,ofDigits,if_pos hle]
    | text s =>
      obtain ⟨_,rfl,hraw⟩ := hspells
      simp only [cons_append,append_assoc] at heq
      obtain ⟨rfl,rfl⟩ := cons.inj heq
      rw [first_quote,hraw.read,ofQuoted,if_pos rfl,String.ofList_toList]
      rfl
    | name x =>
      obtain ⟨rfl,hname,hnone⟩ := hspells
      rw [first_of_isName hname hstop heq,ofWord,String.ofList_toList,hnone]
    | mark m =>
      obtain rfl : word = _ := hspells
      have hmark := heq ▸ mark?_spelling m hstop
      have hfirst : first c cs =
          (mark? (c :: cs)).getD (.fault (.unexpectedCharacter (String.ofList [c])) [c]) := by
        cases m <;> obtain ⟨rfl,-⟩ := cons.inj heq <;> rfl
      rw [hfirst,hmark,Option.getD_some]

theorem first_eq_layout_iff :
    first c cs = .layout word ↔ ∃ rest, c :: cs = word ++ rest ∧ IsLayout word rest := by
  constructor
  · intro h
    have hspec := first_spec c cs
    rw [h] at hspec
    obtain ⟨htext,hlayout⟩ := hspec
    exact ⟨_, htext, hlayout⟩
  · rintro ⟨rest,heq,⟨c,hblank,rfl⟩ | ⟨line,rfl,hline,hend⟩⟩
    · obtain ⟨rfl,rfl⟩ := cons.inj heq
      rw [first,if_pos hblank]
    · obtain ⟨rfl,rfl⟩ := cons.inj heq
      have hrun : (line ++ rest).takeWhile (· ≠ '\n') = line :=
        takeWhile_append_stop (fun c hc => by simpa using ne_of_mem_of_not_mem hc hline)
          (by simpa using hend)
      have hfirst : first '/' ('/' :: (line ++ rest)) =
          .layout ('/' :: '/' :: (line ++ rest).takeWhile (· ≠ '\n')) := rfl
      exact hfirst.trans (by rw [hrun])

end Lexeme

/-- What is read of a lexeme at `offset`, and `r` of what follows it. -/
def Lexeme.before (l : Lexeme) (file offset : Nat) (r : Except CompileError (List (Located Token))) :
    Except CompileError (List (Located Token)) :=
  match l with
  | .layout _ => r
  | .token t word => r.map (⟨t, ⟨offset, offset + byteLength word, file⟩⟩ :: ·)
  | .fault f word => .error (.source f ⟨offset, offset + byteLength word, file⟩)

theorem lexFrom_cons (file offset : Nat) (h : c :: cs = (Lexeme.first c cs).text ++ rest) :
    lexFrom file offset 0 (c :: cs) = (Lexeme.first c cs).before file offset
      (lexFrom file (offset + byteLength (Lexeme.first c cs).text) 0 rest) := by
  obtain ⟨d,_,hword⟩ := exists_cons_of_ne_nil (Lexeme.text_isPrefix c cs).2
  rw [hword,cons_append] at h
  obtain ⟨rfl,hcs⟩ := cons.inj h
  have hskip : lexFrom file (offset + c.utf8Size) ((Lexeme.first c cs).text.length - 1) cs =
      lexFrom file (offset + byteLength (Lexeme.first c cs).text) 0 rest := by
    rw [hword,length_cons,Nat.add_sub_cancel,byteLength,← Nat.add_assoc,← lexFrom_skip,← hcs]
  rw [lexFrom,hskip]
  cases Lexeme.first c cs <;> rfl

theorem lexFrom_spelled (h : t.Spells word) (hstop : t.Stops rest) (file offset : Nat) :
    lexFrom file offset 0 (word ++ rest) =
      (lexFrom file (offset + byteLength word) 0 rest).map
        (⟨t, ⟨offset, offset + byteLength word, file⟩⟩ :: ·) := by
  obtain ⟨c,_,htext⟩ := exists_cons_of_ne_nil (append_ne_nil_of_left_ne_nil h.ne_nil rest)
  have hfirst := Lexeme.first_eq_token_iff.2 ⟨h, rest, htext.symm, hstop⟩
  rw [htext,lexFrom_cons file offset (by rw [hfirst,← htext]; rfl),hfirst]
  rfl

end Polled
