import Polled.Proofs.Lexemes

/-!
A text as a row of lexemes.

Reading divides a text into layout and tokens (`Tiled`), or it stops where neither stands. Two texts with
a line feed between them are read one after the other.
-/

namespace Polled

open List

variable {file offset : Nat} {c : Char} {cs word rest text : List Char} {t : Token}
  {ts : List (Located Token)}

/-- The text is layout and tokens, one behind the other, up to `rest`. -/
inductive Tiled (file : Nat) : Nat → List Char → List (Located Token) → List Char → Prop
  | done {offset : Nat} {rest : List Char} : Tiled file offset rest [] rest
  | layout {offset : Nat} {word cs rest : List Char} {ts : List (Located Token)} (h : IsLayout word cs)
      (hrest : Tiled file (offset + byteLength word) cs ts rest) : Tiled file offset (word ++ cs) ts rest
  | token {offset : Nat} {t : Token} {word cs rest : List Char} {ts : List (Located Token)}
      (h : t.Spells word)
      (hstop : t.Stops cs) (hrest : Tiled file (offset + byteLength word) cs ts rest) :
      Tiled file offset (word ++ cs) (⟨t, ⟨offset, offset + byteLength word, file⟩⟩ :: ts) rest

/-- The token stands at its place in the text, and is a keyword just if its whole text is one. -/
def Located.Stands (text : List Char) (file : Nat) (l : Located Token) : Prop :=
  ∃ before word rest, text = before ++ word ++ rest ∧ word ≠ [] ∧ l.node.Spells word ∧
    l.node.Stops rest ∧
    l.span = ⟨byteLength before, byteLength before + byteLength word, file⟩ ∧
    ∀ k, l.node = .keyword k ↔ word = k.spelling.toList

theorem Token.stops_nil (t : Token) : t.Stops [] := by
  cases t with
  | mark m => cases m <;> simp [Stops]
  | _ => simp [Stops]

theorem Token.Spells.inj {u : Token} (h : t.Spells word) (h' : u.Spells word) : t = u := by
  obtain ⟨c,_,rfl⟩ := exists_cons_of_ne_nil h.ne_nil
  have hfirst := Lexeme.first_eq_token_iff.2 ⟨h, [], (append_nil _).symm, t.stops_nil⟩
  have hfirst' := Lexeme.first_eq_token_iff.2 ⟨h', [], (append_nil _).symm, u.stops_nil⟩
  exact (Lexeme.token.inj (hfirst.symm.trans hfirst')).1

theorem Token.Spells.keyword_iff (h : t.Spells word) (k : Keyword) :
    t = .keyword k ↔ word = k.spelling.toList := by
  constructor
  · rintro rfl
    exact h
  · exact fun hword => h.inj (u := .keyword k) hword

namespace Tiled

section

variable (h : Tiled file offset cs ts rest)

include h

theorem le_start : ∀ l ∈ ts, offset ≤ l.span.start := by
  induction h with
  | done => simp
  | layout _ _ ih => exact fun l hl => (Nat.le_add_right _ _).trans (ih l hl)
  | token _ _ _ ih =>
    refine forall_mem_cons.2 ⟨le_rfl, fun l hl => ?_⟩
    exact (Nat.le_add_right _ _).trans (ih l hl)

theorem pairwise : ts.Pairwise fun l m => l.span.stop ≤ m.span.start := by
  induction h with
  | done => exact .nil
  | layout _ _ ih => exact ih
  | token _ _ hrest ih => exact .cons hrest.le_start ih

theorem stands (before : List Char) (hoffset : byteLength before = offset)
    (htext : text = before ++ cs) : ∀ l ∈ ts, l.Stands text file := by
  induction h generalizing before with
  | done => simp
  | @layout _ word _ _ _ _ _ ih => exact ih (before ++ word) (by simp [hoffset]) (by simp [htext])
  | @token _ _ word _ _ _ hspells hstop _ ih =>
    refine forall_mem_cons.2 ⟨?_, ih (before ++ word) (by simp [hoffset]) (by simp [htext])⟩
    exact ⟨before, word, _, by simp [htext], hspells.ne_nil, hspells, hstop, by rw [hoffset],
      hspells.keyword_iff⟩

end

end Tiled

/-- What holds of a text if it holds behind its first lexeme holds of every text. -/
theorem lexeme_induction {motive : List Char → Prop} (nil : motive [])
    (step : ∀ c cs rest, c :: cs = (Lexeme.first c cs).text ++ rest → motive rest → motive (c :: cs))
    (text : List Char) :
    motive text := by
  induction hn : text.length using Nat.strong_induction_on generalizing text with
  | _ n ih =>
    cases text with
    | nil => exact nil
    | cons c cs =>
      obtain ⟨⟨rest,hrest⟩,hne⟩ := Lexeme.text_isPrefix c cs
      refine step c cs rest hrest.symm (ih rest.length ?_ rest rfl)
      rw [← hn,← hrest,length_append]
      have := length_pos_iff.2 hne
      omega

/-- The whole text is a row of lexemes, or a row of them ends where reading cannot go on. -/
def Tiles (file offset : Nat) (text : List Char) : Except CompileError (List (Located Token)) → Prop
  | .ok ts => Tiled file offset text ts []
  | .error _ => ∃ ts rest, Tiled file offset text ts rest ∧ (Stuck rest ∨ Overflows rest)

section

variable {r : Except CompileError (List (Located Token))}
  (hrest : Tiles file (offset + byteLength word) cs r)

include hrest

theorem Tiles.layout (h : IsLayout word cs) : Tiles file offset (word ++ cs) r := by
  cases r with
  | ok ts => exact .layout h hrest
  | error e =>
    obtain ⟨ts,stuck,htiled,hstuck⟩ := hrest
    exact ⟨ts, stuck, .layout h htiled, hstuck⟩

theorem Tiles.token (h : t.Spells word) (hstop : t.Stops cs) :
    Tiles file offset (word ++ cs) (r.map (⟨t, ⟨offset, offset + byteLength word, file⟩⟩ :: ·)) := by
  cases r with
  | ok ts => exact .token h hstop hrest
  | error e =>
    obtain ⟨_,stuck,htiled,hstuck⟩ := hrest
    exact ⟨_, stuck, .token h hstop htiled, hstuck⟩

end

theorem tiles_lexFrom (file : Nat) (text : List Char) (offset : Nat) :
    Tiles file offset text (lexFrom file offset 0 text) := by
  induction text using lexeme_induction generalizing offset with
  | nil => exact .done
  | step c cs rest htext ih =>
    rw [lexFrom_cons file offset htext]
    have hspec := Lexeme.first_spec c cs
    cases hfirst : Lexeme.first c cs with
    | layout word =>
      rw [hfirst] at htext hspec
      obtain ⟨htext',hlayout⟩ := hspec
      obtain rfl := append_cancel_left (htext'.symm.trans htext)
      exact htext ▸ (ih (offset + byteLength word)).layout hlayout
    | token t word =>
      rw [hfirst] at htext hspec
      obtain _ | ⟨htext',hspells,hstop⟩ := hspec
      obtain rfl := append_cancel_left (htext'.symm.trans htext)
      exact htext ▸ (ih (offset + byteLength word)).token hspells hstop
    | fault f word =>
      obtain _ | _ | h := hfirst ▸ hspec
      exact ⟨[], _, .done, h⟩

/-- A text that can be read is blanks, comments and tokens; each token ends where it cannot go on, is a
keyword just if its whole text is one, and has the place that it stands at. A text that cannot be read is
such a row up to a place where no token can be, or a numeral that is too large. -/
theorem lex_tiles (text : List Char) (file : Nat) :
    (∀ ts, lex text file = .ok ts → Tiled file 0 text ts [] ∧ (∀ l ∈ ts, l.Stands text file) ∧
      ts.Pairwise fun l m => l.span.stop ≤ m.span.start) ∧
    ∀ e, lex text file = .error e → ∃ ts rest, Tiled file 0 text ts rest ∧
      (Stuck rest ∨ Overflows rest) := by
  have htiled : Tiles file 0 text (lex text file) := tiles_lexFrom file text 0
  constructor
  · intro ts hts
    rw [hts] at htiled
    exact ⟨htiled, htiled.stands [] rfl rfl, htiled.pairwise⟩
  · intro e he
    rwa [he] at htiled

section Seams

def Span.shift (n : Nat) (s : Span) : Span := ⟨s.start + n, s.stop + n, s.file⟩

def Located.shift (n : Nat) (l : Located Token) : Located Token := ⟨l.node, l.span.shift n⟩

/-- The same answer about a text that stands `n` bytes further on. -/
inductive Shifted (n : Nat) :
    Except CompileError (List (Located Token)) → Except CompileError (List (Located Token)) → Prop
  | ok (ts : List (Located Token)) : Shifted n (.ok ts) (.ok (ts.map (·.shift n)))
  | error (f : SourceFault) (s : Span) : Shifted n (.error (.source f s))
      (.error (.source f (s.shift n)))

theorem Shifted.cons {n : Nat} {r r' : Except CompileError (List (Located Token))} (h : Shifted n r r')
    (l : Located Token) :
    Shifted n (r.map (l :: ·)) (r'.map (l.shift n :: ·)) := by
  cases h with
  | ok ts => exact .ok (l :: ts)
  | error f s => exact .error f s

theorem shifted_lexFrom (file n offset skip : Nat) (text : List Char) :
    Shifted n (lexFrom file offset skip text) (lexFrom file (offset + n) skip text) := by
  induction text generalizing offset skip with
  | nil => exact .ok []
  | cons c cs ih =>
    have hnext (skip : Nat) := ih (offset + c.utf8Size) skip
    have hplace (w : List Char) : (⟨offset + n, offset + n + byteLength w, file⟩ : Span) =
        Span.shift n ⟨offset, offset + byteLength w, file⟩ := by
      rw [Nat.add_right_comm]
      rfl
    cases skip with
    | succ skip =>
      rw [lexFrom,lexFrom,Nat.add_right_comm]
      exact hnext skip
    | zero =>
      rw [lexFrom,lexFrom,hplace,Nat.add_right_comm]
      cases Lexeme.first c cs with
      | layout word => exact hnext _
      | token t word => exact (hnext _).cons _
      | fault f word => exact .error f _

theorem Lexeme.first_append_newline (b : List Char) (h : ∀ f w, first c cs ≠ .fault f w) :
    first c (cs ++ '\n' :: b) = first c cs := by
  cases hfirst : first c cs with
  | layout word =>
    obtain ⟨rest,htext,hlayout⟩ := first_eq_layout_iff.1 hfirst
    refine first_eq_layout_iff.2 ⟨rest ++ '\n' :: b, by rw [← cons_append,htext,append_assoc], ?_⟩
    refine hlayout.imp_right ?_
    rintro ⟨line,hword,hline,hend⟩
    refine ⟨line, hword, hline, ?_⟩
    cases rest with
    | nil => rintro _ ⟨⟩; rfl
    | cons d rest => exact hend
  | token t word =>
    obtain ⟨hspells,rest,htext,hstop⟩ := first_eq_token_iff.1 hfirst
    refine first_eq_token_iff.2 ⟨hspells, rest ++ '\n' :: b, ?_, ?_⟩
    · rw [← cons_append,htext,append_assoc]
    · cases rest with
      | nil => exact t.stops_blank rfl b
      | cons d rest => exact hstop
  | fault f word => exact absurd hfirst (h f word)

theorem lexFrom_append_newline (a b : List Char) (offset : Nat) (ts : List (Located Token))
    (h : lexFrom file offset 0 a = .ok ts) :
    lexFrom file offset 0 (a ++ '\n' :: b) =
      (lexFrom file (offset + byteLength a + 1) 0 b).map (ts ++ ·) := by
  induction a using lexeme_induction generalizing offset ts with
  | nil =>
    cases h
    have hblank : lexFrom file offset 0 ('\n' :: b) = lexFrom file (offset + byteLength [] + 1) 0 b :=
      rfl
    rw [nil_append,hblank]
    cases lexFrom file (offset + byteLength [] + 1) 0 b <;> rfl
  | step c cs rest htext ih =>
    have hstep := lexFrom_cons file offset htext
    have hgoes : ∀ f w, Lexeme.first c cs ≠ .fault f w := by
      intro f w hfault
      rw [h,hfault] at hstep
      cases hstep
    have hfirst := Lexeme.first_append_newline b hgoes
    have htext' : c :: (cs ++ '\n' :: b) = (Lexeme.first c (cs ++ '\n' :: b)).text ++
        (rest ++ '\n' :: b) := by
      rw [hfirst,← append_assoc,← htext,cons_append]
    have hlength := (congrArg byteLength htext).trans (byteLength_append _ _)
    rw [h] at hstep
    rw [cons_append,lexFrom_cons file offset htext',hfirst,hlength,← Nat.add_assoc]
    cases hlex : lexFrom file (offset + byteLength (Lexeme.first c cs).text) 0 rest with
    | error e =>
      rw [hlex] at hstep
      cases hlexeme : Lexeme.first c cs <;> rw [hlexeme] at hstep <;> cases hstep
    | ok us =>
      rw [ih _ us hlex]
      rw [hlex] at hstep
      generalize lexFrom file (_ + 1) 0 b = r
      cases hlexeme : Lexeme.first c cs with
      | fault f word => exact absurd hlexeme (hgoes f word)
      | _ =>
        rw [hlexeme] at hstep
        cases hstep
        cases r <;> rfl

/-- Two texts with a line feed between them are read one after the other. -/
theorem lex_append_newline (a b : List Char) (file : Nat) (ts : List (Located Token))
    (ha : lex a file = .ok ts) :
    ((∃ vs, lex (a ++ '\n' :: b) file = .ok vs) ↔ ∃ us, lex b file = .ok us) ∧
    (∀ us, lex b file = .ok us →
      lex (a ++ '\n' :: b) file = .ok (ts ++ us.map (·.shift (byteLength a + 1)))) ∧
    ∀ e, lex b file = .error e → ∃ f s, e = .source f s ∧
      lex (a ++ '\n' :: b) file = .error (.source f (s.shift (byteLength a + 1))) := by
  have hlex : lex (a ++ '\n' :: b) file = (lexFrom file (0 + (byteLength a + 1)) 0 b).map (ts ++ ·) :=
    lexFrom_append_newline a b 0 ts ha
  have hshift : Shifted (byteLength a + 1) (lex b file) _ :=
    shifted_lexFrom file (byteLength a + 1) 0 0 b
  rw [hlex]
  generalize lex b file = r, lexFrom file (0 + (byteLength a + 1)) 0 b = r' at hshift
  obtain ⟨us⟩ | ⟨f,s⟩ := hshift
  · refine ⟨⟨fun _ => ⟨us, rfl⟩, fun _ => ⟨_, rfl⟩⟩, ?_, ?_⟩
    · rintro _ ⟨⟩
      rfl
    · rintro _ ⟨⟩
  · refine ⟨⟨?_, ?_⟩, ?_, ?_⟩
    · rintro ⟨_,⟨⟩⟩
    · rintro ⟨_,⟨⟩⟩
    · rintro _ ⟨⟩
    · rintro _ ⟨⟩
      exact ⟨f, s, rfl, rfl⟩

/-- A line that ends in a comment. -/
def remark : List Char := ['x', ' ', '/', '/', ' ', 'é', '"']

theorem lex_remark : lex remark 0 = .ok [⟨.name "x", ⟨0, 1, 0⟩⟩] := rfl

theorem remark_append_newline :
    lex (remark ++ '\n' :: ['=', '=']) 0 = .ok [⟨.name "x", ⟨0, 1, 0⟩⟩, ⟨.mark .equal, ⟨9, 11, 0⟩⟩] ∧
      ∃ f s, lex (remark ++ '\n' :: ['"']) 0 = .error (.source f s) := by
  obtain ⟨-,-,hfails⟩ := lex_append_newline remark ['"'] 0 _ lex_remark
  obtain ⟨f,s,-,hlex⟩ := hfails (.source .unterminatedString ⟨0, 1, 0⟩) rfl
  exact ⟨(lex_append_newline remark _ 0 _ lex_remark).2.1 [⟨.mark .equal, ⟨0, 2, 0⟩⟩] rfl, f, _, hlex⟩

end Seams

end Polled
