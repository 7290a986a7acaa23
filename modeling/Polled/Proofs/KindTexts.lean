import Polled.Proofs.RoundTrip
import Polled.Proofs.Tiling

/-!
Kinds as text.

The text of a kind is read as the tokens of the kind, from its first character to its last
(`tight_text`), and the parser makes the kind of them again.
-/

namespace Polled

open List

variable {ts : List Token} {gap rest : List Char} {t : Token}

/-- The text is read as the tokens, and neither starts nor ends with layout. -/
def Tight (cs : List Char) (ts : List Token) : Prop :=
  ∀ file offset, ∃ ls, lexFrom file offset 0 cs = .ok ls ∧ ls.map (·.node) = ts ∧
    (∀ l ∈ ls.head?, l.span.start = offset) ∧ ∀ l ∈ ls.getLast?, l.span.stop = offset + byteLength cs

theorem tight_nil : Tight [] [] := fun _ _ => ⟨[], rfl, rfl, by simp, by simp⟩

theorem Tight.cons (h : Tight rest ts) (t : Token) (ht : t.writable = true)
    (hgap : gap = [] ∨ gap = [' ']) (hstop : t.Stops (gap ++ rest)) (hend : ts = [] → gap ++ rest = []) :
    Tight (t.write ++ (gap ++ rest)) (t :: ts) := by
  intro file offset
  have hblank (o : Nat) : lexFrom file o 0 (gap ++ rest) = lexFrom file (o + byteLength gap) 0 rest := by
    rcases hgap with rfl | rfl <;> rfl
  obtain ⟨ls,hlex,hnodes,-,hlast⟩ := h file (offset + byteLength t.write + byteLength gap)
  refine ⟨⟨t, ⟨offset, offset + byteLength t.write, file⟩⟩ :: ls,
    ?_, by rw [map_cons,hnodes], by simp, ?_⟩
  · rw [lexFrom_spelled (Token.spells_write ht) hstop,hblank,hlex]
    rfl
  · cases ls with
    | nil =>
      subst hnodes
      simp [hend rfl]
    | cons l ls =>
      rw [getLast?_cons_cons]
      intro m hm
      rw [hlast m hm,byteLength_append,byteLength_append]
      omega

/-- What may follow a kind. -/
def Closing (rest : List Char) : Prop := ∀ c ∈ rest.head?, c = ',' ∨ c = '>'

theorem commas_cons (part : List Token) (parts : List (List Token)) :
    commas (part :: parts) = part ++ parts.flatMap (.mark .comma :: ·) := by
  induction parts generalizing part with
  | nil => simp [commas]
  | cons next parts ih => rw [commas,ih,flatMap_cons,cons_append]

namespace Kind

theorem head?_text (k : Kind) (rest : List Char) : (k.text.toList ++ rest).head? ≠ some '=' := by
  obtain ⟨b,f,_⟩ := k
  cases b <;> cases f <;> simp [text,Family.name]

theorem closing_restText (ks : List Kind) (h : Closing rest) :
    Closing ((restText ks).toList ++ rest) := by
  cases ks with
  | nil => exact h
  | cons k ks => simp [Closing,restText]

theorem closing_greater (rest : List Char) : Closing ('>' :: rest) := by simp [Closing]

theorem tight_family (b : Bool) (f : Family) {cs : List Char} (h : Tight cs ts)
    (hend : ts = [] → cs = []) (hstop : ∀ c ∈ cs.head?, isNamePart c = false) :
    Tight ((if b then "&" else "").toList ++ (f.name.toList ++ cs))
      ((if b then [.mark .ampersand] else []) ++ .name f.name :: ts) := by
  have hname := h.cons (.name f.name) (by cases f <;> decide) (.inl rfl) hstop hend
  cases b with
  | false => simpa [Token.write] using hname
  | true =>
    simpa [Token.write,Mark.spelling] using hname.cons (.mark .ampersand) rfl (.inl rfl)
      trivial (by simp)

mutual
theorem tight_text :
    (k : Kind) → ∀ {rest : List Char} {ts : List Token}, Closing rest → (ts = [] → rest = []) →
    Tight rest ts → Tight (k.text.toList ++ rest) (k.tokens ++ ts)
  | ⟨b, f, []⟩, rest, ts, hclosing, hend, hrest => by
    have hstop : ∀ c ∈ rest.head?, isNamePart c = false := by
      intro c hc
      rcases hclosing c hc with rfl | rfl <;> rfl
    simpa [text,argsText,tokens] using tight_family b f hrest hend hstop
  | ⟨b, f, k :: ks⟩, rest, ts, hclosing, hend, hrest => by
    have hstop : rest.head? ≠ some '=' := by
      intro hc
      rcases hclosing _ hc with h | h <;> cases h
    have hgreater := hrest.cons (.mark .greater) rfl (.inl rfl) hstop hend
    have htail := tight_restText ks (closing_greater rest) (cons_ne_nil _ _) hgreater
    have hkind := tight_text k (closing_restText ks (closing_greater rest)) (by simp) htail
    have hless := hkind.cons (.mark .less) rfl (.inl rfl) (head?_text k _) (by simp)
    have hfamily := tight_family b f hless (by simp) (by simp; rfl)
    simpa [text,argsText,tokens,tokensOfKinds,commas_cons,Token.write,Mark.spelling] using hfamily

theorem tight_restText :
    (ks : List Kind) → ∀ {rest : List Char} {ts : List Token}, Closing rest → ts ≠ [] →
    Tight rest ts → Tight ((restText ks).toList ++ rest)
    ((tokensOfKinds ks).flatMap (.mark .comma :: ·) ++ ts)
  | [], rest, ts, _, _, hrest => hrest
  | k :: ks, rest, ts, hclosing, hne, hrest => by
    have htail := tight_restText ks hclosing hne hrest
    have hkind := tight_text k (closing_restText ks hclosing) (by simp [hne]) htail
    have hcomma := hkind.cons (.mark .comma) rfl (.inr rfl) trivial (by simp [hne])
    simpa [restText,tokensOfKinds,Token.write,Mark.spelling] using hcomma
end

end Kind

theorem cover_of_lex {file : Nat} {cs : List Char} {f l : Located Token} {ls : List (Located Token)}
    (h : lexFrom file 0 0 cs = .ok (f :: ls)) (hstart : f.span.start = 0)
    (hstop : l.span.stop = byteLength cs) :
    f.span.cover l.span = ⟨0, byteLength cs, file⟩ := by
  have htiled := tiles_lexFrom file cs 0
  rw [h] at htiled
  obtain ⟨before,word,rest,htext,-,-,-,hf,-⟩ := Tiled.stands htiled [] rfl rfl f mem_cons_self
  have hwithin : f.span.stop ≤ byteLength cs := by
    rw [hf,show cs = before ++ word ++ rest from htext,byteLength_append,byteLength_append]
    exact Nat.le_add_right _ _
  rw [Span.cover,hstart,hstop,Nat.zero_min,Nat.max_eq_right hwithin,hf]

theorem Kind.parse_text (k : Kind) (file : Nat) (hwf : k.wellFormed = true) :
    ∃ tokens stop, lex k.text.toList file = .ok tokens ∧ Parser.kind (.ofTokens tokens file) =
      .ok (⟨k, ⟨0, byteLength k.text.toList, file⟩⟩, ⟨[], stop⟩) := by
  have hclosing : Closing [] := by simp [Closing]
  have htight := k.tight_text hclosing (fun _ => rfl) tight_nil
  rw [append_nil,append_nil] at htight
  obtain ⟨tokens,hlex,hnodes,hfirst,hlast⟩ := htight file 0
  refine ⟨tokens, (TokenStream.ofTokens tokens file).stop, hlex, ?_⟩
  have htakes := TokenStream.takes_of_map_rest (s := .ofTokens tokens file) hnodes
  obtain ⟨⟨node,_⟩,hkind,hnode⟩ := Parser.restores_kindFuel k hwf tokens.length
    (by rw [← hnodes,length_map]) htakes (by simp [Parser.NoLess,TokenStream.next?])
  obtain rfl : node = k := hnode
  obtain ⟨ls,hls,-,-,f,l,hf,hl,hspan⟩ := Parser.reads_kindFuel _ hkind
  obtain rfl : tokens = ls := (congrArg TokenStream.rest hls).trans (append_nil ls)
  obtain ⟨_,rfl⟩ := head?_eq_some_iff.1 hf
  have hcover := cover_of_lex hlex (hfirst f rfl) ((hlast l hl).trans (Nat.zero_add _))
  rw [← hcover]
  exact hspan ▸ hkind

/-- A kind whose tuples alone have arguments is read back from its text, all of which it spans. So no two
of these kinds have the same text. And no other kind is ever read. -/
theorem kind_reads_back : (∀ (k : Kind) (file : Nat), k.wellFormed = true → ∃ tokens stop,
      lex k.text.toList file = .ok tokens ∧
        Parser.kind (.ofTokens tokens file) =
          .ok (⟨k, ⟨0, byteLength k.text.toList, file⟩⟩, ⟨[], stop⟩)) ∧
    (∀ k k' : Kind, k.wellFormed = true → k'.wellFormed = true → k.text = k'.text → k = k') ∧
    ∀ s k s', Parser.kind s = .ok (k, s') → k.node.wellFormed = true := by
  refine ⟨Kind.parse_text, fun k k' hk hk' htext => ?_, fun s k s' h => ?_⟩
  · obtain ⟨_,_,hlex,hkind⟩ := k.parse_text 0 hk
    obtain ⟨_,_,hlex',hkind'⟩ := k'.parse_text 0 hk'
    rw [htext,hlex'] at hlex
    cases hlex
    rw [hkind'] at hkind
    cases hkind
    rfl
  · obtain ⟨_,-,hwf,-⟩ := Parser.reads_kind h
    exact hwf

/-- Brackets that run together. -/
def shelf : Kind := ⟨true, .tuple, [.owned .integer, ⟨false, .tuple, [.lent .string]⟩]⟩

theorem shelf_reads_back : shelf.text = "&Tuple<Integer, Tuple<&String>>" ∧ shelf.wellFormed = true ∧
    ∃ tokens stop, lex shelf.text.toList 2 = .ok tokens ∧
      Parser.kind (.ofTokens tokens 2) =
        .ok (⟨shelf, ⟨0, byteLength shelf.text.toList, 2⟩⟩, ⟨[], stop⟩) :=
  ⟨by decide, rfl, kind_reads_back.1 shelf 2 rfl⟩

end Polled
