import Polled.Proofs.Positions
import Polled.Proofs.Tiling

/-!
Where trees stand in the text that they are read from.

Every part of a tree is inside of the part around it and behind its neighbour, and where a part is
nothing but a name, the text has that name.
-/

namespace Polled

open List

variable {text : List Char} {file : Nat} {form : List Slot} {parts : List SpanTree}
  {ls ms : List (Located Token)}

/-- The text at the place is `x`. -/
def Span.Shows (text : List Char) (s : Span) (x : String) : Prop :=
  ∃ before after, text = before ++ x.toList ++ after ∧ s.start = byteLength before ∧
    s.stop = byteLength before + byteLength x.toList

/-- Parts are inside of their whole, one behind the other, and names are in the text. -/
inductive SpanTree.Nests (text : List Char) (file : Nat) : SpanTree → Prop
  | node {span : Span} {forms : List Slot → Prop} {parts : List SpanTree} (hfile : span.file = file)
    (hle : span.start ≤ span.stop) (hshows : ∀ x, forms = (· = [.own (.name x)]) → span.Shows text x)
    (hinside : ∀ o ∈ parts, span.start ≤ o.span.start ∧ o.span.stop ≤ span.stop)
    (horder : parts.Pairwise fun o o' => o.span.stop ≤ o'.span.start)
      (hparts : ∀ o ∈ parts, o.Nests text file) :
    SpanTree.Nests text file (.node span forms parts)

theorem Located.Stands.shows {l : Located Token} {x : String} (h : l.Stands text file)
    (hx : l.node = .name x) :
    l.span.file = file ∧ l.span.Shows text x := by
  obtain ⟨before,_,rest,htext,-,hspells,-,hspan,-⟩ := h
  rw [hx] at hspells
  obtain rfl := hspells.1
  exact hspan ▸ ⟨rfl, before, rest, htext, rfl, rfl⟩

/-- The place starts at one of the tokens or behind it, and ends with one of them or before that. -/
def Span.Between (s : Span) (ls : List (Located Token)) : Prop :=
  ∃ l ∈ ls, ∃ m ∈ ls, l.span.start ≤ s.start ∧ s.start ≤ s.stop ∧ s.stop ≤ m.span.stop

theorem Span.Between.mono {s : Span} (h : s.Between ls) (hsub : ls ⊆ ms) : s.Between ms := by
  obtain ⟨l,hl,m,hm,hs⟩ := h
  exact ⟨l, hsub hl, m, hsub hm, hs⟩

theorem Span.Between.after {s : Span} (h : s.Between ls) : s.after.Between ls := by
  obtain ⟨l,hl,m,hm,hstart,hle,hstop⟩ := h
  exact ⟨l, hl, m, hm, hstart.trans hle, le_rfl, hstop⟩

theorem Span.Bounds.between {s : Span} (h : s.Bounds ls) (ho : Ordered ls) : s.Between ls := by
  have hle := h.le ho
  obtain ⟨first,last,hfirst,hlast,rfl⟩ := h
  exact ⟨first, mem_of_mem_head? hfirst, last, mem_of_getLast? hlast, le_rfl, hle, le_rfl⟩

namespace Fills

theorem between {o : SpanTree} :
    {form : List Slot} → {parts : List SpanTree} → {ls : List (Located Token)} →
    Fills form parts ls → Ordered ls → o ∈ parts → o.span.Between ls
  | _, _, _, .own _ _ h, ho, hmem => (h.between ho.tail hmem).mono (subset_cons_self _ _)
  | _, _, _, .part hlaid h, ho, hmem => by
    rcases mem_cons.1 hmem with rfl | hmem
    · exact (hlaid.bounds.between ho.left).mono (subset_append_left _ _)
    · exact (h.between ho.right hmem).mono (subset_append_right _ _)
  | _, _, _, .gap hlaid _ h, ho, hmem => by
    rcases mem_cons.1 hmem with rfl | hmem
    · exact (hlaid.bounds.between ho.left).mono (subset_append_left _ _)
    rcases mem_cons.1 hmem with rfl | hmem
    · exact (hlaid.bounds.between ho.left).after.mono (subset_append_left _ _)
    · exact (h.between ho.right hmem).mono (subset_append_right _ _)

theorem stop_le {o : SpanTree} (h : Fills form parts ms) (hlaid : o.Laid ls) (ho : Ordered (ls ++ ms)) :
    ∀ o' ∈ parts, o.span.stop ≤ o'.span.start := by
  intro o' ho'
  obtain ⟨l,hl,-,-,hstart,-⟩ := h.between ho.right ho'
  obtain ⟨_,last,-,hlast,hspan⟩ := hlaid.bounds
  rw [hspan]
  exact ((pairwise_append.1 ho.pairwise).2.2 last (mem_of_getLast? hlast) l hl).trans hstart

theorem pairwise :
    {form : List Slot} → {parts : List SpanTree} → {ls : List (Located Token)} → Fills form parts ls →
    Ordered ls → parts.Pairwise fun o o' => o.span.stop ≤ o'.span.start
  | _, _, _, .nil, _ => .nil
  | _, _, _, .own _ _ h, ho => h.pairwise ho.tail
  | _, _, _, .part hlaid h, ho => .cons (h.stop_le hlaid ho) (h.pairwise ho.right)
  | _, _, _, .gap hlaid _ h, ho => by
    have hrest := h.stop_le hlaid ho
    exact .cons (forall_mem_cons.2 ⟨le_rfl, hrest⟩) (.cons hrest (h.pairwise ho.right))

end Fills

theorem Span.Bounds.file_eq {s : Span} (h : s.Bounds ls) (hls : ∀ l ∈ ls, l.Stands text file) :
    s.file = file := by
  obtain ⟨first,-,hfirst,-,rfl⟩ := h
  obtain ⟨_,_,_,-,-,-,-,hspan,-⟩ := hls first (mem_of_mem_head? hfirst)
  exact hspan ▸ rfl

mutual
theorem SpanTree.Laid.nests :
    {o : SpanTree} → {ls : List (Located Token)} → o.Laid ls → (∀ l ∈ ls, l.Stands text file) →
    Ordered ls → o.Nests text file
  | _, ls, .node hform hfills hspan, hls, ho => by
    refine .node (hspan.file_eq hls) (hspan.le ho) (fun x hx => ?_) (fun o hmem => ?_)
      (hfills.pairwise ho) (hfills.nests hls ho)
    · -- The part is a name, which is its only token.
      subst hx
      subst hform
      cases hfills with
      | own t place h =>
        cases h
        obtain ⟨_,_,hfirst,hlast,rfl⟩ := hspan
        cases hfirst
        cases hlast
        exact ((hls ⟨.name x, place⟩ mem_cons_self).shows rfl).2
    · obtain ⟨l,hl,m,hm,hstart,-,hstop⟩ := hfills.between ho hmem
      exact ⟨(hspan.mem ho hl).1.trans hstart, hstop.trans (hspan.mem ho hm).2⟩

theorem Fills.nests :
    {form : List Slot} → {parts : List SpanTree} → {ls : List (Located Token)} → Fills form parts ls →
    (∀ l ∈ ls, l.Stands text file) → Ordered ls → ∀ o ∈ parts, o.Nests text file
  | _, _, _, .nil, _, _ => by simp
  | _, _, _, .own _ _ h, hls, ho => h.nests (forall_mem_cons.1 hls).2 ho.tail
  | _, _, _, .part hlaid h, hls, ho =>
    forall_mem_cons.2 ⟨hlaid.nests (forall_mem_append.1 hls).1 ho.left,
      h.nests (forall_mem_append.1 hls).2 ho.right⟩
  | _, _, _, .gap hlaid hforms h, hls, ho => by
    have hfirst := (forall_mem_append.1 hls).1
    refine forall_mem_cons.2
      ⟨hlaid.nests hfirst ho.left, forall_mem_cons.2 ⟨?_, h.nests (forall_mem_append.1 hls).2 ho.right⟩⟩
    refine .node (hlaid.bounds.file_eq hfirst) le_rfl (fun x hx => ?_) nofun .nil nofun
    subst hx
    cases hforms
end

/-- Every part of a body goes from the first of its tokens to the last, parentheses included, and an
`else` that is not written is empty and at the end of the block before it. So parts are inside of the
part around them, in order and apart. All places are in the file, and at the place of a name that is
declared, bound, threaded, imported or called, the text is that name. -/
theorem spans_nest {m : SourceModule} (h : SourceModule.parse text file = .ok m) :
    ∃ tokens, lex text file = .ok tokens ∧ (∀ d ∈ m.functions, ∀ b ∈ d.body, ∃ ls, ls <:+: tokens ∧
      b.spans.Laid ls ∧ b.spans.Nests text file) ∧
        (∀ x ∈ m.declared, x.span.file = file ∧ x.span.Shows text x.node) ∧
          m.Paired (Sited text file) m := by
  obtain ⟨tokens,hlex,-,hbodies,hnames⟩ := SourceModule.laid_of_parse h
  have htiled : Tiles file 0 text (lex text file) := tiles_lexFrom file text 0
  rw [hlex] at htiled
  have hstands := Tiled.stands htiled [] rfl rfl
  have hordered : Ordered tokens := by
    refine ⟨fun l hl => ?_, Tiled.pairwise htiled⟩
    obtain ⟨_,_,_,-,-,-,-,hspan,-⟩ := hstands l hl
    exact hspan ▸ Nat.le_add_right _ _
  refine ⟨tokens, hlex, fun d hd b hb => ?_, fun x hx => (hstands _ (hnames x hx)).shows rfl, ?_⟩
  · obtain ⟨ls,hls,hover⟩ := hbodies d hd b hb
    have ho := hordered.sublist hls.sublist
    exact ⟨ls, hls, hover.laid ho, (hover.laid ho).nests (fun l hl => hstands l (hls.subset hl)) ho⟩
  · have hsited := SourceModule.parse_sited text file
    rw [h] at hsited
    cases hsited with
    | ok hm => exact hm

/-- A comparison in parentheses, a variable that is threaded and an `if` without an `else`. -/
def lamp : List Char :=
  ("import oil\nfunc f(n: Integer): Integer \x7b\n  if (n == 1) \x7b let m = wick(&n, (n)) \x7d\n" ++
    "  return n\n\x7d").toList

theorem lamp_spans_nest : ∃ m, SourceModule.parse lamp 4 = .ok m ∧
    (m.functions.map fun d => d.body.map fun b => b.stmts.map (·.span)) =
      [some [⟨43, 80, 4⟩, ⟨83, 91, 4⟩]] ∧ ∃ tokens, lex lamp 4 = .ok tokens ∧
      (∀ d ∈ m.functions, ∀ b ∈ d.body, ∃ ls, ls <:+: tokens ∧ b.spans.Laid ls ∧ b.spans.Nests lamp 4) ∧
      (∀ x ∈ m.declared, x.span.file = 4 ∧ x.span.Shows lamp x.node) ∧ m.Paired (Sited lamp 4) m := by
  have hread : ((SourceModule.parse lamp 4).toOption.map fun m =>
      m.functions.map fun d => d.body.map fun b => b.stmts.map (·.span)) =
        some [some [⟨43, 80, 4⟩, ⟨83, 91, 4⟩]] := by
    decide +kernel
  cases hparse : SourceModule.parse lamp 4 with
  | error e =>
    rw [hparse] at hread
    cases hread
  | ok m =>
    rw [hparse] at hread
    exact ⟨m, rfl, Option.some.inj hread, spans_nest hparse⟩

end Polled
