import Polled.Proofs.Writings

/-!
Trees over the tokens that they were read from.

A `SpanTree` keeps of a tree what its places are about. It is `Laid` over tokens that fill its slots, and
then its place goes from the first of them to the last.
-/

namespace Polled

open List

variable {ls ms : List (Located Token)} {pieces : List (List (Located Token))} {s t u : Span}

variable {tok : Token}

section Order

/-- Each token is behind the one before it. -/
structure Ordered (ls : List (Located Token)) : Prop where
  le : ∀ l ∈ ls, l.span.start ≤ l.span.stop
  pairwise : ls.Pairwise fun l m => l.span.stop ≤ m.span.start

theorem Ordered.sublist (h : Ordered ls) (hms : ms <+ ls) : Ordered ms :=
  ⟨fun l hl => h.le l (hms.subset hl), h.pairwise.sublist hms⟩

variable {l : Located Token}

theorem Ordered.tail (h : Ordered (l :: ls)) : Ordered ls := h.sublist (sublist_cons_self l ls)

theorem Ordered.left (h : Ordered (ls ++ ms)) : Ordered ls := h.sublist (sublist_append_left ls ms)

theorem Ordered.right (h : Ordered (ls ++ ms)) : Ordered ms := h.sublist (sublist_append_right ls ms)

namespace Span

/-- The span goes from the start of the first token to the end of the last one. -/
def Bounds (s : Span) (ls : List (Located Token)) : Prop :=
  ∃ first last, ls.head? = some first ∧ ls.getLast? = some last ∧
    s = ⟨first.span.start, last.span.stop, first.span.file⟩

/-- The span starts at one of the tokens or behind it, and ends with the last one. -/
def Ends (s : Span) (ls : List (Located Token)) : Prop :=
  ∃ first last, ls.head? = some first ∧ ls.getLast? = some last ∧
    first.span.start ≤ s.start ∧ s.start ≤ s.stop ∧ s.stop = last.span.stop

theorem bounds_singleton (l : Located Token) : l.span.Bounds [l] := ⟨l, l, rfl, rfl, rfl⟩

theorem Bounds.mem (h : s.Bounds ls) (ho : Ordered ls) (hl : l ∈ ls) :
    s.start ≤ l.span.start ∧ l.span.stop ≤ s.stop := by
  obtain ⟨first,last,hfirst,hlast,rfl⟩ := h
  constructor
  · obtain ⟨_,rfl⟩ := head?_eq_some_iff.1 hfirst
    rcases mem_cons.1 hl with rfl | hl
    · exact le_rfl
    · exact (ho.le first mem_cons_self).trans (rel_of_pairwise_cons ho.pairwise hl)
  · obtain ⟨_,rfl⟩ := getLast?_eq_some_iff.1 hlast
    rcases mem_append.1 hl with hl | hl
    · exact ((pairwise_append.1 ho.pairwise).2.2 l hl last (by simp)).trans (ho.le last (by simp))
    · exact Nat.le_of_eq (by rw [mem_singleton.1 hl])

theorem Bounds.le (h : s.Bounds ls) (ho : Ordered ls) : s.start ≤ s.stop := by
  obtain ⟨first,_,hfirst,-⟩ := id h
  have hin := h.mem ho (mem_of_mem_head? hfirst)
  exact hin.1.trans ((ho.le first (mem_of_mem_head? hfirst)).trans hin.2)

theorem Bounds.ends (h : s.Bounds ms) (hms : ms <:+ ls) (ho : Ordered ls) : s.Ends ls := by
  have hle := h.le (ho.sublist hms.sublist)
  obtain ⟨first,last,hfirst,hlast,rfl⟩ := h
  obtain ⟨front,rfl⟩ := hms
  obtain ⟨l,hl⟩ : ∃ l, (front ++ ms).head? = some l := by cases front <;> simp [hfirst]
  have hend : (front ++ ms).getLast? = some last := by simp [hlast]
  have hmem : first ∈ front ++ ms := mem_append_right _ (mem_of_mem_head? hfirst)
  exact ⟨l, last, hl, hend, (Bounds.mem ⟨l, last, hl, hend, rfl⟩ ho hmem).1, hle, rfl⟩

/-- The join of two places, one at either end of the tokens, spans all of them. -/
theorem Bounds.cover (hs : s.Bounds ms) (hms : ms <+: ls) (ht : t.Ends ls) (ho : Ordered ls) :
    (s.cover t).Bounds ls := by
  obtain ⟨first,_,hfirst,hlast,rfl⟩ := hs
  obtain ⟨l,m,hl,hm,hstart,-,hstop⟩ := ht
  obtain rfl : first = l := by
    obtain ⟨_,rfl⟩ := hms
    simpa [hfirst] using hl
  have hin := (Bounds.mem ⟨first, m, hl, hm, rfl⟩ ho (hms.subset (mem_of_getLast? hlast))).2
  refine ⟨first, m, hl, hm, ?_⟩
  rw [Span.cover,hstop,Nat.min_eq_left hstart,Nat.max_eq_right hin]

theorem Ends.after (h : s.Ends ls) : s.after.Ends ls := by
  obtain ⟨first,last,hfirst,hlast,hstart,hle,hstop⟩ := h
  exact ⟨first, last, hfirst, hlast, hstart.trans hle, le_rfl, hstop⟩

theorem Ends.join (hs : s.Ends ls) (ht : t.Bounds ms) (hms : ms <+ ls) (ho : Ordered ls) :
    (s.cover t).Ends ls := by
  have hle := ht.le (ho.sublist hms)
  obtain ⟨_,_,hfirst,hlast,rfl⟩ := ht
  obtain ⟨l,m,hl,hm,_,-,_⟩ := hs
  have hspan : Bounds ⟨l.span.start, m.span.stop, l.span.file⟩ ls := ⟨l, m, hl, hm, rfl⟩
  have hbefore := (hspan.mem ho (hms.subset (mem_of_mem_head? hfirst))).1
  have hbehind := (hspan.mem ho (hms.subset (mem_of_getLast? hlast))).2
  refine ⟨l, m, hl, hm, ?_⟩
  simp only [Span.cover] at *
  omega

theorem Ends.cover (ht : t.Ends (⟨tok, s⟩ :: ls)) (ho : Ordered (⟨tok, s⟩ :: ls)) :
    (s.cover t).Bounds (⟨tok, s⟩ :: ls) :=
  (bounds_singleton ⟨tok, s⟩).cover ⟨ls, rfl⟩ ht ho

theorem bounds_enclosed {tok' : Token} (ho : Ordered (⟨tok, s⟩ :: ls ++ [⟨tok', t⟩])) :
    (s.cover t).Bounds (⟨tok, s⟩ :: ls ++ [⟨tok', t⟩]) :=
  Ends.cover ((bounds_singleton ⟨tok', t⟩).ends (suffix_append (_ :: ls) _) ho) ho

end Span

end Order

section Trees

/-- What stands in a text at some point: a token, a part, or nothing where a part is left out. -/
inductive Slot where
  | own (t : Token)
  | part
  | gap

def commaSlots : List (List Slot) → List Slot
  | [] => []
  | [form] => form
  | form :: next :: forms => form ++ .own (.mark .comma) :: commaSlots (next :: forms)

def parenSlots (form : List Slot) : List Slot :=
  .own (.mark .openParen) :: form ++ [.own (.mark .closeParen)]

/-- The form itself, or with parentheses around it. -/
inductive Wrapped (form : List Slot) : List Slot → Prop
  | plain : Wrapped form form
  | parens {wide : List Slot} (h : Wrapped form wide) : Wrapped form (parenSlots wide)

/-- A part of a tree: its place, the forms that it may have in a text, and the parts inside of it. -/
inductive SpanTree where
  | node (span : Span) (forms : List Slot → Prop) (parts : List SpanTree)

def SpanTree.span : SpanTree → Span
  | .node span _ _ => span

/-- The part may be left out, if that is so. -/
def SpanTree.orGap : SpanTree → Prop → SpanTree
  | .node span forms parts, missing => .node span (fun form => forms form ∨ form = [] ∧ missing) parts

def Located.spans (x : Located String) : SpanTree := .node x.span (· = [.own (.name x.node)]) []

def Arg.slots : Arg → List Slot
  | .thread _ => [.own (.mark .ampersand), .part]
  | .value _ => [.part]

mutual
def Expr.spans : Expr → SpanTree
  | .name span x => .node span (Wrapped [.own (.name x)]) []
  | .truth span value => .node span (Wrapped [.own (.keyword (if value then .trueKw else .falseKw))]) []
  | .integer span value => .node span (Wrapped [.own (.integer value)]) []
  | .text span value => .node span (Wrapped [.own (.text value)]) []
  | .tuple span items =>
    .node span (Wrapped (parenSlots (commaSlots (items.map fun _ => [.part])))) (spansOfExprs items)
  | .call span callee args =>
    .node span (Wrapped (.part :: parenSlots (commaSlots (args.map Arg.slots))))
      (callee.spans :: spansOfArgs args)
  | .compare span op lhs rhs =>
    .node span (Wrapped [.part, .own (.mark op.mark), .part]) [lhs.spans, rhs.spans]

def spansOfExprs : List Expr → List SpanTree
  | [] => []
  | e :: es => e.spans :: spansOfExprs es

def spansOfArgs : List Arg → List SpanTree
  | [] => []
  | .thread x :: as => x.spans :: spansOfArgs as
  | .value e :: as => e.spans :: spansOfArgs as
end

def Arg.spans : Arg → SpanTree
  | .thread x => x.spans
  | .value e => e.spans

theorem spansOfExprs_eq (es : List Expr) : spansOfExprs es = es.map Expr.spans := by
  induction es with
  | nil => rfl
  | cons e es ih => rw [spansOfExprs,ih,map_cons]

theorem spansOfArgs_eq (as : List Arg) : spansOfArgs as = as.map Arg.spans := by
  induction as with
  | nil => rfl
  | cons a as ih => cases a <;> rw [spansOfArgs,ih,map_cons,Arg.spans]

mutual
/-- An `else` that is not written has the empty place at the end of the block before it. -/
def Stmt.spans : Stmt → SpanTree
  | .bind span names value => .node span
      (· = .own (.keyword .letKw) :: commaSlots (names.map fun _ => [.part]) ++
        [.own (.mark .assign), .part])
      (names.map Located.spans ++ [value.spans])
  | .ret span none => .node span (· = [.own (.keyword .returnKw)]) []
  | .ret span (some value) => .node span (· = [.own (.keyword .returnKw), .part]) [value.spans]
  | .branch span cond t e => .node span
      (fun form => form = [.own (.keyword .ifKw), .part, .part, .own (.keyword .elseKw), .part] ∨
        form = [.own (.keyword .ifKw), .part, .part, .gap])
      [cond.spans, t.spans, e.spans.orGap (e = ⟨t.span.after, []⟩)]
  | .loop span cond body =>
    .node span (· = [.own (.keyword .whileKw), .part, .part]) [cond.spans, body.spans]
  | .run span e => .node span (· = [.part]) [e.spans]

def Block.spans : Block → SpanTree
  | ⟨span, stmts⟩ => .node span
      (· = .own (.mark .openBrace) :: stmts.map (fun _ => .part) ++ [.own (.mark .closeBrace)])
        (spansOfStmts stmts)

def spansOfStmts : List Stmt → List SpanTree
  | [] => []
  | s :: ss => s.spans :: spansOfStmts ss
end

mutual
/-- The tokens have one of the forms of the tree, which spans them. -/
inductive SpanTree.Laid : SpanTree → List (Located Token) → Prop
  | node {span : Span} {forms : List Slot → Prop} {form : List Slot} {parts : List SpanTree}
      {ls : List (Located Token)}
    (hform : forms form) (hfills : Fills form parts ls) (hspan : span.Bounds ls) :
      SpanTree.Laid (.node span forms parts) ls

/-- The tokens fill the slots, and the parts are laid over those in theirs. A part that is left out has
the empty place at the end of the part before it. -/
inductive Fills : List Slot → List SpanTree → List (Located Token) → Prop
  | nil : Fills [] [] []
  | own (t : Token) (place : Span) {form : List Slot} {parts : List SpanTree} {ls : List (Located Token)}
    (h : Fills form parts ls) : Fills (.own t :: form) parts (⟨t, place⟩ :: ls)
  | part {o : SpanTree} {form : List Slot} {parts : List SpanTree} {ls ms : List (Located Token)}
      (ho : o.Laid ls)
    (h : Fills form parts ms) : Fills (.part :: form) (o :: parts) (ls ++ ms)
  | gap {o : SpanTree} {forms : List Slot → Prop} {form : List Slot} {parts : List SpanTree}
      {ls ms : List (Located Token)}
    (ho : o.Laid ls) (hforms : forms []) (h : Fills form parts ms) :
    Fills (.part :: .gap :: form) (o :: .node o.span.after forms [] :: parts) (ls ++ ms)
end

variable {o : SpanTree}

theorem SpanTree.Laid.bounds (h : o.Laid ls) : o.span.Bounds ls := by
  obtain ⟨-,-,hspan⟩ := h
  exact hspan

theorem SpanTree.Laid.orGap {missing : Prop} (h : o.Laid ls) : (o.orGap missing).Laid ls := by
  obtain ⟨hform,hfills,hspan⟩ := h
  exact .node (.inl hform) hfills hspan

namespace Fills

variable {form : List Slot} {parts : List SpanTree}

theorem append {form' : List Slot} {parts' : List SpanTree} :
    {form : List Slot} → {parts : List SpanTree} → {ls : List (Located Token)} → Fills form parts ls →
      Fills form' parts' ms → Fills (form ++ form') (parts ++ parts') (ls ++ ms)
  | _, _, _, .nil, h' => h'
  | _, _, _, .own t place h, h' => .own t place (h.append h')
  | _, _, _, .part ho h, h' => append_assoc _ _ ms ▸ .part ho (h.append h')
  | _, _, _, .gap ho hforms h, h' => append_assoc _ _ ms ▸ .gap ho hforms (h.append h')

theorem close (h : Fills form parts ls) (t : Token) (place : Span) :
    Fills (form ++ [.own t]) parts (ls ++ [⟨t, place⟩]) :=
  append_nil parts ▸ h.append (.own t place .nil)

theorem last (ho : o.Laid ls) : Fills [.part] [o] ls := append_nil ls ▸ .part ho .nil

end Fills

/-- Pieces with a comma between any two of them. -/
inductive Spread : List (List (Located Token)) → List (Located Token) → Prop
  | nil : Spread [] []
  | single (ls : List (Located Token)) : Spread [ls] ls
  | cons (ls : List (Located Token)) (comma : Span) {next : List (Located Token)}
      {pieces : List (List (Located Token))}
    {ms : List (Located Token)} (h : Spread (next :: pieces) ms) :
    Spread (ls :: next :: pieces) (ls ++ ⟨.mark .comma, comma⟩ :: ms)

section

variable {α : Type} {R : α → List (Located Token) → Prop} {as : List α} (h : Spread pieces ls)
variable (hall : Forall₂ R as pieces)

include h

theorem Spread.map_node : ls.map (·.node) = commas (pieces.map (·.map (·.node))) := by
  induction h with
  | nil => rfl
  | single => rfl
  | cons ls comma _ ih => simp [ih,commas]

include hall

theorem Spread.fills (slots : α → List Slot) (tree : α → SpanTree) (ho : Ordered ls)
    (hR : ∀ a ls, R a ls → Ordered ls → Fills (slots a) [tree a] ls) :
    Fills (commaSlots (as.map slots)) (as.map tree) ls := by
  induction h generalizing as with
  | nil =>
    cases hall
    exact .nil
  | single ls =>
    obtain _ | ⟨ha,_ | _⟩ := hall
    exact hR _ _ ha ho
  | cons ls comma _ ih =>
    obtain _ | ⟨ha,_ | ⟨hb,hall⟩⟩ := hall
    exact (hR _ _ ha ho.left).append (.own _ comma (ih (.cons hb hall) ho.right.tail))

theorem Spread.map_node_eq (tokens : α → List Token) (hR : ∀ a ls, R a ls → ls.map (·.node) = tokens a) :
    ls.map (·.node) = commas (as.map tokens) := by
  have hpieces : pieces.map (·.map (·.node)) = as.map tokens := by
    clear h
    induction hall with
    | nil => rfl
    | cons ha _ ih => rw [map_cons,map_cons,ih,hR _ _ ha]
  rw [h.map_node,hpieces]

theorem Spread.exists_of_mem {a : α} (ha : a ∈ as) : ∃ ms, ms ⊆ ls ∧ R a ms := by
  induction h generalizing as with
  | nil =>
    cases hall
    cases ha
  | single ls =>
    obtain _ | ⟨hR,_ | _⟩ := hall
    cases mem_singleton.1 ha
    exact ⟨ls, Subset.refl _, hR⟩
  | cons ls comma _ ih =>
    obtain _ | ⟨hR,hall⟩ := hall
    rcases mem_cons.1 ha with rfl | ha
    · exact ⟨ls, subset_append_left _ _, hR⟩
    · obtain ⟨ms,hms,hR⟩ := ih hall ha
      exact ⟨ms, fun l hl => by simp [hms hl], hR⟩

end

end Trees

section Exprs

/-- The tokens write the expression, and it is laid over them if they stand in order. -/
structure Expr.Over (e : Expr) (ls : List (Located Token)) : Prop where
  written : e.Written (ls.map (·.node))
  laid : Ordered ls → e.spans.Laid ls

/-- What is threaded is a name behind an ampersand. -/
def Arg.Over : Arg → List (Located Token) → Prop
  | .thread x, ls => ∃ amp, ls = [⟨.mark .ampersand, amp⟩, ⟨.name x.node, x.span⟩]
  | .value e, ls => e.Over ls

variable {e lhs rhs : Expr} {items : List Expr} {args : List Arg}

theorem Located.laid (x : Located String) : x.spans.Laid [⟨.name x.node, x.span⟩] :=
  .node rfl (.own _ _ .nil) (Span.bounds_singleton ⟨_, x.span⟩)

theorem Arg.Over.written {a : Arg} (h : a.Over ls) : a.Written (ls.map (·.node)) := by
  cases a with
  | thread x =>
    obtain ⟨_,rfl⟩ := h
    rfl
  | value e => exact Expr.Over.written h

theorem Arg.Over.fills (a : Arg) (ls : List (Located Token)) (h : a.Over ls) (ho : Ordered ls) :
    Fills a.slots [a.spans] ls := by
  cases a with
  | thread x =>
    obtain ⟨amp,rfl⟩ := h
    exact .own _ amp (.last x.laid)
  | value e => exact .last (Expr.Over.laid h ho)

namespace Expr

theorem Over.bounds (h : e.Over ls) (ho : Ordered ls) : e.span.Bounds ls := by
  have hspan : e.spans.span = e.span := by cases e <;> rfl
  exact hspan ▸ (h.laid ho).bounds

theorem Over.ne_nil (h : e.Over ls) : ls ≠ [] := by
  obtain ⟨hw,-⟩ := h
  generalize hts : ls.map (·.node) = ts at hw
  rintro rfl
  cases hw <;> simp [inParens] at hts

theorem over_leaf (hw : e.Written [tok]) (hspans : e.spans = .node e.span (Wrapped [.own tok]) []) :
    e.Over [⟨tok, e.span⟩] :=
  ⟨hw, fun _ => hspans ▸ .node .plain (.own tok _ .nil) (Span.bounds_singleton ⟨tok, e.span⟩)⟩

/-- Parentheses become part of the expression inside of them. -/
theorem over_placed (h : e.Over ls) (o c : Span) :
    (e.placed (o.cover c)).Over (⟨.mark .openParen, o⟩ :: ls ++ [⟨.mark .closeParen, c⟩]) := by
  have hw : (e.placed (o.cover c)).Written (inParens (ls.map (·.node))) := .parens h.written.placed
  obtain ⟨form,parts,hspans,hplaced⟩ : ∃ form parts, e.spans = .node e.span (Wrapped form) parts ∧
      (e.placed (o.cover c)).spans = .node (o.cover c) (Wrapped form) parts := by
    cases e <;> exact ⟨_, _, rfl, rfl⟩
  refine ⟨by simpa [inParens] using hw, fun ho => ?_⟩
  obtain ⟨hform,hfills,-⟩ := hspans ▸ h.laid ho.tail.left
  rw [hplaced]
  exact .node (.parens hform) (.own _ o (hfills.close _ c)) (Span.bounds_enclosed ho)

theorem over_tuple (hne : items.length ≠ 1) (h : Spread pieces ls)
    (hall : Forall₂ Expr.Over items pieces) (o c : Span) :
    (Expr.tuple (o.cover c) items).Over (⟨.mark .openParen, o⟩ :: ls ++ [⟨.mark .closeParen, c⟩]) := by
  have hw : (Expr.tuple (o.cover c) items).Written (inParens (commas (pieces.map (·.map (·.node))))) :=
    .tuple _ hne (writtenExprs_of_forall₂ (forall₂_map_right_iff.2 (hall.imp fun _ _ he => he.written)))
  refine ⟨by simpa [inParens,h.map_node] using hw, fun ho => ?_⟩
  have hfills := h.fills hall _ _ ho.tail.left fun _ _ he ho => .last (he.laid ho)
  rw [← spansOfExprs_eq] at hfills
  exact .node .plain (.own _ o (hfills.close _ c)) (Span.bounds_enclosed ho)

theorem over_call (callee : Located String) (h : Spread pieces ls) (hall : Forall₂ Arg.Over args pieces)
    (o c : Span) :
    (Expr.call (callee.span.cover c) callee args).Over
      (⟨.name callee.node, callee.span⟩ :: (⟨.mark .openParen, o⟩ :: ls) ++
        [⟨.mark .closeParen, c⟩]) := by
  have hw : (Expr.call (callee.span.cover c) callee args).Written
      (.name callee.node :: inParens (commas (pieces.map (·.map (·.node))))) :=
    .call _ callee (writtenArgs_of_forall₂ (forall₂_map_right_iff.2 (hall.imp fun _ _ ha => ha.written)))
  refine ⟨by simpa [inParens,h.map_node] using hw, fun ho => ?_⟩
  have hfills := h.fills hall _ _ ho.tail.tail.left Arg.Over.fills
  rw [← spansOfArgs_eq] at hfills
  exact .node .plain ((Fills.last callee.laid).append (.own _ o (hfills.close _ c)))
    (Span.bounds_enclosed ho)

theorem over_compare (op : Comparison) (place : Span) (hl : lhs.Over ls) (hr : rhs.Over ms)
    (hlhs : WrittenOperand lhs (ls.map (·.node))) (hrhs : WrittenOperand rhs (ms.map (·.node))) :
    (Expr.compare (lhs.span.cover rhs.span) op lhs rhs).Over (ls ++ ⟨.mark op.mark, place⟩ :: ms) := by
  have hw := Expr.Written.compare (lhs.span.cover rhs.span) op hlhs hrhs
  refine ⟨by simpa using hw, fun ho => ?_⟩
  have hends := (hr.bounds ho.right.tail).ends ((suffix_cons _ _).trans (suffix_append _ _)) ho
  exact .node .plain (.part (hl.laid ho.left) (.own _ place (.last (hr.laid ho.right.tail))))
    ((hl.bounds ho.left).cover (prefix_append _ _) hends ho)

end Expr

end Exprs

section Stmts

structure Stmt.Over (s : Stmt) (ls : List (Located Token)) : Prop where
  written : s.Written (ls.map (·.node))
  laid : Ordered ls → s.spans.Laid ls

structure Block.Over (b : Block) (ls : List (Located Token)) : Prop where
  written : b.Written (ls.map (·.node))
  laid : Ordered ls → b.spans.Laid ls

structure OverStmts (ss : List Stmt) (ls : List (Located Token)) : Prop where
  written : WrittenStmts ss (ls.map (·.node))
  fills : Ordered ls → Fills (ss.map fun _ => .part) (spansOfStmts ss) ls

variable {cond value : Expr} {onTrue onFalse body : Block} {ks : List (Located Token)} {start : Span}

theorem Block.Over.bounds (h : body.Over ls) (ho : Ordered ls) : body.span.Bounds ls := by
  have hspan : body.spans.span = body.span := by
    cases body
    rfl
  exact hspan ▸ (h.laid ho).bounds

theorem Block.Over.fills_gap (h : body.Over ls) (ho : Ordered ls) : Fills [.part, .gap]
      [body.spans, (Block.mk body.span.after []).spans.orGap
        (Block.mk body.span.after [] = ⟨body.span.after, []⟩)] ls := by
  obtain ⟨_,_⟩ := body
  rw [← append_nil ls]
  exact .gap (h.laid ho) (.inr ⟨rfl, rfl⟩) .nil

namespace Stmt

theorem over_bind {names : List (Located String)} (hne : names ≠ []) (h : Spread pieces ls)
    (hall : Forall₂ (fun (x : Located String) ls => ls = [⟨.name x.node, x.span⟩]) names pieces)
    (place : Span) (hvalue : value.Over ms) : (Stmt.bind (start.cover value.span) names value).Over
      (⟨.keyword .letKw, start⟩ :: (ls ++ ⟨.mark .assign, place⟩ :: ms)) := by
  have hw := Stmt.Written.bind (start.cover value.span) hne hvalue.written
  have hnames := h.map_node_eq hall (fun x => [.name x.node]) fun _ _ hx => by rw [hx]; rfl
  refine ⟨by simpa [hnames] using hw, fun ho => ?_⟩
  have hbehind := ho.tail.right.tail
  have hfills := h.fills hall (fun _ => [.part]) Located.spans ho.tail.left fun x _ hx _ =>
    hx ▸ .last x.laid
  have hends := (hvalue.bounds hbehind).ends ((suffix_cons _ _).trans (suffix_append (_ :: ls) _)) ho
  exact .node rfl (.own _ start (hfills.append (.own _ place (.last (hvalue.laid hbehind)))))
    (hends.cover ho)

theorem over_bareReturn : (Stmt.ret start none).Over [⟨.keyword .returnKw, start⟩] :=
  ⟨.bareReturn start, fun _ => .node rfl (.own _ start .nil) (Span.bounds_singleton ⟨_, start⟩)⟩

theorem over_ret (hvalue : value.Over ls) :
    (Stmt.ret (start.cover value.span) (some value)).Over (⟨.keyword .returnKw, start⟩ :: ls) :=
  ⟨.ret _ hvalue.written, fun ho => .node rfl (.own _ start (.last (hvalue.laid ho.tail)))
    (((hvalue.bounds ho.tail).ends (suffix_cons _ _) ho).cover ho)⟩

theorem over_run (h : value.Over (⟨tok, start⟩ :: ls)) :
    (Stmt.run (start.cover value.span) value).Over (⟨tok, start⟩ :: ls) :=
  ⟨.run _ h.written, fun ho => .node rfl (.last (h.laid ho))
    (((h.bounds ho).ends (suffix_refl _) ho).cover ho)⟩

theorem over_loop (hcond : cond.Over ls) (hbody : body.Over ms) :
    (Stmt.loop (start.cover body.span) cond body).Over (⟨.keyword .whileKw, start⟩ :: (ls ++ ms)) := by
  have hw := Stmt.Written.loop (start.cover body.span) hcond.written hbody.written
  refine ⟨by simpa using hw, fun ho => ?_⟩
  have hfills := Fills.part (hcond.laid ho.tail.left) (.last (hbody.laid ho.tail.right))
  exact .node rfl (.own _ start hfills)
    (((hbody.bounds ho.tail.right).ends (suffix_append (_ :: ls) _) ho).cover ho)

theorem over_branchOnly (hcond : cond.Over ls) (ht : onTrue.Over ms) :
    (Stmt.branch (start.cover (onTrue.span.after.cover onTrue.span)) cond onTrue
      ⟨onTrue.span.after, []⟩).Over (⟨.keyword .ifKw, start⟩ :: (ls ++ ms)) := by
  have hw := Stmt.Written.branchOnly (start.cover (onTrue.span.after.cover onTrue.span))
    onTrue.span.after hcond.written ht.written
  refine ⟨by simpa using hw, fun ho => ?_⟩
  have hin : ms <:+ ⟨.keyword .ifKw, start⟩ :: (ls ++ ms) := suffix_append (_ :: ls) ms
  have hspan := ht.bounds ho.tail.right
  exact .node (.inr rfl) (.own _ start (.part (hcond.laid ho.tail.left) (ht.fills_gap ho.tail.right)))
    (((hspan.ends hin ho).after.join hspan hin.sublist ho).cover ho)

theorem over_branch (hcond : cond.Over ks) (ht : onTrue.Over ls) (place : Span) (he : onFalse.Over ms) :
    (Stmt.branch (start.cover (onFalse.span.cover onTrue.span)) cond onTrue onFalse).Over
      (⟨.keyword .ifKw, start⟩ :: (ks ++ ls) ++ ⟨.keyword .elseKw, place⟩ :: ms) := by
  have hw := Stmt.Written.branch (start.cover (onFalse.span.cover onTrue.span)) hcond.written
    ht.written he.written
  refine ⟨by simpa using hw, fun ho => ?_⟩
  have hbefore := ho.left.tail
  have hbehind := ho.right.tail
  have hends := (he.bounds hbehind).ends ((suffix_cons _ _).trans (suffix_append (_ :: (ks ++ ls)) _)) ho
  have hin : ls <+ ⟨.keyword .ifKw, start⟩ :: (ks ++ ls) ++ ⟨.keyword .elseKw, place⟩ :: ms :=
    (suffix_append (_ :: ks) ls).sublist.trans (sublist_append_left _ _)
  have hfills : Fills [.part, .part] [cond.spans, onTrue.spans] (ks ++ ls) :=
    .part (hcond.laid hbefore.left) (.last (ht.laid hbefore.right))
  exact .node (.inl rfl) (.own _ start (hfills.append (.own _ place (.last (he.laid hbehind).orGap))))
    ((hends.join (ht.bounds hbefore.right) hin ho).cover ho)

end Stmt

theorem Block.over {stmts : List Stmt} (h : OverStmts stmts ls) (o c : Span) :
    (Block.mk (o.cover c) stmts).Over (⟨.mark .openBrace, o⟩ :: ls ++ [⟨.mark .closeBrace, c⟩]) := by
  have hw := Block.Written.mk (o.cover c) h.written
  exact ⟨by simpa using hw, fun ho => .node rfl (.own _ o ((h.fills ho.tail.left).close _ c))
    (Span.bounds_enclosed ho)⟩

end Stmts

end Polled
