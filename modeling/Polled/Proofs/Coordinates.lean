import Mathlib.Data.Prod.Lex
import Polled.Proofs.Positions

/-!
Line and column of an offset.

What the walk over a text counts is its division into whole lines and the line that is under way
(`exists_lines_of_after`).
-/

namespace Polled

open List

namespace Position

/-- Whole lines and a part of the next one stand before the offset. Lines and columns are counted from
one. -/
def Marks (p : Position) (text : List Char) (offset : Nat) : Prop :=
  ∃ lines current rest, text = lines ++ current ++ rest ∧ offset = byteLength lines + (p.column - 1) ∧
    byteLength current = p.column - 1 ∧ lines.count '\n' = p.line - 1 ∧ '\n' ∉ current ∧
    (lines = [] ∨ lines.getLast? = some '\n')

/-- Earlier lines come first, and earlier columns of one line. -/
def order (p : Position) : Nat ×ₗ Nat := toLex (p.line, p.column)

theorem after_concat (cs : List Char) (c : Char) : after (cs ++ [c]) = (after cs).step c := by
  simp [after]

theorem exists_lines_of_after (cs : List Char) :
    ∃ lines current, cs = lines ++ current ∧ '\n' ∉ current ∧ (lines = [] ∨ lines.getLast? = some '\n') ∧
      after cs = ⟨lines.count '\n' + 1, byteLength current + 1⟩ := by
  induction cs using reverseRecOn with
  | nil => exact ⟨[], [], rfl, not_mem_nil, .inl rfl, rfl⟩
  | append_singleton cs c ih =>
    obtain ⟨lines,current,rfl,hcurrent,hlines,hafter⟩ := ih
    rw [after_concat,hafter,step]
    by_cases hc : c = '\n'
    · -- the line under way is whole now
      subst hc
      refine ⟨lines ++ current ++ ['\n'], [], (append_nil _).symm, not_mem_nil, .inr getLast?_concat, ?_⟩
      simp [count_eq_zero.2 hcurrent,byteLength]
    · refine ⟨lines, current ++ [c], append_assoc _ _ _, ?_, hlines, ?_⟩
      · simp [hcurrent,Ne.symm hc]
      · simp [hc,byteLength,Nat.add_right_comm]

theorem order_lt_step (p : Position) (c : Char) : p.order < (p.step c).order := by
  rw [order,order,Prod.Lex.toLex_lt_toLex,step]
  have hsize := c.utf8Size_pos
  split
  · exact .inl (Nat.lt_add_one _)
  · exact .inr ⟨rfl, Nat.lt_add_of_pos_right hsize⟩

theorem order_lt_after_append (cs : List Char) {ds : List Char} (hne : ds ≠ []) :
    (after cs).order < (after (cs ++ ds)).order := by
  induction ds using reverseRecOn with
  | nil => exact absurd rfl hne
  | append_singleton ds d ih =>
    rw [← append_assoc,after_concat]
    have hstep := order_lt_step (after (cs ++ ds)) d
    by_cases hds : ds = []
    · rwa [hds,append_nil] at hstep ⊢
    · exact (ih hds).trans hstep

theorem atOffset_append (before rest : List Char) :
    atOffset (before ++ rest) (byteLength before) = some (after before) := by
  rw [atOffset,beforeOffset_append,Option.map_some]

end Position

theorem beforeOffset_of_le {text : List Char} {offset : Nat} (h : byteLength text ≤ offset) :
    beforeOffset offset text = some text := by
  induction text generalizing offset with
  | nil => rw [beforeOffset]
  | cons c cs ih =>
    have hsize := c.utf8Size_pos
    rw [byteLength] at h
    rw [beforeOffset,if_neg (by omega),if_pos (by omega),ih (by omega),Option.map_some]

theorem Boundary.exists_append_of_lt {text : List Char} {m n : Nat} (hm : Boundary text m)
    (hn : Boundary text n) (h : m < n) :
    ∃ cs ds rest, ds ≠ [] ∧ text = cs ++ ds ++ rest ∧ byteLength cs = m ∧ byteLength (cs ++ ds) = n := by
  obtain ⟨cs,_,htext,rfl⟩ := hm
  obtain ⟨_,rest',htext',rfl⟩ := hn
  rcases append_eq_append_iff.1 (htext.symm.trans htext') with ⟨ds,rfl,-⟩ | ⟨ds,rfl,-⟩
  · refine ⟨cs, ds, rest', ?_, htext', rfl, rfl⟩
    rintro rfl
    simp at h
  · rw [byteLength_append] at h
    omega

/-- At a boundary of a text, line and column say how many line feeds stand before it and how far behind
the last of them it is. So of two boundaries the later one has the later position, and all offsets past
the end have one position. -/
theorem atOffset_marks (text : List Char) :
    (∀ n, Boundary text n → ∃ p, Position.atOffset text n = some p ∧ 1 ≤ p.line ∧ 1 ≤ p.column ∧
      p.Marks text n) ∧
    (∀ m n p q, Boundary text m → Boundary text n → Position.atOffset text m = some p →
      Position.atOffset text n = some q → (m < n ↔ p.order < q.order)) ∧
    ∀ n, byteLength text ≤ n → Position.atOffset text n = Position.atOffset text (byteLength text) := by
  refine ⟨fun n hn => ?_, fun m n p q hm hn hp hq => ?_, fun n hn => ?_⟩
  · obtain ⟨before,rest,rfl,rfl⟩ := hn
    obtain ⟨lines,current,rfl,hcurrent,hlines,hafter⟩ := Position.exists_lines_of_after before
    refine ⟨_, Position.atOffset_append _ _, ?_⟩
    rw [hafter]
    exact ⟨by simp, by simp, lines, current, rest, rfl, by simp, by simp, by simp, hcurrent, hlines⟩
  · have hlt {m n : Nat} {p q : Position} (hm : Boundary text m) (hn : Boundary text n)
        (hp : Position.atOffset text m = some p) (hq : Position.atOffset text n = some q) (h : m < n) :
        p.order < q.order := by
      obtain ⟨cs,_,_,hne,rfl,rfl,rfl⟩ := hm.exists_append_of_lt hn h
      rw [append_assoc,Position.atOffset_append,Option.some.injEq] at hp
      rw [Position.atOffset_append,Option.some.injEq] at hq
      exact hp ▸ hq ▸ Position.order_lt_after_append cs hne
    refine ⟨hlt hm hn hp hq, fun h => ?_⟩
    rcases Nat.lt_trichotomy m n with hmn | rfl | hnm
    · exact hmn
    · cases hp.symm.trans hq
      exact absurd h (lt_irrefl _)
    · exact absurd h (hlt hn hm hq hp hnm).asymm
  · rw [Position.atOffset,Position.atOffset,beforeOffset_of_le hn,beforeOffset_of_le le_rfl]

/-- An offset on the second of three lines, behind a character of two bytes. -/
theorem atOffset_marks_second_line :
    Boundary "é\nü x\n".toList 5 ∧ Position.atOffset "é\nü x\n".toList 5 = some ⟨2, 3⟩ ∧
      Position.Marks ⟨2, 3⟩ "é\nü x\n".toList 5 := by
  have hboundary : Boundary "é\nü x\n".toList 5 := ⟨"é\nü".toList, " x\n".toList, by decide, by decide⟩
  have hat : Position.atOffset "é\nü x\n".toList 5 = some ⟨2, 3⟩ := by decide
  obtain ⟨p,hp,-,-,hmarks⟩ := (atOffset_marks _).1 5 hboundary
  cases hat.symm.trans hp
  exact ⟨hboundary, hat, hmarks⟩

end Polled
