import Polled.Kind

/-!
Conversion of kinds.

Owned values may be lent at every depth of a kind, and nothing else changes. Of two kinds that clash,
ownership is blamed only where the outermost layers differ in nothing else.
-/

namespace Polled.Kind

mutual
theorem fits_self : (k : Kind) → fits k k = true
  | ⟨b, _, ks⟩ => by
    have hks := fitsAll_self ks
    cases b <;> simp [fits,hks]

theorem fitsAll_self : (ks : List Kind) → fitsAll ks ks = true
  | [] => rfl
  | k :: ks => by rw [fitsAll,fits_self k,fitsAll_self ks,Bool.and_self]
end

mutual
theorem fits_trans : (k l m : Kind) → fits k l = true → fits l m = true → fits k m = true
  | ⟨b, f, ks⟩, ⟨c, g, ls⟩, ⟨d, h, ms⟩ => by
    simp only [fits,Bool.and_eq_true,decide_eq_true_eq]
    rintro ⟨⟨rfl,hkl⟩,_⟩ ⟨⟨rfl,hlm⟩,_⟩
    refine ⟨⟨rfl, fitsAll_trans ks ls ms hkl hlm⟩, ?_⟩
    cases b <;> cases c <;> simp_all

theorem fitsAll_trans :
    (ks ls ms : List Kind) → fitsAll ks ls = true → fitsAll ls ms = true → fitsAll ks ms = true
  | [], [], ms => fun _ h => h
  | k :: ks, l :: ls, m :: ms => by
    simp only [fitsAll,Bool.and_eq_true]
    exact fun hkl hlm => ⟨fits_trans k l m hkl.1 hlm.1, fitsAll_trans ks ls ms hkl.2 hlm.2⟩
  | [], _ :: _, _ => nofun
  | _ :: _, [], _ => nofun
  | _ :: _, _ :: _, [] => nofun
end

mutual
theorem fits_antisymm : (k l : Kind) → fits k l = true → fits l k = true → k = l
  | ⟨b, f, ks⟩, ⟨c, g, ls⟩ => by
    simp only [fits,Bool.and_eq_true,decide_eq_true_eq]
    rintro ⟨⟨rfl,hkl⟩,_⟩ ⟨⟨-,hlk⟩,_⟩
    rw [fitsAll_antisymm ks ls hkl hlk]
    cases b <;> cases c <;> simp_all

theorem fitsAll_antisymm : (ks ls : List Kind) → fitsAll ks ls = true → fitsAll ls ks = true → ks = ls
  | [], [] => fun _ _ => rfl
  | k :: ks, l :: ls => by
    simp only [fitsAll,Bool.and_eq_true]
    rintro hkl hlk
    rw [fits_antisymm k l hkl.1 hlk.1,fitsAll_antisymm ks ls hkl.2 hlk.2]
  | [], _ :: _ => nofun
  | _ :: _, [] => nofun
end

theorem ownsHeap_of_fits {k l : Kind} (h : fits k l = true) (howns : l.ownsHeap = true) :
    k.ownsHeap = true := by
  obtain ⟨b,f,_⟩ := k
  obtain ⟨c,g,_⟩ := l
  simp only [fits,Bool.and_eq_true,decide_eq_true_eq] at h
  obtain ⟨⟨rfl,-⟩,_⟩ := h
  cases b <;> cases c <;> simp_all [ownsHeap]

theorem convert_eq_borrowedIntoOwned_iff (k target : Kind) :
    k.convert target = .error (.borrowedIntoOwned target k) ↔
    k.borrowed = true ∧ target.borrowed = false ∧
    k.convert { target with borrowed := true } = .ok () := by
  obtain ⟨b,f,ks⟩ := k
  obtain ⟨c,g,ls⟩ := target
  by_cases hf : f = g <;> cases h : fitsAll ks ls <;> cases b <;> cases c <;> simp [convert,hf,h]

theorem convert_cases (k target : Kind) : k.convert target = .ok () ∨
    k.convert target = .error (.borrowedIntoOwned target k) ∨
      k.convert target = .error (.mismatch target k) := by
  unfold convert
  split
  · exact .inr (.inr rfl)
  · split
    · exact .inr (.inl rfl)
    · exact .inl rfl

/-- Conversion is an order on all kinds, and identity of kinds is conversion both ways. What is converted
to an owned value on the heap is one. A refusal names the ownership just if a borrowed value that might
be lent is given away, and all else is a mismatch. -/
theorem convert_order : (∀ k : Kind, k.convert k = .ok ()) ∧
    (∀ k l m : Kind, k.convert l = .ok () → l.convert m = .ok () → k.convert m = .ok ()) ∧
    (∀ k l : Kind, k.convert l = .ok () → l.convert k = .ok () → k = l) ∧
    (∀ k l : Kind, (k.agree l = .ok () ↔ k = l) ∧
      (k = l ↔ k.convert l = .ok () ∧ l.convert k = .ok ())) ∧
    (∀ k l : Kind, k.convert l = .ok () → l.ownsHeap = true → k.ownsHeap = true) ∧
    ∀ k l : Kind,
      (k.convert l = .error (.borrowedIntoOwned l k) ↔
        k.borrowed = true ∧ l.borrowed = false ∧ k.convert { l with borrowed := true } = .ok ()) ∧
      ∀ c, k.convert l = .error c → c = .borrowedIntoOwned l k ∨ c = .mismatch l k := by
  have hrefl (k : Kind) : k.convert k = .ok () := (convert_eq_ok_iff k k).2 (fits_self k)
  have hantisymm (k l : Kind) (hkl : k.convert l = .ok ()) (hlk : l.convert k = .ok ()) : k = l :=
    fits_antisymm k l ((convert_eq_ok_iff k l).1 hkl) ((convert_eq_ok_iff l k).1 hlk)
  refine ⟨hrefl, ?_, hantisymm, fun k l => ⟨agree_eq_ok_iff k l, ?_, fun h => hantisymm k l h.1 h.2⟩,
    ?_, fun k l =>
    ⟨convert_eq_borrowedIntoOwned_iff k l, fun c hc => ?_⟩⟩
  · simp only [convert_eq_ok_iff]
    exact fits_trans
  · rintro rfl
    exact ⟨hrefl k, hrefl k⟩
  · simp only [convert_eq_ok_iff]
    exact fun k l => ownsHeap_of_fits
  · rcases convert_cases k l with h | h | h <;> rw [h] at hc <;> cases hc
    · exact .inl rfl
    · exact .inr rfl

/-- A pair that owns its text, one whose text is borrowed, and a view of it. -/
def pair : Kind := ⟨false, .tuple, [.owned .integer, .owned .string]⟩

def excerpt : Kind := ⟨false, .tuple, [.owned .integer, .lent .string]⟩

def view : Kind := { excerpt with borrowed := true }

theorem pair_convert_order :
    pair.convert excerpt = .ok () ∧ excerpt.convert view = .ok () ∧ pair.convert view = .ok () ∧
    pair.ownsHeap = true ∧ view.convert excerpt = .error (.borrowedIntoOwned excerpt view) ∧
    view.convert pair = .error (.mismatch pair view) := by
  obtain ⟨-,htrans,-,-,howns,hrefused⟩ := convert_order
  have hpair : pair.convert excerpt = .ok () := rfl
  have hview : excerpt.convert view = .ok () := rfl
  exact ⟨hpair, hview, htrans _ _ _ hpair hview, howns _ _ hpair rfl,
    (hrefused _ _).1.2 ⟨rfl, rfl, rfl⟩, rfl⟩

end Polled.Kind
