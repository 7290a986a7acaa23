import Polled.Proofs.Performing

/-!
Names that an expression spares.

A value that is given away for good takes every name of its register with it. All other names that do not
occur in the expression keep their registers (`Expr.spares`).
-/

namespace Polled

open Lower List

variable {lent : Bool}

mutual
/-- The variables whose values an expression gives away for good. -/
def Expr.moves (table : SignatureTable) : Expr → List String
  | .tuple _ items => movesOfExprs table items
  | .call _ callee args =>
    (table.lookup? callee.node).elim [] fun sig => movesOfArgs table sig.params args
  | .compare _ _ lhs rhs => lhs.moves table ++ rhs.moves table
  | _ => []

def movesOfExprs (table : SignatureTable) : List Expr → List String
  | [] => []
  | e :: es => e.moves table ++ movesOfExprs table es

def movesOfArgs (table : SignatureTable) : List (String × Kind) → List Arg → List String
  | (_, kind) :: params, .thread x :: args =>
    (if kind.borrowed then [] else [x.node]) ++ movesOfArgs table params args
  | (_, kind) :: params, .value e :: args =>
    e.moves table ++ (if kind.borrowed then [] else e.handed) ++ movesOfArgs table params args
  | _, _ => []
end

namespace Draft

variable {d e d' : Draft} {names names' moved moved' all : List String} {x : String} {r t : Register}

/-- The register is none of those of the variables `moved`. -/
def Clear (d : Draft) (moved : List String) (t : Register) : Prop :=
  ∀ y ∈ moved, ∀ u, d.scope.get? y = some u → d.registers.resolve u ≠ d.registers.resolve t

/-- Names that are not among `names` keep registers that are none of those of the variables `moved`. -/
def Spares (d d' : Draft) (names moved : List String) : Prop :=
  ∀ x t, x ∉ names → d.scope.get? x = some t → d.Clear moved t → d'.scope.get? x = some t

/-- A name stands for what it stood for, or for something new. -/
structure Alters (d e : Draft) : Prop where
  resolve_eq : e.registers.resolve = d.registers.resolve
  size_le : d.registers.size ≤ e.registers.size
  names : ∀ x r, e.scope.get? x = some r → ∃ t, d.scope.get? x = some t ∧ (r = t ∨ d.registers.size ≤ r)

theorem Alters.bound (h : d.Alters e) (hx : ∃ r, e.scope.get? x = some r) :
    ∃ t, d.scope.get? x = some t := by
  obtain ⟨r,hr⟩ := hx
  obtain ⟨t,ht,-⟩ := h.names x r hr
  exact ⟨t, ht⟩

theorem Alters.trans (h : d.Alters e) (h' : e.Alters d') : d.Alters d' where
  resolve_eq := h'.resolve_eq.trans h.resolve_eq
  size_le := h.size_le.trans h'.size_le
  names x r hx := by
    obtain ⟨t,ht,hrt⟩ := h'.names x r hx
    obtain ⟨u,hu,htu⟩ := h.names x t ht
    refine ⟨u, hu, ?_⟩
    rcases hrt with rfl | hge
    · exact htu
    · exact .inr (h.size_le.trans hge)

theorem resolve_ne_of_size_le (hd : d.Valid) (hx : d.scope.get? x = some t) (hr : d.size ≤ r) :
    d.registers.resolve r ≠ d.registers.resolve t := by
  have hlt : d.registers.resolve t < d.size := hd.sound.wf.root_lt (hd.sound.lt_of_scope hx)
  rw [d.registers.resolve_of_size_le hr]
  exact fun heq => not_lt.2 hr (heq ▸ hlt)

theorem Clear.mono (h : d.Clear moved t) (hsub : moved' ⊆ moved) : d.Clear moved' t :=
  fun y hy => h y (hsub hy)

theorem Clear.alters (h : d.Clear moved t) (hd : d.Valid) (halters : d.Alters e)
    (hx : d.scope.get? x = some t) :
    e.Clear moved t := by
  intro y hy u hu
  rw [halters.resolve_eq]
  obtain ⟨v,hv,rfl | hge⟩ := halters.names y u hu
  · exact h y hy u hv
  · exact resolve_ne_of_size_le hd hx hge

theorem Spares.trans (h : d.Spares e names moved) (h' : e.Spares d' names' moved') (hd : d.Valid)
    (halters : d.Alters e) :
    d.Spares d' (names ++ names') (moved ++ moved') := by
  intro x t hx hxt hclear
  rw [mem_append,not_or] at hx
  have hxt' := h x t hx.1 hxt (hclear.mono (subset_append_left _ _))
  exact h' x t hx.2 hxt' ((hclear.mono (subset_append_right _ _)).alters hd halters hxt)

theorem Spares.of_scope (hscope : d'.scope = d.scope) : d.Spares d' names moved :=
  fun _ _ _ hxt _ => hscope ▸ hxt

section

variable (hd : d.Valid) (hd' : d' = if lent then d else d.handOver r)

include hd hd'

theorem get?_passed (hx : d.scope.get? x = some t)
    (hne : lent = false → d.registers.resolve r ≠ d.registers.resolve t) : d'.scope.get? x = some t := by
  subst hd'
  cases lent with
  | true => exact hx
  | false => exact (hd.sorted.get?_forget _ r x t).2 ⟨hx, fun heq => hne rfl (by simpa using heq.symm)⟩

theorem Alters.passed : d.Alters d' := by
  have hrenews := Renews.pass hd hd'
  refine ⟨hrenews.resolve_eq, hrenews.size_le, fun x u hx => ⟨u, ?_, .inl rfl⟩⟩
  exact (hrenews.names x u hx).resolve_right fun hnew => not_mem_nil hnew.1

end

theorem Spares.passed {given : List String} (h : d.Spares e names moved) (hd : d.Valid) (he : e.Valid)
    (halters : d.Alters e) (hd' : d' = if lent then e else e.handOver r)
    (hr : d.size ≤ r ∨ ∃ y ∈ given, d.scope.get? y = some r) :
    d.Spares d' names (moved ++ if lent then [] else given) := by
  intro x t hx hxt hclear
  refine get?_passed he hd' (h x t hx hxt (hclear.mono (subset_append_left _ _))) fun hlent => ?_
  rw [halters.resolve_eq]
  rcases hr with hge | ⟨y,hy,hyr⟩
  · exact resolve_ne_of_size_le hd hxt hge
  · exact hclear y (mem_append_right _ (by simpa [hlent] using hy)) r hyr

end Draft

open Draft

section

variable {f : Frame} {p : Phrase} {d d' : Draft} {rs : List Register}

theorem Phrase.Lowers.alters (h : Lowers f p d rs d') (hd : d.Valid) : d.Alters d' := by
  have hstraight := h.straight f.table.callees_cover hd
  obtain ⟨hrenews,-⟩ := h.renews hd
  refine ⟨hrenews.resolve_eq, hrenews.size_le, fun x r hx => ?_⟩
  obtain ⟨t,ht,-,hrt⟩ : ∃ t, d.scope.get? x = some t ∧ d'.registers.kind r = d.registers.kind t ∧
      (r = t ∨ d.size ≤ r) := by
    cases p with
    | value | items | arg =>
      obtain ⟨ops,hops⟩ := hstraight.1
      exact hops.quiet.keeps x r hx
    | args =>
      obtain ⟨_,hops⟩ := hstraight.straight
      exact hops.quiet.keeps x r hx
  exact ⟨t, ht, hrt⟩

def Phrase.moves (table : SignatureTable) : Phrase → List String
  | .value e | .arg (.value e) _ => e.moves table
  | .items es => movesOfExprs table es
  | .arg (.thread _) _ => []
  | .args params as _ => movesOfArgs table params as

def Phrase.handed : Phrase → List String
  | .value e => e.handed
  | .items es => handedOfExprs es
  | .arg a _ => a.handed
  | .args _ as _ => as.flatMap Arg.handed

theorem mem_namesOfArgs {args : List Arg} {y : Located String} (h : .thread y ∈ args) :
    y.node ∈ namesOfArgs args := by
  induction args with
  | nil => cases h
  | cons arg args ih => cases arg <;> grind [namesOfArgs]

theorem Phrase.Lowers.spares (h : Lowers f p d rs d') (hd : d.Valid) :
    (∀ x ∈ p.names, ∃ t, d.scope.get? x = some t) ∧ d.Spares d' p.names (p.moves f.table) ∧
      ∀ r, rs = [r] → d.size ≤ r ∨ ∃ y ∈ p.handed, d.scope.get? y = some r := by
  induction h with
  | @name _ x _ t hx | @thread x _ t hx =>
    refine ⟨fun y hy => ⟨t, ?_⟩, .of_scope rfl, fun r hr => .inr ⟨_, mem_singleton_self _, ?_⟩⟩
    · rwa [mem_singleton.1 hy]
    · rwa [← singleton_inj.1 hr]
  | truth | integer | text =>
    exact ⟨fun _ hx => absurd hx not_mem_nil, .of_scope rfl, fun r hr => .inl (singleton_inj.1 hr).le⟩
  | tuple _ ih | pass _ ih => exact ih hd
  | @call _ _ _ _ passed _ _ _ _ hlookup hargs hcall ih =>
    obtain ⟨hbound,hspares,-⟩ := ih hd
    have hvalid := (hargs.spec hd).1
    obtain ⟨_,_,_,hat,rfl⟩ := callWith_spec hvalid hcall
    obtain ⟨_,_,_,rfl⟩ := hat.draft
    refine ⟨hbound, fun x t hx hxt hclear => ?_, fun r hr => .inl ?_⟩
    · rw [Phrase.moves,Expr.moves,hlookup] at hclear
      have hxt' := hspares x t hx hxt hclear
      refine get?_of_rebindThreads hat.rebinds hat.valid.sorted ?_ (fun i r _ hr => ?_) hxt'
      · exact fun q hq y k hy heq => hx (heq ▸ mem_namesOfArgs (thread_mem_args hargs.passedAs.1 hq hy))
      · rw [hat.resolve_eq]
        exact (resolve_ne_of_size_le hvalid hxt' (hat.size_le (mem_of_getElem? hr))).symm
    · have hmem := (leftOver_sublist _ passed).subset (hr ▸ mem_singleton_self r)
      exact (hargs.alters hd).size_le.trans (hat.size_le hmem)
  | compare hl hr _ _ ihl ihr =>
    have he := (hl.spec hd).1
    have halters := hl.alters hd
    obtain ⟨hbound,hspares,-⟩ := ihl hd
    obtain ⟨hbound',hspares',-⟩ := ihr he
    refine ⟨fun x hx => ?_, hspares.trans hspares' hd halters, fun r hr' => .inl ?_⟩
    · exact (mem_append.1 hx).elim (hbound x) fun hx => halters.bound (hbound' x hx)
    · rw [← singleton_inj.1 hr']
      exact (halters.trans (hr.alters he)).size_le
  | nil | done => exact ⟨fun _ hx => absurd hx not_mem_nil, .of_scope rfl, by simp⟩
  | cons he hes ih ih' =>
    have halters := he.alters hd
    obtain ⟨hbound,hspares,hhanded⟩ := ih hd
    obtain ⟨hbound',hspares',-⟩ := ih' (he.spec hd).1
    refine ⟨fun x hx => ?_, hspares.trans hspares' hd halters, fun r hr => ?_⟩
    · exact (mem_append.1 hx).elim (hbound x) fun hx => halters.bound (hbound' x hx)
    · obtain ⟨rfl,rfl⟩ := cons.inj hr
      cases hes
      exact hhanded _ rfl
  | @next _ _ arg args thread _ _ _ _ _ r _ harg _ hpass _ ih ih' =>
    have he := (harg.spec hd).1
    have hvalid := (@Draft.passed_spec anyOutline _ _ _ _ he hpass).1
    have halters := (harg.alters hd).trans (.passed he hpass)
    obtain ⟨hbound,hspares,hhanded⟩ := ih hd
    obtain ⟨hbound',hspares',-⟩ := ih' hvalid
    have hboth := (hspares.passed hd he (harg.alters hd) hpass (hhanded r rfl)).trans hspares' hd halters
    refine ⟨fun x hx => ?_, ?_, fun t ht => ?_⟩
    · have hx : x ∈ (Phrase.arg arg thread).names ++ namesOfArgs args := by cases arg <;> exact hx
      exact (mem_append.1 hx).elim (hbound x) fun hx => halters.bound (hbound' x hx)
    · cases arg <;> exact hboth
    · obtain ⟨rfl,rfl⟩ := cons.inj ht
      exact (hhanded _ rfl).imp_right fun ⟨y, hy, hyt⟩ => ⟨y, mem_append_left _ hy, hyt⟩

theorem Expr.alters {e : Expr} (hd : d.Valid) (h : e.lower f d = .ok (rs, d')) : d.Alters d' :=
  (e.lowers h).alters hd

/-- The variables of an expression are there, and others are spared. A single value is new or that of a
variable. -/
theorem Expr.spares (e : Expr) (hd : d.Valid) (h : e.lower f d = .ok (rs, d')) :
    (∀ x ∈ e.names, ∃ t, d.scope.get? x = some t) ∧ d.Spares d' e.names (e.moves f.table) ∧
      ∀ r, rs = [r] → d.size ≤ r ∨ ∃ y ∈ e.handed, d.scope.get? y = some r :=
  (e.lowers h).spares hd

end

end Polled
