import Polled.Proofs.SafeSteps

/-!
Watched lowering never crashes.

A function is lowered under watch just as it is lowered without, whether lowering succeeds or not, and
what comes out is well formed.
-/

namespace Polled

open Lower List

attribute [local simp] Op.mentions Op.reads Op.needs Op.provides Op.frees

variable {span bodySpan condSpan : Span} {flags : List Condition} {w : Watch Unit}
  {l : Lower Unit} {q : Owed}
variable {rs : List Register}

namespace Safe

variable {α : Type} {d : Draft} {o : Owed}

section Beginning

theorem kept_start (params : List (String × Kind)) (log : List Event) :
    (Draft.start params log).Kept .nothing := by
  obtain ⟨hentry,-⟩ := Draft.entry_start params log
  refine ⟨(Draft.valid_start params log).sound.wf, fun r hr => ?_, by simp [Draft.start], .inl rfl,
    by simp [Draft.start], Nat.zero_lt_one, .nil, rfl, by simp [Draft.start]⟩
  obtain ⟨⟨x,t⟩,hx,rfl⟩ := mem_map.1 hr
  exact hentry.bound x t ((hentry.sorted.get?_eq_some_iff x t).2 hx)

theorem stands_start (params : List (String × Kind)) (log : List Event) :
    Forest.Stands ⟨List.range params.length⟩ (Draft.start params log).registers.layout where
  length := by rw [length_range]; exact (Draft.size_start params log).symm
  edge i next hi := by
    obtain rfl : i = next := by
      obtain ⟨_,h⟩ := List.getElem?_eq_some_iff.1 hi
      simpa using h
    exact ⟨le_rfl, rfl, fun _ => (Draft.entry_start params log).1.root i⟩

end Beginning

section Loops

theorem capturesOf (names : List String) :
    Safe d o (.capturesOf names) (Lower.capturesOf names) o fun _ _ => True := by
  refine peek (fun _ => .get) <| peek (fun hd => .lookAll fun r hr => ?_) <| plain fun hd _ _ h => ?_
  · obtain ⟨x,-,hx⟩ := mem_filterMap.1 hr
    exact hd.scope r (Scope.mem_registers_of_get? hx)
  · obtain ⟨-,rfl⟩ := capturesOf_eq_ok h
    exact ⟨rfl, hd, List.Subset.refl _, trivial⟩

theorem closureName (f : Frame) :
    Safe d o (.plain (Lower.closureName f)) (Lower.closureName f) o fun _ _ => True :=
  plain fun hd _ _ h => by
    obtain ⟨_,-,-,-,rfl⟩ := closureName_eq_ok h
    exact ⟨rfl, { hd with }, List.Subset.refl _, trivial⟩

theorem nextRound (params : List (String × Kind)) :
    Safe d o (.nextRound span params) (Lower.nextRound span params) o fun rs e =>
      e = d ∧ ∀ r ∈ rs, r < d.size := by
  induction params with
  | nil => exact .pure _ ⟨rfl, by simp⟩
  | cons p ps ih =>
    exact read.still fun r hr => (kindOf hr).still fun _ _ => (ensure _ _ _).still fun _ _ =>
      ih.still fun rs hrs => .pure _ ⟨rfl, by simpa using ⟨hr, hrs⟩⟩

theorem entryValues (captures : List Capture) :
    Safe d o (.plain (Lower.entryValues span captures)) (Lower.entryValues span captures) o fun rs e =>
      e = d ∧ ∀ r ∈ rs, r < d.size :=
  plain fun hd rs _ h => by
    obtain ⟨hmap,rfl⟩ := entryValues_eq_ok h
    refine ⟨rfl, hd, List.Subset.refl _, rfl, fun r hr => ?_⟩
    obtain ⟨c,-,hc⟩ := mem_map.1 (hmap ▸ mem_map_of_mem (f := some) hr)
    exact hd.scope r (Scope.mem_registers_of_get? hc)

theorem skipLoop {skip : Condition} {hops : List (Capture × Register × Register)}
    (hskip : Opened d.ops skip) (hhops : ∀ t ∈ hops, t.2.1 < d.size ∧ t.2.2 < d.size) :
    Safe d ⟨flags, []⟩ (.skipLoop skip hops) (Lower.skipLoop skip hops) ⟨flags, []⟩ fun _ _ => True := by
  induction hops generalizing d with
  | nil => exact .pure _ trivial
  | cons hop rest ih =>
    obtain ⟨c,_,_⟩ := hop
    obtain ⟨hsource,hdest⟩ := hhops _ mem_cons_self
    refine (pushUnder (q := ⟨flags, []⟩) ⟨.refl _, rfl⟩ hskip ?_).bind fun _ e₁ hp₁ _ => ?_
    · simpa using ⟨hsource, hdest⟩
    refine (release (hp₁.lt hsource)).bind fun _ e₂ hp₂ _ => ?_
    refine (bindName (hp₂.lt (hp₁.lt hdest))).bind fun _ e₃ hp₃ _ => ?_
    have hp := (hp₁.trans hp₂).trans hp₃
    exact ih (hp.opened hskip) fun t ht => (hhops t (mem_cons_of_mem _ ht)).imp hp.lt hp.lt

theorem iteration (f : Frame) {test : Watch Register} {testL : Lower Register} {body : Watch Flow}
    {bodyL : Lower Flow}
    (htest : ∀ d : Draft, Safe d ⟨flags, []⟩ test testL ⟨flags, []⟩ fun r e => r < e.size)
    (hbody : ∀ d : Draft, Safe d ⟨flags, []⟩ body bodyL ⟨flags, []⟩ fun flow _ => flow = .continues) :
    Safe d ⟨flags, []⟩ (.iteration f bodySpan condSpan test body)
      (Lower.iteration f bodySpan condSpan testL bodyL) ⟨flags, []⟩ fun _ _ => True := by
  rw [Watch.iteration,Lower.iteration]
  refine (hbody d).bind fun flow e₁ hp₁ hflow => ?_
  obtain rfl := hflow
  refine (htest e₁).bind fun t e₂ hp₂ ht => (checkTruth ht).bind fun _ e₃ hp₃ _ => ?_
  refine condition.bind fun onContinue e₄ hp₄ hc₄ => condition.bind fun onExit e₅ hp₅ hc₅ => ?_
  obtain rfl := hc₄
  obtain rfl := hc₅
  refine (nextRound f.params).still fun values hvalues => ?_
  refine (collectAtExit hvalues).bind fun garbage e₆ hp₆ hgarbage => ?_
  have ht' := hp₆.lt (hp₅.lt (hp₄.lt (hp₃.lt ht)))
  refine (pushUnder (q := ⟨flags, []⟩) ⟨.swap _ _ _, rfl⟩ (.inl rfl) ?_).bind fun _ e₇ hp₇ hpush => ?_
  · simpa using ht'
  have hopened : ∀ c, c = e₃.count ∨ c = e₄.count → Opened e₇.ops c :=
    fun c hc => .inr ⟨_, hpush ▸ mem_append_right _ mem_cons_self, _, _, _, rfl, hc⟩
  have hexit : ∀ r ∈ values ++ garbage, r < e₇.size := fun r hr =>
    hp₇.lt ((mem_append.1 hr).elim (fun hr => hp₆.lt (hvalues r hr)) (hgarbage r))
  refine (pushUnder (q := ⟨flags, []⟩) ⟨.refl _, rfl⟩ (hopened _ (.inl rfl)) ?_).bind fun _ e₈ hp₈ _ =>
    (pushUnder ⟨.refl _, rfl⟩ (hp₈.opened (hopened _ (.inr rfl))) fun r hr => hp₈.lt (hexit r ?_)).mono
      fun _ _ _ => trivial
  · simpa using hexit
  · simpa using hr

theorem finish {E : Unit → Draft → Prop} (h : Safe d o w l q E) :
    Safe d o (w >>= fun _ => .finish) l q E := by
  have hlooked : ∀ e : Draft, E () e → Safe e q .finish (Pure.pure ()) q E := fun e hE =>
    peek (fun _ => .get) <| of_peeks (fun he => .resolveAll he.wf fun r hr => mem_range.1 hr) hE
  rw [← bind_pure_unit (x := l)]
  exact h.bind fun _ e _ hE => hlooked e hE

theorem separately (params : List (String × Kind))
    (h : Safe (.start params d.log) .nothing w l .nothing fun _ _ => True) :
    Safe d o (.separately params w) (Lower.separately params l) o fun inner _ =>
      inner.Kept .nothing := by
  intro hd t ht
  have hinner := h.finish (kept_start params d.log) _ (stands_start params d.log)
  rw [Lower.separately]
  cases hl : l (.start params d.log) with
  | error halt =>
    rw [hl] at hinner
    simp [Watch.separately,Watch.start,hinner]
  | ok r =>
    obtain ⟨⟨⟩,_⟩ := r
    rw [hl] at hinner
    obtain ⟨⟨hkept,-,-⟩,_,hw,-⟩ := hinner
    refine ⟨⟨hd.relog _, ⟨le_rfl, fun _ _ => rfl, List.Subset.refl _⟩, hkept⟩, t, ?_, ht⟩
    simp [Watch.separately,Watch.start,hw]

theorem enclose {inner : Draft} (f : Frame) (hinner : inner.Kept .nothing) : Safe d o (.plain
      (modify fun d => { d with closures := d.closures ++ inner.routine f :: inner.closures }))
      (modify fun d => { d with closures := d.closures ++ inner.routine f :: inner.closures }) o
        fun _ _ => True :=
  plain fun hd _ _ h => by
    obtain rfl := (modify_eq_ok _ _).1 h
    refine ⟨rfl, hd.enclose fun r hr => ?_, List.Subset.refl _, trivial⟩
    obtain rfl | hr := mem_cons.1 hr
    · exact hinner.wellFormed f
    · exact hinner.closures r hr

theorem loopOver (f : Frame) {names : List String} {test : Frame → Watch Register}
    {testL : Frame → Lower Register} {body : Frame → Watch Flow} {bodyL : Frame → Lower Flow}
    (htest : ∀ (f : Frame) (d : Draft) (flags : List Condition),
      Safe d ⟨flags, []⟩ (test f) (testL f) ⟨flags, []⟩ fun r e => r < e.size)
    (hbody : ∀ (f : Frame) (d : Draft), f.inLoop = true →
      Safe d .nothing (body f) (bodyL f) .nothing fun flow _ => flow = .continues) :
    Safe d ⟨flags, []⟩ (.loopOver f names condSpan bodySpan test body)
      (Lower.loopOver f names condSpan bodySpan testL bodyL) ⟨flags, []⟩ fun _ _ => True := by
  rw [Watch.loopOver,Lower.loopOver]
  refine (capturesOf names).bind fun captures e₁ hp₁ _ => (closureName f).bind fun closure e₂ hp₂ _ => ?_
  refine (allocAll _).bind fun results e₃ hp₃ hresults => ?_
  refine (separately _ (iteration _ (fun d => htest _ d []) fun d => hbody _ d rfl)).bind
    fun inner e₄ hp₄ hinner => ?_
  refine (note _).bind fun _ e₅ hp₅ _ => ?_
  refine (enclose _ hinner).bind fun _ e₆ hp₆ _ => ?_
  refine condition.bind fun start e₇ hp₇ hc₇ => condition.bind fun skip e₈ hp₈ hc₈ => ?_
  obtain rfl := hc₇
  obtain rfl := hc₈
  refine (htest f e₈ _).bind fun t e₉ hp₉ ht => (checkTruth ht).bind fun _ e₁₀ hp₁₀ _ => ?_
  refine (push (q := ⟨flags, []⟩) ⟨.swap _ _ _, rfl⟩ ?_).bind fun _ e₁₁ hp₁₁ hpush => ?_
  · simpa using hp₁₀.lt ht
  have hopened : ∀ c, c = e₆.count ∨ c = e₇.count → Opened e₁₁.ops c :=
    fun c hc => .inr ⟨_, hpush.1 ▸ mem_append_right _ mem_cons_self, _, _, _, rfl, hc⟩
  refine (entryValues captures).still fun sources hsources => ?_
  refine (newChild closure).bind fun slot e₁₂ hp₁₂ hslot => ?_
  obtain rfl := hslot
  refine (doneFlag results).bind fun done e₁₃ hp₁₃ hdone => ?_
  rw [← hdone.1]
  have hp := ((((((hp₄.trans hp₅).trans hp₆).trans hp₇).trans hp₈).trans hp₉).trans hp₁₀).trans hp₁₁
  have hp' := hp₁₂.trans hp₁₃
  have hfirst : ∀ r ∈ sources ++ results, r < e₁₃.size := fun r hr =>
    hp'.lt ((mem_append.1 hr).elim (hsources r) fun hr => hp.lt (hresults r hr))
  refine (pushUnder (q := ⟨flags, []⟩) ⟨.refl _, rfl⟩ (hp'.opened (hopened _ (.inl rfl))) ?_).bind
    fun _ e₁₄ hp₁₄ _ => ?_
  · simpa using hfirst
  refine skipLoop ((hp'.trans hp₁₄).opened (hopened _ (.inr rfl))) fun t ht => ?_
  have hzip := (of_mem_zip ht).2
  exact ⟨hp₁₄.lt (hfirst _ (mem_append_left _ (of_mem_zip hzip).1)),
    hp₁₄.lt (hfirst _ (mem_append_right _ (of_mem_zip hzip).2))⟩

end Loops

section Exits

theorem checkReturns {position : Nat} {ks : List Kind} (hrs : ∀ r ∈ rs, r < d.size) :
    Safe d o (.checkReturns span position rs ks) (Polled.checkReturns span position rs ks) o
      fun _ e => e = d := by
  induction rs generalizing position ks with
  | nil => exact .pure () rfl
  | cons r rs ih =>
    cases ks with
    | nil => exact .pure () rfl
    | cons k ks =>
      exact (kindOf (hrs r mem_cons_self)).still fun _ _ => (ensure _ _ _).still fun _ _ =>
        ih fun t ht => hrs t (mem_cons_of_mem _ ht)

theorem checkReturnedOnce {seen : List Register} (hrs : ∀ r ∈ rs, r < d.size) :
    Safe d o (.checkReturnedOnce span seen rs) (Polled.checkReturnedOnce span seen rs) o
      fun _ e => e = d := by
  induction rs generalizing seen with
  | nil => exact .pure () rfl
  | cons r rs ih =>
    have hr := hrs r mem_cons_self
    have hrest : ∀ t ∈ rs, t < d.size := fun t ht => hrs t (mem_cons_of_mem _ ht)
    rw [Watch.checkReturnedOnce,Polled.checkReturnedOnce]
    refine get_right ?_
    refine peek (b := d.registers.kind r) (fun _ => .bind (.look hr) fun t ht => ⟨t, rfl, ht⟩) ?_
    refine ite (fun _ => ?_) fun _ => ih hrest
    refine peek (fun hd => .resolve hd.wf hr) (ite (fun _ => ?_) fun _ => ih hrest)
    exact refuse_bind _ _ _ _

theorem leave (f : Frame) (span : Span) {values : List Register} (hvalues : ∀ r ∈ values, r < d.size) :
    Safe d ⟨flags, []⟩ (do
        if values.length ≠ f.returnKinds.length then
          Watch.plain (Lower.refuse (.returnCount f.name f.returnKinds.length values.length) span)
        Watch.checkReturns span 1 values f.returnKinds
        Watch.checkReturnedOnce span [] values
        let garbage ← Watch.collectAtExit values
        Watch.plain (Lower.push (.ret values garbage))
        return Flow.returns)
      (do
        if values.length ≠ f.returnKinds.length then
          Lower.refuse (.returnCount f.name f.returnKinds.length values.length) span
        Polled.checkReturns span 1 values f.returnKinds
        Polled.checkReturnedOnce span [] values
        let garbage ← Lower.collectAtExit values
        Lower.push (.ret values garbage)
        return Flow.returns) ⟨flags, []⟩ fun _ _ => True := by
  refine ite (fun _ => refuse_bind _ _ _ _) fun _ => (checkReturns hvalues).bind fun _ e _ he => ?_
  obtain rfl := he
  refine (checkReturnedOnce hvalues).bind fun _ e _ he => ?_
  obtain rfl := he
  refine (collectAtExit hvalues).bind fun garbage e hp hgarbage => ?_
  refine (push (q := ⟨flags, []⟩) ⟨.refl _, rfl⟩ ?_).bind fun _ _ _ _ => .pure _ trivial
  have hlt : ∀ r ∈ values ++ garbage, r < e.size := fun r hr =>
    (mem_append.1 hr).elim (fun hr => hp.lt (hvalues r hr)) (hgarbage r)
  simpa using hlt

theorem lowerExit (f : Frame) (span : Span) (value : Option Expr) :
    Safe d ⟨flags, []⟩ (.lowerExit f span value) (Polled.lowerExit f span value) ⟨flags, []⟩
      fun _ _ => True := by
  rw [Watch.lowerExit,Polled.lowerExit]
  refine ite (fun _ => refuse_bind _ _ _ _) fun _ => ?_
  cases value with
  | none => exact leave f span (by simp)
  | some e => exact (e.safe f).bind fun values e' _ hvalues => leave f span hvalues

theorem lowerTest (f : Frame) (place : ValueUse) (cond : Expr) :
    Safe d ⟨flags, []⟩ (.lowerTest f place cond) (Polled.lowerTest f place cond) ⟨flags, []⟩
      fun r e => r < e.size :=
  single (cond.safe f)

theorem placing (span : Span) {w : Watch α} {l : Lower α} {E : α → Draft → Prop} (h : Safe d o w l q E) :
    Safe d o (.placing span w) (Lower.placing span l) q E := by
  intro hd t ht
  have hstep := h hd t ht
  cases hl : l d with
  | error halt =>
    rw [hl] at hstep
    simp [Watch.placing,Lower.placing,hl,hstep]
  | ok r =>
    obtain ⟨a,e⟩ := r
    rw [hl] at hstep
    obtain ⟨hleft,t',hw,ht'⟩ := hstep
    simp only [Watch.placing,Lower.placing,hl,hw]
    exact ⟨hleft, t', rfl, ht'⟩

end Exits

end Safe

section Statements

mutual
theorem Stmt.safe (f : Frame) {flags : List Condition} : (s : Stmt) → (d : Draft) →
    Safe d ⟨flags, []⟩ (s.watch f) (s.lower f) ⟨flags, []⟩ fun _ _ => True
  | .bind _ names value, d => by
    rw [Stmt.watch,Stmt.lower]
    refine (value.safe f).bind fun regs e _ hregs => ?_
    refine Safe.ite (fun _ => Safe.refuse_bind _ _ _ _) fun _ => ?_
    exact (Safe.bindNames hregs).bind fun _ _ _ _ => .pure _ trivial
  | .ret span value, d => by
    rw [Stmt.watch,Stmt.lower]
    exact Safe.lowerExit f span value
  | .branch span cond onTrue onFalse, d => by
    rw [Stmt.watch,Stmt.lower]
    refine (Safe.lowerTest f _ cond).bind fun t e _ ht => (Safe.checkTruth ht).bind fun _ e' hp _ => ?_
    exact Safe.branchOn f span (hp.lt ht) (Block.safe f onTrue) (Block.safe f onFalse)
  | .loop _ cond body, d => by
    rw [Stmt.watch,Stmt.lower]
    refine (Safe.loopOver f (fun f d flags => Safe.lowerTest f _ cond) fun f d hloop => ?_).bind
      fun _ _ _ _ => .pure _ trivial
    exact (Block.safe f body d).found.mono fun flow e h => Block.continues_of_inLoop hloop
      body d flow e h.2
  | .run _ e, d => by
    rw [Stmt.watch,Stmt.lower]
    exact (e.safe f).bind fun regs _ _ _ =>
      Safe.ite (fun _ => Safe.refuse_bind _ _ _ _) fun _ => .pure _ trivial

theorem Block.safe (f : Frame) {flags : List Condition} : (b : Block) → (d : Draft) →
    Safe d ⟨flags, []⟩ (b.watch f) (b.lower f) ⟨flags, []⟩ fun _ _ => True
  | ⟨_, stmts⟩, d => by
    rw [Block.watch,Block.lower]
    exact Stmt.safe_all f stmts d

theorem Stmt.safe_all (f : Frame) {flags : List Condition} : (ss : List Stmt) → (d : Draft) →
    Safe d ⟨flags, []⟩ (Stmt.watchAll f ss) (Stmt.lowerAll f ss) ⟨flags, []⟩ fun _ _ => True
  | [], d => by
    rw [Stmt.watchAll,Stmt.lowerAll]
    exact .pure _ trivial
  | [s], d => by
    rw [Stmt.watchAll,Stmt.lowerAll]
    refine ((Stmt.safe f s d).placing s.span).bind fun flow e _ _ => ?_
    cases flow with
    | continues => exact (Safe.sweep f).bind fun _ e' _ _ => Stmt.safe_all f [] e'
    | returns => exact .pure _ trivial
  | s :: next :: rest, d => by
    rw [Stmt.watchAll,Stmt.lowerAll]
    refine ((Stmt.safe f s d).placing s.span).bind fun flow e _ _ => ?_
    cases flow with
    | continues => exact (Safe.sweep f).bind fun _ e' _ _ => Stmt.safe_all f (next :: rest) e'
    | returns => exact Safe.refuse _ _
end

theorem Block.safe_returning (f : Frame) (body : Block) (d : Draft) :
    Safe d .nothing (body.watchReturning f) (body.lowerReturning f) .nothing fun _ _ => True := by
  rw [Block.watchReturning,Block.lowerReturning]
  refine (Block.safe f body d).bind fun flow e _ _ => ?_
  cases flow with
  | returns => exact .pure _ trivial
  | continues => exact Safe.refuse _ _

end Statements

theorem wellFormed_of_lowerFunction {table : SignatureTable} {d : Decl} {body : Block}
    {log : List Event} {l : Lowered} (h : lowerFunction table d body log = .ok l) {r : Routine}
    (hr : r ∈ l.routine :: l.closures) : r.WellFormed := by
  obtain ⟨_,hlower,rfl⟩ := lowerFunction_eq_ok h
  have hsafe := @Block.safe (d.frame table) [] body _ (Safe.kept_start d.typedParams log) _
    (Safe.stands_start d.typedParams log)
  rw [hlower] at hsafe
  obtain ⟨⟨hkept,-,-⟩,-⟩ := hsafe
  obtain rfl | hr := mem_cons.1 hr
  · exact Draft.Kept.wellFormed hkept (d.frame table)
  · exact hkept.closures r hr

/-- Whatever is to be lowered, nothing crashes: under watch a function becomes what it becomes without,
or is refused with the same report. Its routine and the closures of its loops are well formed. -/
theorem lowers_unfailing (table : SignatureTable) (d : Decl) (body : Block) (log : List Event) :
    watchFunction table d body log = (lowerFunction table d body log).mapError .halt ∧
      ∀ lowered, lowerFunction table d body log = .ok lowered →
        ∀ r ∈ lowered.routine :: lowered.closures, r.WellFormed := by
  refine ⟨?_, fun lowered h r hr => wellFormed_of_lowerFunction h hr⟩
  have hsafe := (Block.safe_returning (d.frame table) body (.start d.typedParams log)).finish
    (Safe.kept_start d.typedParams log) _ (Safe.stands_start d.typedParams log)
  cases hl : body.lowerReturning (d.frame table) (.start d.typedParams log) with
  | error halt =>
    rw [hl] at hsafe
    simp only [Decl.frame] at hl hsafe
    simp [watchFunction,lowerFunction,Watch.start,hl,hsafe,Except.mapError]
  | ok r =>
    obtain ⟨⟨⟩,_⟩ := r
    rw [hl] at hsafe
    obtain ⟨-,t,hw,-⟩ := hsafe
    simp only [Decl.frame] at hl hw
    simp [watchFunction,lowerFunction,Watch.start,hl,hw,Except.mapError]

theorem refill_unfailing : watchFunction refillTable refill refillBody [] = .ok refilled ∧
    ∀ r ∈ refilled.routine :: refilled.closures, r.WellFormed := by
  obtain ⟨hwatch,hformed⟩ := lowers_unfailing refillTable refill refillBody []
  rw [lowerFunction_refill] at hwatch
  exact ⟨hwatch, hformed refilled lowerFunction_refill⟩

end Polled
