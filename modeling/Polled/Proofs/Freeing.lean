import Polled.Proofs.Routes

/-!
Reading what has been freed.

A release waits for its value, not for those who still read it. A reader stands before the release, so it
is safe if it fires in the first poll, that is, if it waits for no call.
-/

namespace Polled

open Lower List

variable {f : Firing} {mixed : Prop} {before : List (GuardedOp × Nat)}

namespace Routine

variable (r : Routine) (o : Outcomes)

/-- Once a slot has been freed nothing reads it, and no call that was given it is under way. -/
def SparesFreed (fired : List Firing) : Prop :=
  ∀ before f after c g done, fired = before ++ f :: after → r.ops[f.position]? = some ⟨c, .free g done⟩ →
    (∀ f' ∈ after, ∀ h, r.ops[f'.position]? = some h → r.slot g ∉ h.op.reads.map r.slot) ∧
      ∀ k ∈ f.children, ∀ h, r.ops[k]? = some h → r.slot g ∉ h.op.reads.map r.slot

def CallsAt (k : Nat) : Prop := ∃ g, r.ops[k]? = some g ∧ g.op.startsChild = true

/-- If the operation can fire at all, it can before any call has come back. -/
def Prompt (g : GuardedOp) : Prop :=
  g.op.startsChild = false ∧
    ((∃ s, r.Reaches o s ∧ ∀ w ∈ r.waits g, s.Has w) → ∀ w ∈ r.waits g, r.Comes o r.CallsAt w)

def ReadsPromptly : Prop :=
  ∀ (i j : Nat) (g h : GuardedOp) (x : Register) (done : Condition), r.ops[i]? = some g →
    g.op = .free x done →
    r.ops[j]? = some h → j ≠ i → r.slot x ∈ h.op.reads.map r.slot → r.Raised o g.condition →
      r.Raised o h.condition →
    r.Prompt o h

def EndsPromptly : Prop :=
  ∀ (j : Nat) (h : GuardedOp), r.ops[j]? = some h → h.op.endsActivation = true → r.Prompt o h

def Fires (s : Stage) (f : Firing) : Prop :=
  ∃ s' g, r.Reaches o s' ∧ (∀ q, s.Has q → s'.Has q) ∧ r.Enabled s' f.position g ∧
    f.children = s'.children

/-- What a pass over operations has come to. -/
structure Passed (s : Stage) (rest : List (GuardedOp × Nat)) (fired : List Firing)
    (out : Option Stage) : Prop where
  positions : (fired.map (·.position)).Sublist (rest.map (·.2))
  fires : ∀ f ∈ fired, r.Fires o s f
  reached : ∀ s', out = some s' → r.Reaches o s' ∧ (∀ q, s.Has q → s'.Has q) ∧
    ∀ f ∈ fired, ∀ g, r.ops[f.position]? = some g → g.op.endsActivation = false ∧
      (g.op.startsChild = false → ∀ q ∈ r.yields o f.position g.op, s'.Has q)

variable {r o} {s s' : Stage} {i : Nat} {g : GuardedOp} {rest : List (GuardedOp × Nat)}
  {fired : List Firing}

theorem Fires.mono (h : r.Fires o s' f) (hs : ∀ q, s.Has q → s'.Has q) : r.Fires o s f := by
  obtain ⟨t,g,hreached,hkeeps,hrest⟩ := h
  exact ⟨t, g, hreached, fun q hq => hkeeps q (hs q hq), hrest⟩

theorem Enabled.fires (h : r.Enabled s i g) (hs : r.Reaches o s) : r.Fires o s ⟨i, s.children⟩ :=
  ⟨s, g, hs, fun _ hq => hq, h, rfl⟩

theorem has_launch {q : Fact} (h : s.Has q) : (r.launch o s i g.op).Has q := by
  unfold launch
  split
  · exact h
  · exact has_complete.2 (.inr h)

theorem pass_spec (hrest : ∀ p ∈ rest, r.ops[p.2]? = some p.1) (hs : r.Reaches o s) :
    r.Passed o s rest (r.pass o rest s).1 (r.pass o rest s).2 := by
  induction rest generalizing s with
  | nil =>
    refine ⟨.slnil, by simp [pass], fun s' heq => ?_⟩
    cases heq
    exact ⟨hs, fun _ hq => hq, by simp [pass]⟩
  | cons p rest ih =>
    obtain ⟨g,i⟩ := p
    have hg : r.ops[i]? = some g := hrest _ mem_cons_self
    have hrest : ∀ p ∈ rest, r.ops[p.2]? = some p.1 := fun p hp => hrest p (mem_cons_of_mem _ hp)
    rw [pass]
    split
    · rename_i hholds
      have henabled : r.Enabled s i g := ⟨hg, hholds⟩
      split
      · refine ⟨singleton_sublist.2 mem_cons_self, fun f hf => ?_, by simp⟩
        rw [mem_singleton.1 hf]
        exact henabled.fires hs
      · rename_i hgoes
        have hgoes : g.op.endsActivation = false := Bool.eq_false_iff.2 hgoes
        have hkeeps : ∀ q, s.Has q → (r.launch o s i g.op).Has q := fun _ => has_launch
        have hlaunched := ih hrest (hs.move (move_iff.2 (.inl ⟨i, g, henabled, hgoes, rfl⟩)))
        refine ⟨hlaunched.positions.cons_cons i, fun f hf => ?_, fun s' heq => ?_⟩
        · rcases mem_cons.1 hf with rfl | hf
          · exact henabled.fires hs
          · exact (hlaunched.fires f hf).mono hkeeps
        · obtain ⟨hreached,hkeeps',hyields⟩ := hlaunched.reached s' heq
          refine ⟨hreached, fun q hq => hkeeps' q (hkeeps q hq), fun f hf h hh => ?_⟩
          rcases mem_cons.1 hf with rfl | hf
          · obtain rfl : g = h := Option.some.inj (hg.symm.trans hh)
            refine ⟨hgoes, fun hchild q hq => hkeeps' q ?_⟩
            rw [launch,if_neg (by simp [hchild])]
            exact has_complete.2 (.inl hq)
          · exact hyields f hf h hh
    · have hpassed := ih hrest hs
      exact ⟨hpassed.positions.cons i, hpassed.fires, hpassed.reached⟩

theorem zipIdx_ops (r : Routine) : ∀ p ∈ r.ops.zipIdx, r.ops[p.2]? = some p.1 :=
  fun _ => mem_zipIdx_iff_getElem?.1

theorem Passed.sorted {out : Option Stage} (h : r.Passed o s r.ops.zipIdx fired out) :
    fired.Pairwise fun f f' => f.position < f'.position := by
  refine pairwise_map.1 (List.Pairwise.sublist h.positions ?_)
  rw [zipIdx_map_snd]
  exact pairwise_lt_range'

theorem Polling.fires (h : r.Polling o s fired) (hs : r.Reaches o s) : ∀ f ∈ fired, r.Fires o s f := by
  induction h with
  | stop s => simp
  | @poll _ s' _ _ h _ ih =>
    have hpassed := pass_spec r.zipIdx_ops hs
    rw [h] at hpassed
    obtain ⟨hreached,hkeeps,-⟩ := hpassed.reached s' rfl
    exact fun f hf => (mem_append.1 hf).elim (hpassed.fires f) fun hf => (ih hreached f hf).mono hkeeps
  | @exit s fired h =>
    have hpassed := pass_spec r.zipIdx_ops hs
    rw [h] at hpassed
    exact hpassed.fires
  | @back _ i g _ hi hg _ ih =>
    have hback := hs.move (move_iff.2 (.inr ⟨i, g, hi, hg, rfl⟩))
    exact fun f hf => (ih hback f hf).mono fun q hq => has_complete.2 (.inr hq)

theorem Polling.once (hordered : r.Ordered mixed) (h : r.Polling o s fired) (hs : r.Reaches o s) :
    fired.Pairwise fun f f' => ∀ g, r.ops[f.position]? = some g → g.op.startsChild = false →
      f.position ≠ f'.position := by
  induction h with
  | stop s => exact .nil
  | @poll _ s' _ _ h hlater ih =>
    have hpassed := pass_spec r.zipIdx_ops hs
    rw [h] at hpassed
    obtain ⟨hreached,-,hyields⟩ := hpassed.reached s' rfl
    refine pairwise_append.2 ⟨hpassed.sorted.imp fun hlt _ _ _ => hlt.ne, ih hreached, ?_⟩
    intro f hf f' hf' g hg hchild heq
    obtain ⟨t,g',-,hkeeps,henabled,-⟩ := hlater.fires hreached f' hf'
    obtain ⟨hgoes,hyields⟩ := hyields f hf g hg
    rw [← heq] at henabled
    obtain rfl : g = g' := Option.some.inj (hg.symm.trans henabled.1)
    exact not_enabled_of_yields (hordered.shape.marks (mem_of_getElem? hg) hgoes)
      (fun q hq => hkeeps q (hyields hchild q hq)) henabled
  | @exit s fired h =>
    have hpassed := pass_spec r.zipIdx_ops hs
    rw [h] at hpassed
    exact hpassed.sorted.imp fun hlt _ _ _ => hlt.ne
  | @back _ i g _ hi hg _ ih => exact ih (hs.move (move_iff.2 (.inr ⟨i, g, hi, hg, rfl⟩)))

/-- The operations that wait for no call have been completed. -/
def Covered (r : Routine) (o : Outcomes) (ps : List (GuardedOp × Nat)) (s : Stage) : Prop :=
  ∀ p ∈ ps, p.1.op.startsChild = false → (∀ x done, p.1.op ≠ .free x done) →
    (∀ w ∈ r.waits p.1, r.Comes o r.CallsAt w) →
    ∀ q ∈ r.yields o p.2 p.1.op, s.Has q

theorem Covered.waits {after : List (GuardedOp × Nat)} (h : Covered r o before s)
    (hordered : r.Ordered mixed) (honce : r.WritesOnce o) (hfeeds : r.Feeds)
    (hinitial : ∀ q, r.Initial q → s.Has q) (hroute : r.route o = before ++ (g, i) :: after)
    (hfree : ∀ x done, g.op ≠ .free x done) (hwaits : ∀ w ∈ r.waits g, r.Comes o r.CallsAt w) :
    ∀ w ∈ r.waits g, s.Has w := by
  intro w hw
  rcases source_of_route hfeeds hroute hfree hw with hq | ⟨⟨k,j⟩,hp,hfree',hq⟩
  · exact hinitial w hq
  · cases hwaits w hw with
    | initial hq => exact hinitial w hq
    | @step _ j' k' hk' hcall hwaits' hq' =>
      obtain ⟨_,_,rfl⟩ := append_of_mem hp
      rw [append_assoc,cons_append] at hroute
      have hk : r.ops[j]? = some k := getElem?_of_route (hroute ▸ mem_append_right _ mem_cons_self)
      have hopen := raised_of_comes hordered honce (route_comes hfeeds hroute hfree')
      have hopen' := raised_of_comes hordered honce hwaits'
      -- slots and flags each have one source
      have hsame : j = j' := by
        cases w with
        | ready x =>
          exact honce.single j j' k k' x hk hk' hopen hopen' (ready_mem_yields.1 hq)
            (ready_mem_yields.1 hq')
        | raised c =>
          exact position_eq hordered.fresh.nodup hk hk' (Op.raises_subset _ _ (raised_mem_yields.1 hq))
            (Op.raises_subset _ _ (raised_mem_yields.1 hq'))
      subst hsame
      obtain rfl : k = k' := Option.some.inj (hk.symm.trans hk')
      have hchild : k.op.startsChild = false := Bool.eq_false_iff.2 fun hchild => hcall ⟨k, hk, hchild⟩
      exact h (k, j) hp hchild hfree' hwaits' w hq

theorem Covered.mono {ps : List (GuardedOp × Nat)} (h : Covered r o ps s)
    (hs : ∀ q, s.Has q → s'.Has q) :
    Covered r o ps s' := fun p hp hchild hfree hwaits q hq => hs q (h p hp hchild hfree hwaits q hq)

theorem pass_cons (hg : r.ops[i]? = some g) (hs : r.Reaches o s) :
    (g.op.endsActivation = true ∧ r.pass o ((g, i) :: rest) s = ([⟨i, s.children⟩], none)) ∨
      ∃ s₁, r.Reaches o s₁ ∧ (∀ q, s.Has q → s₁.Has q) ∧
        (r.Enabled s i g → g.op.endsActivation = false ∧ s₁ = r.launch o s i g.op) ∧
        (r.pass o ((g, i) :: rest) s).2 = (r.pass o rest s₁).2 ∧
        ∀ f ∈ (r.pass o ((g, i) :: rest) s).1, f.position = i ∨ f ∈ (r.pass o rest s₁).1 := by
  rw [pass]
  split
  · rename_i hholds
    split
    · rename_i hexit
      exact .inl ⟨hexit, rfl⟩
    · rename_i hgoes
      have hgoes : g.op.endsActivation = false := Bool.eq_false_iff.2 hgoes
      refine .inr ⟨_, hs.move (move_iff.2 (.inl ⟨i, g, ⟨hg, hholds⟩, hgoes, rfl⟩)), fun _ => has_launch,
        fun _ => ⟨hgoes, rfl⟩, rfl, fun f hf => ?_⟩
      exact (mem_cons.1 hf).imp_left (congrArg Firing.position)
  · rename_i hholds
    exact .inr ⟨s, hs, fun _ hq => hq, fun henabled => absurd henabled.2 hholds, rfl,
      fun f hf => .inr hf⟩

section

variable (hordered : r.Ordered mixed) (honce : r.WritesOnce o) (hfeeds : r.Feeds)

include hordered honce hfeeds

/-- The first pass completes all on the route that waits for no call, and ends at the exit if that is
among them. -/
theorem pass_route {chosen : List Condition} (hrest : ∀ p ∈ rest, r.ops[p.2]? = some p.1)
    (hsorted : rest.Pairwise fun p q => p.2 < q.2) (hroute : r.route o = before ++ follow o rest chosen)
    (hs : r.Reaches o s) (hinitial : ∀ q, r.Initial q → s.Has q) (hcovered : Covered r o before s) :
    (∀ s', (r.pass o rest s).2 = some s' → Covered r o (r.route o) s') ∧
      ∀ e ∈ follow o rest chosen, e.1.op.endsActivation = true →
        (∀ w ∈ r.waits e.1, r.Comes o r.CallsAt w) → (r.pass o rest s).2 = none ∧
          ∀ f ∈ (r.pass o rest s).1, f.position ≤ e.2 := by
  induction rest generalizing s chosen before with
  | nil =>
    refine ⟨fun s' heq => ?_, by simp [follow]⟩
    cases heq
    rw [hroute,follow,append_nil]
    exact hcovered
  | cons p rest ih =>
    obtain ⟨g,i⟩ := p
    have hg : r.ops[i]? = some g := hrest _ mem_cons_self
    have hrest' : ∀ p ∈ rest, r.ops[p.2]? = some p.1 := fun p hp => hrest p (mem_cons_of_mem _ hp)
    obtain ⟨hlt,hsorted⟩ := pairwise_cons.1 hsorted
    have hfirst : ∀ e ∈ follow o ((g, i) :: rest) chosen, i ≤ e.2 := fun e he => by
      rcases mem_cons.1 (follow_sublist.subset he) with rfl | he
      · exact le_rfl
      · exact (hlt e he).le
    rcases @pass_cons r o s i g rest hg hs with ⟨hexit,hpass⟩ | ⟨s₁,hs₁,hkeeps,hfires,hout,hfired⟩
    · rw [hpass]
      refine ⟨by simp, fun e he _ _ => ⟨rfl, fun f hf => ?_⟩⟩
      rw [mem_singleton.1 hf]
      exact hfirst e he
    · have hinitial' : ∀ q, r.Initial q → s₁.Has q := fun q hq => hkeeps q (hinitial q hq)
      have hreadies : ∀ {after : List (GuardedOp × Nat)}, r.route o = before ++ (g, i) :: after →
          (∀ x done, g.op ≠ .free x done) → (∀ w ∈ r.waits g, r.Comes o r.CallsAt w) →
          ∀ w ∈ r.waits g, s.Has w :=
        hcovered.waits hordered honce hfeeds hinitial
      -- what is left of the route behind this operation
      have hgo : ∀ {chosen' : List Condition} {before' : List (GuardedOp × Nat)},
          r.route o = before' ++ follow o rest chosen' → Covered r o before' s₁ →
          (∀ s', (r.pass o ((g, i) :: rest) s).2 = some s' → Covered r o (r.route o) s') ∧
            ∀ e ∈ follow o rest chosen', e.1.op.endsActivation = true →
            (∀ w ∈ r.waits e.1, r.Comes o r.CallsAt w) →
              (r.pass o ((g, i) :: rest) s).2 = none ∧ ∀ f ∈ (r.pass o ((g, i) :: rest) s).1,
              f.position ≤ e.2 := by
        intro chosen' before' hroute' hcovered'
        obtain ⟨hsome,hnone⟩ := ih hrest' hsorted hroute' hs₁ hinitial' hcovered'
        rw [hout]
        refine ⟨hsome, fun e he hexit hwaits => ?_⟩
        obtain ⟨hend,hle⟩ := hnone e he hexit hwaits
        refine ⟨hend, fun f hf => ?_⟩
        rcases hfired f hf with heq | hf
        · exact heq ▸ (hlt e (follow_sublist.subset he)).le
        · exact hle f hf
      by_cases hc : g.condition ∈ chosen
      · cases hexit : g.op.endsActivation with
        | true =>
          rw [follow,if_pos hc,if_pos hexit] at hroute ⊢
          refine ⟨fun s' heq p hp hchild hfree hwaits q hq => ?_, fun e he _ hwaits => ?_⟩
          · rw [hroute] at hp
            rcases mem_append.1 hp with hp | hp
            · obtain ⟨-,hkeeps',-⟩ := (pass_spec hrest' hs₁).reached s' (hout ▸ heq)
              exact hkeeps' q (hkeeps q (hcovered p hp hchild hfree hwaits q hq))
            · rw [mem_singleton.1 hp] at hq
              exact absurd (goes_of_yields hq) (by simp [hexit])
          · rw [mem_singleton.1 he] at hwaits
            have hready :=
              hreadies hroute (fun x done heq => by simp [heq,Op.endsActivation] at hexit) hwaits
            exact absurd (hfires (enabled_of_exit hg hexit hready)).1 (by simp [hexit])
        | false =>
          rw [follow,if_pos hc,if_neg (by simp [hexit])] at hroute ⊢
          have hnext : Covered r o (before ++ [(g, i)]) s₁ := by
            intro p hp hchild hfree hwaits q hq
            rcases mem_append.1 hp with hp | hp
            · exact hkeeps q (hcovered p hp hchild hfree hwaits q hq)
            · rw [mem_singleton.1 hp] at hchild hfree hwaits hq
              by_cases hall : ∀ q ∈ r.yields o i g.op, s.Has q
              · exact hkeeps q (hall q hq)
              · have henabled := hs.accounted.facts.enabled hs hordered honce hg
                  (hreadies hroute hfree hwaits)
                  fun _ => by simpa using hall
                rw [(hfires henabled).2,launch,if_neg (by simp [hchild])]
                exact has_complete.2 (.inl hq)
          obtain ⟨hsome,hnone⟩ := hgo (hroute.trans (append_cons _ _ _)) hnext
          refine ⟨hsome, fun e he hend => ?_⟩
          rcases mem_cons.1 he with rfl | he
          · rw [hexit] at hend
            cases hend
          · exact hnone e he hend
      · rw [follow,if_neg hc] at hroute ⊢
        exact hgo hroute (hcovered.mono hkeeps)

omit hordered honce hfeeds in
theorem Polling.overtaken (h : r.Polling o s fired) (hs : r.Reaches o s) (hidle : s.children = []) :
    fired.Pairwise (fun f f' => f.position < f'.position ∨
      ∃ s₁, (r.pass o r.ops.zipIdx s).2 = some s₁ ∧ r.Fires o s₁ f') ∧
      ((r.pass o r.ops.zipIdx s).2 = none → ∀ f ∈ fired, f ∈ (r.pass o r.ops.zipIdx s).1) := by
  cases h with
  | stop => exact ⟨.nil, by simp⟩
  | @poll _ s' _ _ hpass hlater =>
    have hpassed := pass_spec r.zipIdx_ops hs
    rw [hpass] at hpassed ⊢
    obtain ⟨hreached,-⟩ := hpassed.reached s' rfl
    have hfires := hlater.fires hreached
    refine ⟨pairwise_append.2
      ⟨hpassed.sorted.imp .inl, ?_, fun f _ f' hf' => .inr ⟨s', rfl, hfires f' hf'⟩⟩, by simp⟩
    exact pairwise_iff_forall_sublist.2 fun hsub => .inr ⟨s', rfl, hfires _ (hsub.subset (by simp))⟩
  | exit hpass =>
    have hpassed := pass_spec r.zipIdx_ops hs
    rw [hpass] at hpassed ⊢
    exact ⟨hpassed.sorted.imp .inl, fun _ f hf => hf⟩
  | back hi =>
    rw [hidle] at hi
    cases hi

theorem first_pass : (∀ s', (r.pass o r.ops.zipIdx (r.opening (List.range r.paramCount))).2 = some s' →
      Covered r o (r.route o) s') ∧ ∀ e ∈ r.route o, e.1.op.endsActivation = true →
        (∀ w ∈ r.waits e.1, r.Comes o r.CallsAt w) →
          (r.pass o r.ops.zipIdx (r.opening (List.range r.paramCount))).2 = none ∧
          ∀ f ∈ (r.pass o r.ops.zipIdx (r.opening (List.range r.paramCount))).1, f.position ≤ e.2 := by
  have hclear := clear_opening r o fun _ => False
  have hsorted : r.ops.zipIdx.Pairwise fun p q => p.2 < q.2 := by
    refine pairwise_map.1 ?_
    rw [zipIdx_map_snd]
    exact pairwise_lt_range'
  exact pass_route hordered honce hfeeds r.zipIdx_ops hsorted (nil_append _).symm hclear.reached
    hclear.initial
    fun p hp => absurd hp not_mem_nil

/-- What fires is on the route, if nothing is open behind exits or they wait for no call. -/
theorem Polling.on_route (hends : r.Ordered False ∨ r.EndsPromptly o)
    (h : r.Polling o (r.opening (List.range r.paramCount)) fired) (hf : f ∈ fired)
    (hg : r.ops[f.position]? = some g) :
    (g, f.position) ∈ r.route o := by
  have hclear := clear_opening r o fun _ => False
  obtain ⟨s,g',hs,-,henabled,-⟩ := h.fires hclear.reached f hf
  obtain rfl : g = g' := Option.some.inj (hg.symm.trans henabled.1)
  have hopen : r.Raised o g.condition := ⟨s, hs, henabled.condition⟩
  rcases open_on_route hordered hg hopen with hon | ⟨⟨e,j⟩,he,hexit,hlt⟩
  · exact hon
  · obtain ⟨_,_,hroute⟩ := append_of_mem he
    have hcomes := route_comes hfeeds hroute fun x done heq => by simp [heq,Op.endsActivation] at hexit
    rcases hends with hplain | hprompt
    · have hpairwise : r.ops.Pairwise (Apart (r.Raised o)) := (hplain.shape.exits hplain.choice).2
      obtain ⟨hj,hej⟩ := List.getElem?_eq_some_iff.1 (getElem?_of_route he)
      obtain ⟨hi,hgi⟩ := List.getElem?_eq_some_iff.1 hg
      have hapart := List.pairwise_iff_getElem.1 hpairwise j f.position hj hi hlt
      rw [hej,hgi] at hapart
      exact absurd hopen (hapart hexit (raised_of_comes hordered honce hcomes))
    · have hwaits := (hprompt j e (getElem?_of_route he) hexit).2 (exists_stage hordered honce hcomes)
      obtain ⟨hnone,hle⟩ := (first_pass hordered honce hfeeds).2 (e, j) he hexit hwaits
      exact absurd (hle f ((h.overtaken hclear.reached rfl).2 hnone f hf)) (Nat.not_le_of_lt hlt)

/-- What waits for no call fires in the first poll or not at all. -/
theorem Polling.in_order (h : r.Polling o (r.opening (List.range r.paramCount)) fired)
    {before after : List Firing} {f' : Firing} (hfired : fired = before ++ f :: after) (hf' : f' ∈ after)
    (hg : r.ops[f'.position]? = some g) (hon : (g, f'.position) ∈ r.route o)
    (hgoes : g.op.endsActivation = false) (hfree : ∀ x done, g.op ≠ .free x done)
    (hprompt : r.Prompt o g) : f.position < f'.position := by
  have hclear := clear_opening r o fun _ => False
  have hpairwise := (h.overtaken hclear.reached rfl).1
  rw [hfired] at hpairwise
  rcases (pairwise_cons.1 (pairwise_append.1 hpairwise).2.1).1 f' hf' with hlt | ⟨s₁,hout,hfires⟩
  · exact hlt
  · obtain ⟨s,g',hs,hkeeps,henabled,-⟩ := hfires
    obtain rfl : g = g' := Option.some.inj (hg.symm.trans henabled.1)
    have hwaits := hprompt.2 ⟨s, hs, (enabled_iff.1 henabled).2.1⟩
    have hyields := (first_pass hordered honce hfeeds).1 s₁ hout _ hon hprompt.1 hfree hwaits
    exact absurd henabled (not_enabled_of_yields (hordered.shape.marks (mem_of_getElem? hg) hgoes)
      fun q hq => hkeeps q (hyields q hq))

end

end Routine

section

variable {table : SignatureTable} {d : Decl} {body : Block} {log : List Event}
  {l : Lowered} {r : Routine}

open Routine

/-- Polls that start with all parameters there spare what has been freed, if slots are written once,
those who read a freed slot wait for no call, and an exit that others stand behind waits for none
either. -/
theorem spares_freed (h : lowerFunction table d body log = .ok l) (hr : r ∈ l.routine :: l.closures)
    (o : Outcomes) (honce : r.WritesOnce o) (hreads : r.ReadsPromptly o)
    (hends : r ∈ l.closures ∨ body.balanced = true ∨ r.EndsPromptly o) {fired : List Firing}
    (hpolls : r.Polling o (r.opening (List.range r.paramCount)) fired) : r.SparesFreed fired := by
  have hordered : r.Ordered True :=
    ordered_of_lowerFunction h ((mem_cons.1 hr).symm.imp_right fun hr => ⟨hr, fun _ => trivial⟩)
  have hfeeds := feeds_of_lowerFunction h hr
  have hends : r.Ordered False ∨ r.EndsPromptly o := by
    rcases hends with hclosure | hbalanced | hprompt
    · exact .inl (ordered_of_lowerFunction h (.inl hclosure))
    · exact .inl (ordered_of_lowerFunction h
        ((mem_cons.1 hr).symm.imp_right fun hr => ⟨hr, by simp [hbalanced]⟩))
    · exact .inr hprompt
  intro before f after c x done hfired hf
  have hfires := hpolls.fires (clear_opening r o fun _ => False).reached
  obtain ⟨s,g,hs,-,henabled,hchildren⟩ := hfires f (by simp [hfired])
  obtain rfl : ⟨c, .free x done⟩ = g := Option.some.inj (hf.symm.trans henabled.1)
  have hopen : r.Raised o c := ⟨s, hs, henabled.condition⟩
  refine ⟨fun f' hf' k hk hread => ?_, fun j hj k hk hread => ?_⟩
  · have hf'' : f' ∈ fired := by simp [hfired,hf']
    have hon := hpolls.on_route hordered honce hfeeds hends (by simp [hfired]) hf
    have hon' := hpolls.on_route hordered honce hfeeds hends hf'' hk
    have hunread := unread_of_lowerFunction h hr (route_mem_paths r o)
    rcases Nat.lt_trichotomy f.position f'.position with hlt | heq | hlt
    · exact route_pairwise hunread hon hon' hlt (r.slot x) (by simp [Op.frees]) hread
    · have hpairwise := hpolls.once hordered (clear_opening r o fun _ => False).reached
      rw [hfired] at hpairwise
      exact (pairwise_cons.1 (pairwise_append.1 hpairwise).2.1).1 f' hf' _ hf rfl heq
    · obtain ⟨t,k',ht,-,henabled',-⟩ := hfires f' hf''
      obtain rfl : k = k' := Option.some.inj (hk.symm.trans henabled'.1)
      have hprompt := hreads f.position f'.position _ k x done hf rfl hk hlt.ne hread hopen
        ⟨t, ht, henabled'.condition⟩
      -- another release of the slot would come before this one
      have hfree : ∀ y done', k.op ≠ .free y done' := by
        intro y done' heq
        refine route_pairwise hunread hon' hon hlt (r.slot x) ?_ (by simp [Op.reads,Op.needs])
        simpa [heq,Op.frees,Op.reads,Op.needs] using hread
      have hgoes : k.op.endsActivation = false :=
        Bool.eq_false_iff.2 fun hexit => Nat.not_le_of_lt hlt (le_of_exit hon' hexit hon)
      exact Nat.lt_asymm hlt (hpolls.in_order hordered honce hfeeds hfired hf' hk hon' hgoes
        hfree hprompt)
  · obtain ⟨k',hk',hchild,hopen'⟩ := hs.accounted.children j (hchildren ▸ hj)
    obtain rfl : k = k' := Option.some.inj (hk.symm.trans hk')
    have hne : j ≠ f.position := by
      rintro rfl
      obtain rfl : k = ⟨c, .free x done⟩ := Option.some.inj (hk.symm.trans hf)
      cases hchild
    have hprompt := hreads f.position j _ k x done hf rfl hk hne hread hopen hopen'
    rw [hprompt.1] at hchild
    cases hchild

end

theorem writesOnce_of_nodup {r : Routine} (o : Outcomes)
    (h : ((List.range r.paramCount).map r.slot ++
      r.ops.flatMap fun g => g.op.provides.map r.slot).Nodup) : r.WritesOnce o := by
  obtain ⟨-,hops,happart⟩ := nodup_append.1 h
  refine ⟨fun k hk i g hg _ hmem => ?_, fun i j g k x hi hj _ _ hx hx' => ?_⟩
  · refine happart _ (mem_map_of_mem (mem_range.2 hk)) _ (mem_flatMap.2 ⟨g, ?_, hmem⟩) rfl
    exact mem_of_getElem? hg
  · exact Routine.position_eq hops hi hj hx hx'

def packTable : SignatureTable where
  entries :=
    [⟨"weigh", "main", false, true, [], [.owned .integer], .nowhere⟩,
      ⟨"seal", "main", true, true, [("s", .lent .string)], [], .nowhere⟩,
      ⟨"label", "main", true, true, [("s", .lent .string), ("n", .lent .integer)], [], .nowhere⟩,
      ⟨"brew", "main", true, true, [], [.owned .string], .nowhere⟩]

/-- `func pack(s: String): Integer` -/
def pack : Decl where
  span := .nowhere
  name := bare "pack"
  isSync := false
  isNative := false
  params := [⟨bare "s", bare (.owned .string)⟩]
  returns := [bare (.owned .integer)]
  body := none

/-- `let n = weigh() seal(s) let s = brew() return n` -/
def sealBody : Block where
  span := .nowhere
  stmts :=
    [.bind .nowhere [bare "n"] (.call .nowhere (bare "weigh") []),
      .run .nowhere (.call .nowhere (bare "seal") [.value (.name .nowhere "s")]),
      .bind .nowhere [bare "s"] (.call .nowhere (bare "brew") []),
      .ret .nowhere (some (.name .nowhere "n"))]

def sealed : Lowered :=
  match lowerFunction packTable pack sealBody [] with
  | .ok l => l
  | .error halt => ⟨.native pack.name.node false [] [], [], halt.log⟩

theorem lowerFunction_seal : lowerFunction packTable pack sealBody [] = .ok sealed := by cbv

theorem ops_seal : sealed.routine.ops =
    [⟨0, .callAsync "weigh" [] [1] 0 none⟩, ⟨0, .callSync "seal" [0] [] (some 1)⟩,
      ⟨0, .callSync "brew" [] [2] none⟩, ⟨0, .free 0 2⟩, ⟨0, .ret [1] [2]⟩] := by decide +kernel

theorem seal_spares_freed : ∃ fired, sealed.routine.Polling (fun _ => true)
      (sealed.routine.opening (List.range sealed.routine.paramCount)) fired ∧
      ⟨3, [0]⟩ ∈ fired ∧ sealed.routine.SparesFreed fired := by
  have hfirst : sealed.routine.pass (fun _ => true) sealed.routine.ops.zipIdx
      (sealed.routine.opening (List.range sealed.routine.paramCount)) =
      ([⟨0, []⟩, ⟨1, [0]⟩, ⟨2, [0]⟩, ⟨3, [0]⟩], some ⟨[2, 0], [2, 1, 0], [0]⟩) := by decide +kernel
  have hsecond : sealed.routine.pass (fun _ => true) sealed.routine.ops.zipIdx
      (sealed.routine.deliver (fun _ => true) ⟨[2, 0], [2, 1, 0], [0]⟩ 0
        (.callAsync "weigh" [] [1] 0 none)) =
      ([⟨4, []⟩], none) := by decide +kernel
  have hpolls := Routine.Polling.poll hfirst
    (.back (g := ⟨0, .callAsync "weigh" [] [1] 0 none⟩) (by decide) (by decide +kernel) (.exit hsecond))
  have hreads : sealed.routine.ReadsPromptly fun _ => true := by
    intro i j g h x done hg hop hh hne hread _ _
    rw [ops_seal] at hg hh
    match i, j with
    | 3, 1 =>
      cases hh
      refine ⟨rfl, fun _ w hw => .initial ?_⟩
      simp only [Routine.waits,mem_cons,Op.needs,map_cons,map_nil,not_mem_nil,or_false] at hw
      rcases hw with rfl | rfl
      · exact .inr rfl
      · exact .inl ⟨0, by decide +kernel, rfl⟩
    | 3, 0 => cases hh; cases hread
    | 3, 2 => cases hh; cases hread
    | 3, 3 => exact absurd rfl hne
    | 3, 4 =>
      cases hg
      cases hop
      cases hh
      exact absurd hread (by decide +kernel)
    | 0, _ => cases hg; cases hop
    | 1, _ => cases hg; cases hop
    | 2, _ => cases hg; cases hop
    | 4, _ => cases hg; cases hop
    | _ + 5, _ => cases hg
    | _, _ + 5 => cases hh
  exact ⟨_, hpolls, by decide, spares_freed lowerFunction_seal mem_cons_self _
    (writesOnce_of_nodup _ (by decide +kernel)) hreads (.inr (.inl (by decide))) hpolls⟩

/-- `let n = weigh() label(s, n) let s = brew() return n` -/
def packBody : Block where
  span := .nowhere
  stmts :=
    [.bind .nowhere [bare "n"] (.call .nowhere (bare "weigh") []),
      .run .nowhere
      (.call .nowhere (bare "label") [.value (.name .nowhere "s"), .value (.name .nowhere "n")]),
      .bind .nowhere [bare "s"] (.call .nowhere (bare "brew") []),
      .ret .nowhere (some (.name .nowhere "n"))]

def packed : Lowered :=
  match lowerFunction packTable pack packBody [] with
  | .ok l => l
  | .error halt => ⟨.native pack.name.node false [] [], [], halt.log⟩

theorem lowerFunction_pack : lowerFunction packTable pack packBody [] = .ok packed := by cbv

/-- A reader that waits for a call comes too late. -/
theorem freed_too_early : ¬∀ table d body log l, lowerFunction table d body log = .ok l →
    ∀ r ∈ l.routine :: l.closures, ∀ o fired, r.Polling o (r.opening (List.range r.paramCount)) fired →
      r.SparesFreed fired := by
  intro hall
  have hfirst : packed.routine.pass (fun _ => true) packed.routine.ops.zipIdx
      (packed.routine.opening (List.range packed.routine.paramCount)) =
      ([⟨0, []⟩, ⟨2, [0]⟩, ⟨3, [0]⟩], some ⟨[2, 0], [2, 0], [0]⟩) := by decide +kernel
  have hsecond : packed.routine.pass (fun _ => true) packed.routine.ops.zipIdx
      (packed.routine.deliver (fun _ => true) ⟨[2, 0], [2, 0], [0]⟩ 0
        (.callAsync "weigh" [] [1] 0 none)) =
      ([⟨1, []⟩, ⟨4, []⟩], none) := by decide +kernel
  have hpolls := Routine.Polling.poll hfirst
    (.back (g := ⟨0, .callAsync "weigh" [] [1] 0 none⟩) (by decide) (by decide +kernel) (.exit hsecond))
  have hlater := (hall _ _ _ _ _ lowerFunction_pack _ mem_cons_self _ _ hpolls
    [⟨0, []⟩, ⟨2, [0]⟩] _ _ 0 0 2 rfl
    (by decide +kernel)).1 ⟨1, []⟩ mem_cons_self ⟨0, .callSync "label" [0, 1] [] (some 1)⟩
      (by decide +kernel)
  exact hlater (by decide +kernel)

end Polled
