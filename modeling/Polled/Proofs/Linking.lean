import Polled.CSource
import Polled.Proofs.Roster

/-!
Names of file scope, from the header to the source.

All names are made by putting fixed text around names of the program, so they stay apart unless a name of
the program looks like one that was made (`Program.Clashes`). Whatever the source mentions is declared,
except that the start of the program always asks for a record of the main routine.
-/

namespace Polled

open CSource List

variable {s t : Symbol} {g name : String} {f : Routine} {p : Program}

namespace CSource

/-- What stands behind the common beginning of all names. -/
def Symbol.stem : Symbol → String
  | .record f => f ++ "_state"
  | .maker f => f ++ "_new"
  | .poller f => f ++ "_poll"
  | .native f => f
  | .starter e => "start_" ++ e

theorem Symbol.text_eq (s : Symbol) : s.text = "hang10_" ++ s.stem := by
  cases s with
  | starter e =>
    rw [text,stem,← String.append_assoc]
    rfl
  | native f => rfl
  | _ => simp only [text,stem,String.append_assoc]

theorem Symbol.text_inj : s.text = t.text ↔ s.stem = t.stem := by
  rw [text_eq,text_eq,String.append_right_inj]

def recordSymbols (routine : String) : List Symbol := [.record routine, .maker routine, .poller routine]

end CSource

/-- The names that are declared for a routine. -/
def Routine.symbols (f : Routine) : List Symbol :=
  if f.hasRecord then recordSymbols f.name else [.native f.name]

/-- The names that are declared for a program, one for each thing. -/
def Program.symbols (p : Program) : List Symbol :=
  p.routines.flatMap Routine.symbols ++ [.starter p.entry]

/-- The names that are spelled without anything behind them. -/
def Program.plain (p : Program) : List String := (p.routines.filter fun f => !f.hasRecord).map (·.name)

/-- The names that are made for records. -/
def Program.made (p : Program) : List String :=
  (p.routines.filter Routine.hasRecord).flatMap fun f => (recordSymbols f.name).map Symbol.stem

/-- A routine without a record is called like the start of the program, or one of them like something
that belongs to a record. -/
def Program.Clashes (p : Program) : Prop :=
  "start_" ++ p.entry ∈ p.plain ∨ ∃ n ∈ ("start_" ++ p.entry) :: p.plain, n ∈ p.made

section Spelling

theorem mem_symbols : s ∈ p.symbols ↔ (∃ f ∈ p.routines, f.hasRecord = true ∧ s ∈ recordSymbols f.name) ∨
      (∃ n ∈ p.plain, s = .native n) ∨ s = .starter p.entry := by
  simp only [Program.symbols,Routine.symbols,Program.plain,mem_append,mem_flatMap,mem_map,mem_filter,
    mem_singleton]
  grind

theorem mem_made {n : String} : n ∈ p.made ↔ ∃ s :
    Symbol, (∃ f ∈ p.routines, f.hasRecord = true ∧ s ∈ recordSymbols f.name) ∧ s.stem = n := by
  simp only [Program.made,mem_flatMap,mem_filter,mem_map]
  grind

theorem nodup_symbols (h : (p.routines.map (·.name)).Nodup) : p.symbols.Nodup := by
  have howner : ∀ f : Routine, ∀ s ∈ f.symbols, s ∈ .native f.name :: recordSymbols f.name := by
    intro f s hs
    unfold Routine.symbols at hs
    split at hs <;> grind
  refine nodup_append.2 ⟨nodup_flatMap.2 ⟨fun f _ => ?_, ?_⟩, nodup_singleton _, ?_⟩
  · unfold Routine.symbols
    split <;> simp [recordSymbols]
  · refine (pairwise_map.1 h).imp fun {f g} hne s hf hg => hne ?_
    have hf := howner f s hf
    have hg := howner g s hg
    simp only [recordSymbols,mem_cons,not_mem_nil,or_false] at hf hg
    grind
  · rintro s hs t ht rfl
    obtain ⟨f,-,hf⟩ := mem_flatMap.1 hs
    have hf := howner f s hf
    rw [mem_singleton.1 ht] at hf
    simp [recordSymbols] at hf

theorem append_ne {f a b : String} (h : a.toList.getLast? ≠ b.toList.getLast?) (ha : a.toList ≠ [])
    (hb : b.toList ≠ []) :
    f ++ a ≠ g ++ b := by
  intro heq
  have := congrArg (fun s : String => s.toList.getLast?) heq
  simp only [String.toList_append,getLast?_append_of_ne_nil _ ha,getLast?_append_of_ne_nil _ hb] at this
  exact h this

theorem eq_of_stem_recordSymbols {f : String} (hs : s ∈ recordSymbols f) (ht : t ∈ recordSymbols g)
    (h : s.stem = t.stem) : s = t := by
  simp only [recordSymbols,mem_cons,not_mem_nil,or_false] at hs ht
  rcases hs with rfl | rfl | rfl <;> rcases ht with rfl | rfl | rfl <;> simp only [Symbol.stem] at h <;>
    first
    | rw [(String.append_left_inj _).1 h]
    | exact absurd h (append_ne (by decide) (by decide) (by decide))

/-- The spellings are different unless a name of the program looks like one that was made. -/
theorem nodup_text_iff (h : (p.routines.map (·.name)).Nodup) :
    (p.symbols.map Symbol.text).Nodup ↔ ¬p.Clashes := by
  rw [nodup_map_iff_inj_on (nodup_symbols h)]
  simp only [Symbol.text_inj]
  constructor
  · rintro hinj (hstart | ⟨n,hn,hmade⟩)
    · have heq := hinj (.native _) (mem_symbols.2 (.inr (.inl ⟨_, hstart, rfl⟩))) (.starter p.entry)
        (mem_symbols.2 (.inr (.inr rfl))) rfl
      cases heq
    · obtain ⟨s,hs,rfl⟩ := mem_made.1 hmade
      have hmem := mem_symbols.2 (.inl hs)
      obtain ⟨f,-,-,hs⟩ := hs
      rcases mem_cons.1 hn with heq | hn
      · rw [hinj s hmem (.starter p.entry) (mem_symbols.2 (.inr (.inr rfl))) heq] at hs
        simp [recordSymbols] at hs
      · rw [hinj s hmem (.native s.stem) (mem_symbols.2 (.inr (.inl ⟨_, hn, rfl⟩))) rfl] at hs
        simp [recordSymbols] at hs
  · -- Two names of records are told apart by their ends. Any other pair is a clash or the same name
    -- twice.
    intro hno s hs t ht heq
    have hmade {u : Symbol} {n : String} (hn : n ∈ ("start_" ++ p.entry) :: p.plain)
        (hu : ∃ f ∈ p.routines, f.hasRecord = true ∧ u ∈ recordSymbols f.name) : n ≠ u.stem := fun heq =>
      hno (.inr ⟨n, hn, mem_made.2 ⟨u, hu, heq.symm⟩⟩)
    rcases mem_symbols.1 hs with hs | ⟨n,hn,rfl⟩ | rfl <;>
      rcases mem_symbols.1 ht with ht | ⟨m,hm,rfl⟩ | rfl
    · obtain ⟨f,-,-,hs⟩ := hs
      obtain ⟨g,-,-,ht⟩ := ht
      exact eq_of_stem_recordSymbols hs ht heq
    · exact absurd heq.symm (hmade (mem_cons_of_mem _ hm) hs)
    · exact absurd heq.symm (hmade mem_cons_self hs)
    · exact absurd heq (hmade (mem_cons_of_mem _ hn) ht)
    · rw [show n = m from heq]
    · exact absurd (.inl ((show n = "start_" ++ p.entry from heq) ▸ hn)) hno
    · exact absurd heq (hmade mem_cons_self ht)
    · exact absurd (.inl ((show m = "start_" ++ p.entry from heq.symm) ▸ hm)) hno
    · rfl

end Spelling

namespace CSource

namespace Line

@[simp] theorem symbols_nil : symbols [] = [] := rfl

@[simp] theorem symbols_text (t : String) (l : Line) : symbols (.text t :: l) = l.symbols := rfl

@[simp] theorem symbols_symbol (s : Symbol) (l : Line) : symbols (.symbol s :: l) = s :: l.symbols := rfl

@[simp] theorem symbols_append (l m : Line) : symbols (l ++ m) = l.symbols ++ m.symbols :=
  filterMap_append

@[simp] theorem symbols_followedBy (l : Line) (t : String) : (l.followedBy t).symbols = l.symbols := by
  simp [followedBy]

end Line

section Header

theorem Layout.mem_symbolsAll {xs : List Layout} : s ∈ symbolsAll xs ↔ ∃ x ∈ xs, s ∈ x.symbols := by
  induction xs with
  | nil => simp [symbolsAll]
  | cons x xs ih => simp [symbolsAll,ih]

theorem symbols_recordFields (h : s ∈ Layout.symbolsAll (recordFields p f)) :
    ∃ callee, p.knowsRecord callee = true ∧ s = .record callee := by
  obtain ⟨x,hx,hs⟩ := Layout.mem_symbolsAll.1 h
  have hchild : ∃ k callee, x ∈ childFields p k callee := by
    by_contra hnone
    unfold recordFields at hx
    split at hx
    · simp only [mem_cons,not_mem_nil,or_false] at hx
      rcases hx with rfl | rfl | rfl | rfl <;> simp [Layout.symbols] at hs
    · simp only [cons_append,nil_append,mem_cons,mem_flatten,mem_mapIdx] at hx
      rcases hx with rfl | rfl | rfl | rfl | rfl | ⟨l,⟨k,_,rfl⟩,hx⟩
      all_goals first
        | exact hnone ⟨_, _, hx⟩
        | simp [Layout.symbols] at hs
  obtain ⟨k,callee,hx⟩ := hchild
  simp only [childFields,mem_cons,not_mem_nil,or_false] at hx
  rcases hx with rfl | rfl
  · split at hs
    · next hknown => exact ⟨callee, hknown, by simpa [Layout.symbols] using hs⟩
    · simp [Layout.symbols] at hs
  · simp [Layout.symbols] at hs

theorem mem_symbols_of_knowsRecord (h : p.knowsRecord name = true) (hs : s ∈ recordSymbols name) :
    s ∈ p.symbols := by
  obtain ⟨f,hf,hrecord⟩ := (Option.any_eq_true _ _).1 h
  have hname : f.name = name := by simpa using find?_some hf
  exact mem_symbols.2 (.inl ⟨f, mem_of_find?_eq_some hf, hrecord, hname ▸ hs⟩)

theorem mem_symbols_declarations : s ∈ Layout.symbolsAll (declarations p f) ↔
      s ∈ f.symbols ∨ f.hasRecord = true ∧ s ∈ Layout.symbolsAll (recordFields p f) := by
  cases hrecord : f.hasRecord <;>
    simp [declarations,Routine.symbols,hrecord,Layout.symbolsAll,Layout.symbols,makerHead,pollerHead,
      recordSymbols]
  grind

theorem mem_symbols_header : s ∈ Layout.symbolsAll (header p) ↔ s ∈ p.symbols := by
  have hparts : s ∈ Layout.symbolsAll (header p) ↔
      (∃ f ∈ p.routines, f.hasRecord = true ∧ s = .record f.name) ∨
        (∃ f ∈ p.routines, s ∈ Layout.symbolsAll (declarations p f)) ∨ s = .starter p.entry := by
    simp [header,Layout.symbolsAll_append,Layout.symbolsAll,Layout.symbols,Layout.mem_symbolsAll,
      starterHead,and_assoc]
    grind [Layout.symbols]
  rw [hparts]
  constructor
  · rintro (⟨f,hf,hrecord,rfl⟩ | ⟨f,hf,hs⟩ | rfl)
    · exact mem_symbols.2 (.inl ⟨f, hf, hrecord, mem_cons_self⟩)
    · rcases mem_symbols_declarations.1 hs with hs | ⟨-,hs⟩
      · exact mem_append_left _ (mem_flatMap.2 ⟨f, hf, hs⟩)
      · obtain ⟨_,hknown,rfl⟩ := symbols_recordFields hs
        exact mem_symbols_of_knowsRecord hknown mem_cons_self
    · exact mem_append_right _ (mem_singleton_self _)
  · intro hs
    rcases mem_append.1 hs with hs | hs
    · obtain ⟨f,hf,hs⟩ := mem_flatMap.1 hs
      exact .inr (.inl ⟨f, hf, mem_symbols_declarations.2 (.inl hs)⟩)
    · exact .inr (.inr (mem_singleton.1 hs))

end Header

section Source

def Action.mentions : Action → List Symbol
  | .create _ routine waker => .record routine :: .maker routine :: waker.line.symbols
  | .poll _ routine | .schedule _ routine => [.poller routine]
  | .callNative routine => [.native routine]
  | _ => []

theorem Action.symbols_line (a : Action) : a.line.symbols ⊆ a.mentions := by
  cases a with
  | create record routine waker =>
    simp only [line,mentions]
    split <;> simp
  | _ => simp [line,mentions]

def opMentions (p : Program) (f : Routine) : Op → List Symbol
  | .callSync callee _ _ _ => if p.generates callee then recordSymbols callee else [.native callee]
  | .callAsync callee _ _ _ _ => .poller f.name :: recordSymbols callee
  | .restartLoop _ _ => recordSymbols f.name
  | _ => []

theorem mentions_block {g : GuardedOp} {a : Action} (ha : a ∈ (f.block p g).steps.flatMap Step.actions) :
    a.mentions ⊆ opMentions p f g.op := by
  obtain ⟨c,op⟩ := g
  rw [Routine.block,flatMap_append,mem_append] at ha
  intro s hs
  cases op with
  | callAsync callee args results j done =>
    have hcases := actions_callInChild f (ha.resolve_right not_mem_nil)
    have hself : (Waker.self f.name).line.symbols = [.poller f.name] := rfl
    grind [Action.mentions,opMentions,recordSymbols]
  | _ =>
    simp only [opSteps,callInPlace,progressSteps,actions_act,garbageActions] at ha
    have hnone : Waker.none.line.symbols = [] := rfl
    have hcaller : Waker.caller.line.symbols = [] := rfl
    grind [Action.mentions,opMentions,recordSymbols,Step.actions,mem_flatten]

theorem mentions_of_layout {steps : List Step} (h : s ∈ Layout.symbolsAll (steps.map Step.layout)) :
    ∃ a ∈ steps.flatMap Step.actions, s ∈ a.mentions := by
  obtain ⟨x,hx,hs⟩ := Layout.mem_symbolsAll.1 h
  obtain ⟨step,hstep,rfl⟩ := mem_map.1 hx
  cases step with
  | act a => exact ⟨a, mem_flatMap.2 ⟨_, hstep, mem_singleton_self _⟩, a.symbols_line hs⟩
  | when tests actions =>
    simp only [Step.layout,testLine,Layout.symbols,Line.symbols_text,Line.symbols_nil,nil_append,
      append_nil] at hs
    obtain ⟨x,hx,hs⟩ := Layout.mem_symbolsAll.1 hs
    obtain ⟨a,ha,rfl⟩ := mem_map.1 hx
    exact ⟨a, mem_flatMap.2 ⟨_, hstep, ha⟩, a.symbols_line hs⟩

theorem symbols_of_routine (h : s ∈ (maker f).symbols ∨ s ∈ (poller p f).symbols) :
    s ∈ recordSymbols f.name ∨ ∃ g ∈ f.ops, s ∈ opMentions p f g.op := by
  have hraise : (Action.raise Condition.entry).line.symbols = [] := rfl
  rcases h with h | h
  · refine .inl ?_
    simp only [maker,makerHead,Layout.symbols,Layout.symbolsAll,hraise,Line.symbols_followedBy,
      Line.symbols_text,
      Line.symbols_symbol,Line.symbols_nil,mem_append,mem_cons,not_mem_nil,or_false] at h
    grind [recordSymbols]
  · simp only [poller,pollerHead,Layout.symbols,Layout.symbolsAll,Line.symbols_followedBy,
      Line.symbols_text,
      Line.symbols_symbol,Line.symbols_nil,mem_append,mem_cons,not_mem_nil,or_false,false_or] at h
    rcases h with rfl | rfl | h
    · exact .inl (by simp [recordSymbols])
    · exact .inl (by simp [recordSymbols])
    · obtain ⟨x,hx,hs⟩ := Layout.mem_symbolsAll.1 h
      obtain ⟨g,hg,hx⟩ := mem_flatMap.1 hx
      simp only [Block.layout,mem_cons,not_mem_nil,or_false] at hx
      rcases hx with rfl | rfl
      · simp [Layout.symbols] at hs
      · simp only [testLine,Layout.symbols,Line.symbols_text,Line.symbols_nil,nil_append,
          append_nil] at hs
        obtain ⟨a,ha,hs⟩ := mentions_of_layout hs
        exact .inr ⟨g, hg, mentions_block ha hs⟩

theorem symbols_starter (h : (p.routine? mainRoutine).isSome) :
    s ∈ (starter p).symbols ↔ s ∈ recordSymbols mainRoutine ∨ s = .starter p.entry := by
  obtain ⟨f,hf⟩ := Option.isSome_iff_exists.1 h
  have hcreate : (Action.create .self mainRoutine .none).line.symbols =
      [.record mainRoutine, .maker mainRoutine] := rfl
  have hschedule : (Action.schedule .self mainRoutine).line.symbols = [.poller mainRoutine] := rfl
  simp only [starter,hf,starterHead,Layout.symbols,Layout.symbolsAll,Layout.symbolsAll_append,
    cons_append,hcreate,hschedule,Line.symbols_followedBy,Line.symbols_text,Line.symbols_symbol,
    Line.symbols_nil,mem_append,mem_cons,not_mem_nil,or_false,false_or,Layout.mem_symbolsAll,mem_map]
  grind [recordSymbols,Layout.symbols,Line.symbols_text,Line.symbols_nil]

theorem mem_symbols_source : s ∈ Layout.symbolsAll (source p) ↔
    (∃ f ∈ p.routines, f.isNative = false ∧ (s ∈ (maker f).symbols ∨ s ∈ (poller p f).symbols)) ∨
      s ∈ (starter p).symbols := by
  simp only [source,Layout.symbolsAll_append,Layout.symbolsAll,Layout.symbols,Line.symbols_text,
    Line.symbols_nil, nil_append,append_nil,mem_append,Layout.mem_symbolsAll,mem_flatMap,mem_filter]
  grind [Layout.symbols]

end Source

end CSource

theorem Program.Knows.mem_symbols {o : Outline} (h : p.Knows name o) :
    (p.generates name = true ∨ o.isSync = false → ∀ s ∈ recordSymbols name, s ∈ p.symbols) ∧
      (p.generates name = false → o.isSync = true → .native name ∈ p.symbols) := by
  obtain ⟨r,hr,rfl⟩ := h
  have hname : r.name = name := by simpa using find?_some hr
  have hgenerates : p.generates name = !r.isNative := by simp [Program.generates,hr]
  refine ⟨fun hcase s hs => mem_symbols_of_knowsRecord ?_ hs, fun hnot hsync => ?_⟩
  · rw [hgenerates] at hcase
    simp only [Program.knowsRecord,hr,Option.any_some,Routine.hasRecord]
    rcases hcase with hcase | _
    · simp_all
    · simp_all [Routine.outline]
  · rw [hgenerates] at hnot
    refine Polled.mem_symbols.2 (.inr (.inl ⟨name, mem_map.2 ⟨r, ?_, hname⟩, rfl⟩))
    simp_all [Routine.outline,Routine.hasRecord,mem_of_find?_eq_some hr]

theorem mem_symbols_of_opMentions (hf : f ∈ p.routines) (hnative : f.isNative = false) {op : Op}
    (h : op.Kinded p.Knows f.outline f.registerKind) (hs : s ∈ opMentions p f op) : s ∈ p.symbols := by
  have hown : ∀ s ∈ recordSymbols f.name, s ∈ p.symbols := fun s hs =>
    mem_symbols.2 (.inl ⟨f, hf, by simp [Routine.hasRecord,hnative], hs⟩)
  cases op with
  | callSync callee args results done =>
    obtain ⟨o,hknown,hsync,-⟩ := h
    rw [opMentions] at hs
    split at hs
    · next hgenerates => exact hknown.mem_symbols.1 (.inl hgenerates) s hs
    · next hgenerates =>
      rw [mem_singleton.1 hs]
      exact hknown.mem_symbols.2 (by simpa using hgenerates) hsync
  | callAsync callee args results k done =>
    obtain ⟨o,hknown,hasync,-⟩ := h
    rcases mem_cons.1 hs with rfl | hs
    · exact hown _ (by simp [recordSymbols])
    · exact hknown.mem_symbols.1 (.inr hasync) s hs
  | restartLoop => exact hown s hs
  | _ => cases hs

section

variable {p : Bundle} {table : SignatureTable} {log log' : List Event} {prog : Program}

theorem knows_main (htable : KnowsTable prog.Knows table) (h : p.generate table log = .ok (prog, log')) :
    (prog.routine? mainRoutine).isSome := by
  unfold Bundle.generate at h
  split at h
  · cases h
  · next hmain =>
    obtain ⟨sig,hsig⟩ : ∃ sig, table.lookup? mainRoutine = some sig := by
      simpa [SignatureTable.contains,← Option.ne_none_iff_exists'] using hmain
    obtain ⟨r,hr,-⟩ := htable _ _ hsig
    have hname : sig.name = mainRoutine := by simpa using find?_some hsig
    rw [← hname,hr]
    rfl

/-- The header of a generated program declares three names for each routine with a record, one for each
other routine and one for the start. They are spelled differently exactly if no name of the program looks
like a name that is made from another one. What the source mentions without a declaration is the record
of the main routine, exactly if that routine has none. -/
theorem symbols_declared (htable : p.signatures = .ok table)
    (h : p.generate table log = .ok (prog, log')) :
    (∀ s, s ∈ Layout.symbolsAll (header prog) ↔ s ∈ prog.symbols) ∧
      ((prog.symbols.map Symbol.text).Nodup ↔ ¬prog.Clashes) ∧
      ∀ s, (s ∈ Layout.symbolsAll (source prog) ∧ s ∉ Layout.symbolsAll (header prog)) ↔
        (prog.knowsRecord mainRoutine = false ∧ s ∈ recordSymbols mainRoutine) := by
  obtain ⟨_,-,-,-,hnodup,hknows,hkinded⟩ := exists_parts htable h
  have hmain := knows_main hknows h
  refine ⟨fun s => mem_symbols_header, nodup_text_iff hnodup, fun s => ?_⟩
  rw [mem_symbols_header,mem_symbols_source,symbols_starter hmain]
  constructor
  · rintro ⟨⟨f,hf,hnative,hs⟩ | hs | rfl,hnot⟩
    · refine absurd ?_ hnot
      rcases symbols_of_routine hs with hs | ⟨g,hg,hs⟩
      · exact mem_symbols.2 (.inl ⟨f, hf, by simp [Routine.hasRecord,hnative], hs⟩)
      · exact mem_symbols_of_opMentions hf hnative (hkinded f hf g hg) hs
    · refine ⟨?_, hs⟩
      by_contra hrecord
      exact hnot (mem_symbols_of_knowsRecord (by simpa using hrecord) hs)
    · exact absurd (mem_symbols.2 (.inr (.inr rfl))) hnot
  · rintro ⟨hnone,hs⟩
    refine ⟨.inr (.inl hs), fun hmem => ?_⟩
    obtain ⟨f,hf,hrecord,hname⟩ : ∃ f ∈ prog.routines, f.hasRecord = true ∧ f.name = mainRoutine := by
      rcases mem_symbols.1 hmem with ⟨f,hf,hrecord,hs'⟩ | ⟨n,-,rfl⟩ | rfl
      · refine ⟨f, hf, hrecord, ?_⟩
        simp only [recordSymbols,mem_cons,not_mem_nil,or_false] at hs hs'
        grind
      · simp [recordSymbols] at hs
      · simp [recordSymbols] at hs
    rw [Program.knowsRecord,← hname,Program.routine?_eq_some hnodup hf,Option.any_some,hrecord] at hnone
    cases hnone

theorem patrol_symbols_declared : ¬patrolled.Clashes ∧ patrolled.knowsRecord mainRoutine = true ∧
      (patrolled.symbols.map Symbol.text).Nodup ∧ ∀ s ∈ Layout.symbolsAll (source patrolled),
        s ∈ Layout.symbolsAll (header patrolled) := by
  obtain ⟨_,hlog⟩ := generate_patrol
  have hno : ¬patrolled.Clashes := by
    have hentry : patrolled.entry = "main" := by cbv
    have hplain : patrolled.plain = ["more"] := by cbv
    have hmade : patrolled.made = ["main_1", "main_1_1", "main", "main_2", "main_2_1"].flatMap fun f =>
        (recordSymbols f).map Symbol.stem := by cbv
    rw [Program.Clashes,hentry,hplain,hmade]
    decide
  have hmain : patrolled.knowsRecord mainRoutine = true := by cbv
  obtain ⟨-,htext,hmissing⟩ := symbols_declared signatures_patrol hlog
  refine ⟨hno, hmain, htext.2 hno, fun s hs => ?_⟩
  by_contra hnot
  have hfalse := ((hmissing s).1 ⟨hs, hnot⟩).1
  rw [hmain] at hfalse
  cases hfalse

/-- `native func ring(): Integer`, `sync native func ring_new(): Integer` and `sync native func main():
Integer`. -/
def bells : Bundle where
  entry := "main"
  modules := [⟨"main", 0, ⟨[],
    [{ refill with name := bare "ring", isNative := true, params := [] },
      { refill with name := bare "ring_new", isSync := true, isNative := true, params := [] },
      { refill with name := bare "main", isSync := true, isNative := true, params := [] }]⟩⟩]

def bellsTable : SignatureTable :=
  match bells.signatures with
  | .ok table => table
  | .error _ => .empty

def rung : Program :=
  match bells.generate bellsTable [] with
  | .ok (prog, _) => prog
  | .error _ => ⟨"", []⟩

/-- The function that makes a record of `ring` and the native function `ring_new` have one name, and the
program is started with a record that is declared nowhere. -/
theorem bells_do_not_link :
    bells.signatures = .ok bellsTable ∧ (∃ log, bells.generate bellsTable [] = .ok (rung, log)) ∧
      Symbol.maker "ring" ∈ Layout.symbolsAll (header rung) ∧
        Symbol.native "ring_new" ∈ Layout.symbolsAll (header rung) ∧
      (Symbol.maker "ring").text = (Symbol.native "ring_new").text ∧
      Symbol.maker "main" ∈ Layout.symbolsAll (source rung) ∧
      Symbol.maker "main" ∉ Layout.symbolsAll (header rung) := by
  have hheader : Layout.symbolsAll (header rung) =
    [.record "ring", .record "ring", .record "ring", .maker "ring",
    .poller "ring", .native "ring_new", .native "main", .starter "main"] := by cbv
  have hsource : Layout.symbolsAll (source rung) =
      [.starter "main", .record "main", .maker "main", .poller "main"] := by
    cbv
  refine ⟨by cbv, ⟨_, by cbv⟩, ?_⟩
  rw [hheader,hsource]
  decide

end

end Polled
