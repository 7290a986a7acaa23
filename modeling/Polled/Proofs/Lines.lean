import Mathlib.Data.List.Nodup
import Polled.Proofs.Expressions

/-!
The line of operations that an expression is lowered to.

Wherever the routine goes on, its flags are new and all different, the kinds of its operands fit, and
what it reads has been written before, given that the variables have (`Draft.Line`).
-/

namespace Polled

open Lower List

/-- What a call has to know of a function or of a closure. -/
structure Outline where
  isSync : Bool
  params : List Kind
  returns : List Kind
  deriving DecidableEq, Repr

def Signature.outline (sig : Signature) : Outline := ⟨sig.isSync, sig.params.map (·.2), sig.returns⟩

/-- The registers of an operation have the kinds that it takes. `known` is what is known of callees and
`own` what the routine itself looks like. -/
def Op.Kinded (known : String → Outline → Prop) (own : Outline) (kind : Register → Kind) : Op → Prop
  | .callSync callee args results _ =>
    ∃ o, known callee o ∧ o.isSync = true ∧ Fits kind args o.params ∧ results.map kind = o.returns
  | .callAsync callee args results _ _ =>
    ∃ o, known callee o ∧ o.isSync = false ∧ Fits kind args o.params ∧ results.map kind = o.returns
  | .compare _ lhs rhs result =>
    (kind lhs).convert (.lent .integer) = .ok () ∧ (kind rhs).convert (.lent .integer) = .ok () ∧
      kind result = .owned .boolean
  | .branch test _ _ => (kind test).convert (.lent .boolean) = .ok ()
  | .rename source dest => kind source = kind dest
  | .ret values _ => Fits kind values own.returns
  | .restartLoop args _ => args.map kind = own.params ∧ own.returns = own.params
  | _ => True

/-- The operation neither splits nor ends a walk, and leaves a mark when it has run. -/
structure Op.Plain (op : Op) : Prop where
  isBranch : op.isBranch = false
  goes : op.endsActivation = false
  marks : op.provides ≠ [] ∨ op.completionFlags ≠ []

def flagsOf (ops : List Op) : List Condition := ops.flatMap Op.completionFlags

/-- The slots that operations write. -/
def writes (slot : Register → Register) (ops : List Op) : List Register :=
  ops.flatMap fun op => op.provides.map slot

section

variable {slot : Register → Register} {base : Register → Prop} {T T' : List Op}

/-- A slot holds a value from the start or has got one. -/
def Given (slot : Register → Register) (base : Register → Prop) (T : List Op) (g : Register) : Prop :=
  base g ∨ g ∈ writes slot T

theorem Given.append {g : Register} (h : Given slot base T g) (T' : List Op) :
    Given slot base (T ++ T') g := by
  rcases h with h | h
  · exact .inl h
  · exact .inr (by simp only [writes,flatMap_append,mem_append] at h ⊢; exact .inl h)

theorem given_of_provides {op : Op} {r : Register} (hr : r ∈ op.provides) :
    Given slot base (T ++ [op]) (slot r) := by
  refine .inr ?_
  simp only [writes,flatMap_append,mem_append]
  exact .inr (by simpa using ⟨r, hr, rfl⟩)

/-- Every operation but a release reads what has been written before. -/
def Fed (slot : Register → Register) (base : Register → Prop) (T : List Op) : Prop :=
  ∀ before op after, T = before ++ op :: after → (∀ r done, op ≠ .free r done) →
    ∀ r ∈ op.reads, Given slot base before (slot r)

theorem fed_nil : Fed slot base [] := by
  intro before op after h
  simp at h

theorem Fed.concat {op : Op} (h : Fed slot base T)
    (hop : (∀ r done, op ≠ .free r done) → ∀ r ∈ op.reads, Given slot base T (slot r)) :
    Fed slot base (T ++ [op]) := by
  intro before o after heq
  rcases eq_nil_or_concat after with rfl | ⟨after',last,rfl⟩
  · obtain ⟨rfl,hlast⟩ := append_inj' heq rfl
    obtain rfl : op = o := by simpa using hlast
    exact hop
  · have hfront : T ++ [op] = (before ++ o :: after') ++ [last] := by simpa using heq
    exact h before o after' (append_inj' hfront rfl).1

end

namespace Draft

/-- The kinds are those of the draft, as far as it goes. -/
def Agrees (d : Draft) (kind : Register → Kind) : Prop :=
  ∀ r, r < d.registers.size → kind r = d.registers.kind r

/-- What variables stand for has been written, and so has all that was read. -/
structure Supplied (d : Draft) (slot : Register → Register) (base : Register → Prop)
    (T : List Op) : Prop where
  names : ∀ x r, d.scope.get? x = some r → Given slot base T (slot r)
  fed : Fed slot base T

/-- A line of operations writes all registers that have been added, in order. -/
structure Fills (d e : Draft) (line : List Op) : Prop where
  ops_eq : e.ops = d.ops ++ line.map (GuardedOp.mk d.current)
  current : e.current = d.current
  resolve_eq : e.registers.resolve = d.registers.resolve
  size_le : d.registers.size ≤ e.registers.size
  provides : line.flatMap Op.provides = List.range' d.registers.size
    (e.registers.size - d.registers.size)

/-- The flags of a line are new and all different, and the kinds of its operands fit. -/
structure Strand (known : String → Outline → Prop) (d d' : Draft) (line : List Op) :
    Prop extends d.Fills d' line where
  count_le : d.control.conditionCount ≤ d'.control.conditionCount
  flags : ∀ c ∈ flagsOf line, d.control.conditionCount ≤ c ∧ c < d'.control.conditionCount
  nodup : (flagsOf line).Nodup
  plain : ∀ op ∈ line, op.Plain
  kinded : ∀ own kind, d'.Agrees kind → ∀ op ∈ line, op.Kinded known own kind

structure Line (known : String → Outline → Prop) (d d' : Draft) (rs : List Register)
    (line : List Op) : Prop extends Strand known d d' line where
  supplies : ∀ slot base T, d.Supplied slot base T →
    d'.Supplied slot base (T ++ line) ∧ ∀ r ∈ rs, Given slot base (T ++ line) (slot r)

variable {known : String → Outline → Prop} {d e d' : Draft} {rs rs' : List Register}
  {line line' : List Op}

theorem line_unique (h : d'.ops = d.ops ++ line.map (GuardedOp.mk d.current))
    (h' : d'.ops = d.ops ++ line'.map (GuardedOp.mk d.current)) : line = line' :=
  map_injective_iff.2 (fun _ _ h => (GuardedOp.mk.inj h).2) (append_cancel_left (h.symm.trans h'))

theorem Fills.nil (hops : e.ops = d.ops) (hcurrent : e.current = d.current)
    (hlayout : e.registers.layout = d.registers.layout) : d.Fills e [] := by
  have hsize : e.size = d.size := congrArg Layout.size hlayout
  exact ⟨by simp [hops], hcurrent, congrArg Layout.root hlayout, hsize.symm.le, by simp [hsize]⟩

theorem Fills.trans (h : d.Fills e line) (h' : e.Fills d' line') : d.Fills d' (line ++ line') where
  ops_eq := by rw [h'.ops_eq,h.ops_eq,h.current,append_assoc,← map_append]
  current := h'.current.trans h.current
  resolve_eq := h'.resolve_eq.trans h.resolve_eq
  size_le := h.size_le.trans h'.size_le
  provides := by
    have hle := h.size_le
    have hle' := h'.size_le
    have hmid : e.registers.size = d.registers.size + (e.registers.size - d.registers.size) := by omega
    rw [flatMap_append,h.provides,h'.provides]
    nth_rewrite 2 [hmid]
    rw [range'_append_1]
    congr 1
    omega

theorem Fills.emit {op : Op} {n : Nat} (hops : e.ops = d.ops ++ [⟨d.current, op⟩])
    (hcurrent : e.current = d.current) (hresolve : e.registers.resolve = d.registers.resolve)
    (hsize : e.registers.size = d.registers.size + n)
    (hprovides : op.provides = List.range' d.registers.size n) : d.Fills e [op] :=
  ⟨by simp [hops], hcurrent, hresolve, hsize ▸ le_self_add, by simp [hprovides,hsize]⟩

theorem Fills.reserve {op : Op} (k : Kind) (hprovides : op.provides = [d.size]) :
    d.Fills ((d.reserve k).emit d.current op) [op] :=
  .emit rfl rfl (funext (d.registers.resolve_alloc k)) (d.registers.size_alloc k)
    (by rw [hprovides,range'_one])

theorem AtCall.fills {sig : Signature} {passed : List Passed} {results : List Register}
    {op : Op} {mid : Draft} (h : AtCall sig passed results op e mid d') : e.Fills d' [op] := by
  have hprovides := h.results_eq ▸ h.isCall.provides
  have hsize := h.size_eq
  have hroot := h.resolve_eq
  obtain ⟨_,rfl⟩ := h.rebound.draft
  obtain ⟨_,_,_,rfl⟩ := h.draft
  exact .emit rfl rfl hroot hsize hprovides

theorem Agrees.of_grows {kind : Register → Kind} (h : d'.Agrees kind)
    (hgrows : d.registers.layout.Grows d'.registers.layout) : d.Agrees kind := fun r hr =>
  (h r (hr.trans_le hgrows.size_le)).trans (hgrows.kind_old r hr)

theorem Strand.single {op : Op} (hfills : d.Fills d' [op]) (hcount : d.count ≤ d'.count)
    (hplain : op.Plain) (hflags : ∀ c ∈ op.completionFlags, d.count ≤ c ∧ c < d'.count)
    (hnodup : op.completionFlags.Nodup) (hkinded : ∀ own kind, d'.Agrees kind →
      op.Kinded known own kind) :
    Strand known d d' [op] :=
  ⟨hfills, hcount, by simpa [flagsOf] using hflags, by simpa [flagsOf] using hnodup,
    by simpa using hplain, by simpa using hkinded⟩

theorem Strand.trans (h : Strand known d e line) (h' : Strand known e d' line')
    (hgrows : e.registers.layout.Grows d'.registers.layout) : Strand known d d' (line ++ line') where
  toFills := h.toFills.trans h'.toFills
  count_le := h.count_le.trans h'.count_le
  flags c hc := by
    rw [flagsOf,flatMap_append,mem_append] at hc
    rcases hc with hc | hc
    · exact ⟨(h.flags c hc).1, (h.flags c hc).2.trans_le h'.count_le⟩
    · exact ⟨h.count_le.trans (h'.flags c hc).1, (h'.flags c hc).2⟩
  nodup := by
    rw [flagsOf,flatMap_append,nodup_append]
    refine ⟨h.nodup, h'.nodup, ?_⟩
    rintro c hc _ hc' rfl
    exact absurd (h.flags c hc).2 (not_lt.2 (h'.flags c hc').1)
  plain op hop := by
    rcases mem_append.1 hop with hop | hop
    · exact h.plain op hop
    · exact h'.plain op hop
  kinded own kind hkind op hop := by
    rcases mem_append.1 hop with hop | hop
    · exact h.kinded own kind (hkind.of_grows hgrows) op hop
    · exact h'.kinded own kind hkind op hop

theorem Line.trans (h : Line known d e rs line) (h' : Line known e d' rs' line')
    (hgrows : e.registers.layout.Grows d'.registers.layout) :
    Line known d d' (rs ++ rs') (line ++ line') where
  toStrand := h.toStrand.trans h'.toStrand hgrows
  supplies slot base T hT := by
    obtain ⟨hT,hrs⟩ := h.supplies slot base T hT
    obtain ⟨hT',hrs'⟩ := h'.supplies slot base _ hT
    rw [append_assoc] at hT' hrs'
    refine ⟨hT', fun r hr => ?_⟩
    rcases mem_append.1 hr with hr | hr
    · rw [← append_assoc]
      exact (hrs r hr).append line'
    · exact hrs' r hr

theorem Line.silent (hfills : d.Fills d' []) (hcount : d.count ≤ d'.count)
    (hscope : ∀ x r, d'.scope.get? x = some r → d.scope.get? x = some r)
    (hrs : ∀ r ∈ rs, ∃ x, d.scope.get? x = some r) : Line known d d' rs [] where
  toFills := hfills
  count_le := hcount
  flags := by simp [flagsOf]
  nodup := nodup_nil
  plain := by simp
  kinded := by simp
  supplies slot base T hT := by
    rw [append_nil]
    refine ⟨⟨fun x r hx => hT.names x r (hscope x r hx), hT.fed⟩, fun r hr => ?_⟩
    obtain ⟨x,hx⟩ := hrs r hr
    exact hT.names x r hx

theorem Line.nil : Line known d d [] [] := .silent (.nil rfl rfl rfl) le_rfl (fun _ _ hx => hx) (by simp)

theorem Line.emit {op : Op} {results : List Register} (h : Line known d e rs line)
    (hop : Strand known e d' [op]) (hgrows : e.registers.layout.Grows d'.registers.layout)
    (hreads : ∀ r ∈ op.reads, r ∈ rs) (hresults : ∀ r ∈ results, r ∈ op.provides)
    (hscope : ∀ x r, d'.scope.get? x = some r → e.scope.get? x = some r ∨ r ∈ op.provides) :
    Line known d d' results (line ++ [op]) where
  toStrand := h.toStrand.trans hop hgrows
  supplies slot base T hT := by
    obtain ⟨hT,hrs⟩ := h.supplies slot base T hT
    rw [← append_assoc]
    refine ⟨⟨fun x r hx => ?_, hT.fed.concat fun _ r hr => hrs r (hreads r hr)⟩,
      fun r hr => given_of_provides (hresults r hr)⟩
    rcases hscope x r hx with hx | hr
    · exact (hT.names x r hx).append [op]
    · exact given_of_provides hr

theorem Valid.fewer {scope : Scope} (hd : d.Valid) (hsorted : scope.Sorted)
    (hscope : ∀ x r, scope.get? x = some r → d.scope.get? x = some r) :
    ({ d with scope } : Draft).Valid where
  sorted := hsorted
  sound :=
    { wf := hd.sound.wf
      heap := hd.sound.heap
      single := fun x y r t hx hy => hd.sound.single x y r t (hscope x r hx) (hscope y t hy)
      bound := by
        rintro r ((ho | ⟨x,hx⟩ | hm | hp) | ⟨_,hop,-⟩)
        · exact hd.sound.lt_of_owned ho
        · exact hd.sound.lt_of_scope (hscope x r hx)
        · cases hm
        · cases hp
        · cases hop }

theorem passed_spec {r : Register} {lent : Bool} (hd : d.Valid)
    (hd' : d' = if lent then d else d.handOver r) :
    d'.Valid ∧ d.registers.layout = d'.registers.layout ∧ Line known d d' [] [] := by
  subst hd'
  split
  · exact ⟨hd, rfl, .nil⟩
  · have hscope : ∀ x t, (d.handOver r).scope.get? x = some t → d.scope.get? x = some t :=
      fun x t hx => ((hd.sorted.get?_forget _ r x t).1 hx).1
    exact ⟨(hd.disown (r := r)).fewer (hd.sorted.forget _ r) hscope, (d.registers.layout_release r).symm,
      .silent (.nil rfl rfl (d.registers.layout_release r)) le_rfl hscope (by simp)⟩

end Draft

/-- What is known of the functions of a table. -/
def KnowsTable (known : String → Outline → Prop) (table : SignatureTable) : Prop :=
  ∀ name sig, table.lookup? name = some sig → known sig.name sig.outline

def anyOutline (_ : String) (_ : Outline) : Prop := True

theorem knowsTable_any {table : SignatureTable} : KnowsTable anyOutline table := fun _ _ _ => trivial

theorem Signature.completionFlags_call (sig : Signature) (args results : List Register)
    (slot : ChildSlot) (done : Option Condition) :
    (sig.call args results slot done).completionFlags = done.toList := by
  unfold call
  split <;> rfl

section

variable {known : String → Outline → Prop} {f : Frame} {d e d' : Draft} {rs : List Register}

theorem Draft.Line.load {k : Kind} {op : Op} (hd : d.Valid) (hd' : d' = (d.reserve k).emit d.current op)
    (hplain : op.Inline) (hflags : op.completionFlags = [])
    (hkinded : ∀ own kind, op.Kinded known own kind) (hreads : op.reads = [])
    (hprovides : op.provides = [d.size]) : Draft.Line known d d' [d.size] [op] := by
  subst hd'
  have hop : Draft.Strand known d ((d.reserve k).emit d.current op) [op] :=
    .single (.reserve k hprovides) le_rfl ⟨hplain.1, hplain.2, .inl (by simp [hprovides])⟩
      (by simp [hflags]) (by simp [hflags]) fun own kind _ => hkinded own kind
  exact Draft.Line.nil.emit hop (Draft.extends_reserve hd k).grows (by simp [hreads])
    (by simp [hprovides])
    fun x r hx => .inl hx

theorem Draft.Line.call {sig : Signature} {passed : List Passed} {line : List Op} (hd : e.Valid)
    (hknown : known sig.name sig.outline) (hargs : Draft.Line known d e (passed.map (·.register)) line)
    (hbound : ∀ p ∈ passed, p.register < e.size)
    (hfits : Fits e.registers.kind (passed.map (·.register)) (sig.params.map (·.2)))
    (h : callWith f sig passed e = .ok (rs, d')) : ∃ line', Draft.Line known d d' rs line' := by
  obtain ⟨results,_,mid,hcall,rfl⟩ := callWith_spec hd h
  have hop := hcall.isCall
  have hreb := hcall.rebound
  have hfills := hcall.fills
  have hgrows := (hcall.reserves fun _ => none).extend.grows
  have hlt : ∀ r ∈ results, r < mid.size := fun r => hcall.lt_size
  have hkinds := hcall.kinds
  have hcount := hcall.count_le
  obtain ⟨slot,done,rfl,hflag⟩ := hcall.call
  have hflags := sig.completionFlags_call (passed.map (·.register)) results slot done
  have hmarks : (sig.call (passed.map (·.register)) results slot done).provides ≠ [] ∨
      (sig.call (passed.map (·.register)) results slot done).completionFlags ≠ [] := by
    rw [hop.provides,hflags]
    rcases hflag with ⟨-,rfl,-⟩ | ⟨hsome,-,-⟩
    · exact .inr (by simp)
    · exact .inl (by simpa [hcall.results_eq] using hsome)
  obtain ⟨registers,control,_,rfl⟩ := hcall.draft
  obtain ⟨scope,rfl⟩ := hreb.draft
  refine ⟨_, hargs.emit (.single hfills hcount ⟨hop.plain.1, hop.plain.2, hmarks⟩ ?_ ?_ ?_)
    hgrows ?_ ?_ ?_⟩
  · rw [hflags]
    intro c hc
    show e.count ≤ c ∧ c < control.conditionCount
    rcases hflag with ⟨-,rfl,hcount⟩ | ⟨-,rfl,hcount⟩
    · obtain rfl : c = e.count := by simpa using hc
      exact ⟨le_rfl, hcount ▸ Nat.lt_succ_self _⟩
    · simp at hc
  · rw [hflags]
    cases done <;> simp
  · intro own kind hkind
    have hold : ∀ p ∈ passed, kind p.register = e.registers.kind p.register := fun p hp =>
      Draft.Agrees.of_grows hkind hgrows _ (hbound p hp)
    have hargs : Fits kind (passed.map (·.register)) sig.outline.params := by
      refine ⟨hfits.1, fun p hp => ?_⟩
      obtain ⟨q,hq,hqp⟩ := mem_map.1 (of_mem_zip hp).1
      rw [← hqp,hold q hq,hqp]
      exact hfits.2 p hp
    have hresults : results.map kind = sig.outline.returns :=
      (map_congr_left fun r hr => hkind r (hlt r hr)).trans hkinds
    unfold Signature.call
    split
    · rename_i hsync
      exact ⟨sig.outline, hknown, hsync, hargs, hresults⟩
    · rename_i hsync
      exact ⟨sig.outline, hknown, Bool.eq_false_iff.2 hsync, hargs, hresults⟩
  · rw [hop.reads]
    exact fun r hr => hr
  · rw [hop.provides]
    intro r hr
    obtain ⟨i,hi,-⟩ := mem_leftOver hr
    exact mem_of_getElem? hi
  · rw [hop.provides]
    intro x r hx
    rcases hreb.scope x r hx with ⟨hx,-⟩ | ⟨i,p,y,k,-,-,-,hr,-⟩
    · exact .inl hx
    · exact .inr (mem_of_getElem? hr)

theorem Phrase.Lowers.line {p : Phrase} (hknown : KnowsTable known f.table) (h : Lowers f p d rs d')
    (hd : d.Valid) :
    ∃ line, Draft.Line known d d' rs line := by
  induction h with
  | name hx | thread hx =>
    exact ⟨[], .silent (.nil rfl rfl rfl) le_rfl (fun _ _ h => h) fun t ht =>
      ⟨_, hx.trans (congrArg some (mem_singleton.1 ht).symm)⟩⟩
  | truth | integer | text => exact ⟨_, .load hd rfl ⟨rfl, rfl⟩ rfl (fun _ _ => trivial) rfl rfl⟩
  | tuple _ ih | pass _ ih => exact ih hd
  | call hlookup hargs hcall ih =>
    obtain ⟨line,hline⟩ := ih hd
    have hargs' := hargs.straight f.table.callees_cover hd
    exact Draft.Line.call (hargs.spec hd).1 (hknown _ _ hlookup) hline hargs'.lt_size hargs'.fits hcall
  | @compare _ _ _ _ _ _ _ l r hl hr hlk hrk ihl ihr =>
    obtain ⟨line,hline⟩ := ihl hd
    obtain ⟨he,-,hbound⟩ := hl.spec hd
    obtain ⟨line',hline'⟩ := ihr he
    obtain ⟨he',hgrows',hbound'⟩ := hr.spec he
    have hl' := (hbound l (mem_singleton_self l)).trans_le hgrows'.size_le
    have hr' := hbound' r (mem_singleton_self r)
    have hgrows := (Draft.extends_reserve he' (.owned .boolean)).grows
    refine ⟨_, (hline.trans hline' hgrows').emit (.single (.reserve _ rfl) le_rfl
      ⟨rfl, rfl, .inl (by simp [Op.provides])⟩ (by simp [Op.completionFlags])
      (by simp [Op.completionFlags]) ?_) hgrows
      (by simp [Op.reads,Op.needs]) (by simp [Op.provides]) fun x r hx => .inl hx⟩
    intro own kind hkind
    refine ⟨?_, ?_, ?_⟩
    · rw [Draft.Agrees.of_grows hkind hgrows l hl']
      exact hlk
    · rw [Draft.Agrees.of_grows hkind hgrows r hr']
      exact hrk
    · rw [hkind _ (by simp [Draft.emit,Draft.reserve])]
      simp [Draft.emit,Draft.reserve,Registers.kind_alloc]
  | nil | done => exact ⟨[], .nil⟩
  | cons he hes ih ih' =>
    obtain ⟨line,hline⟩ := ih hd
    have hd₁ := (he.spec hd).1
    obtain ⟨line',hline'⟩ := ih' hd₁
    exact ⟨_, hline.trans hline' (hes.spec hd₁).2.1⟩
  | next harg _ hpass hrest ih ih' =>
    obtain ⟨_,hline⟩ := ih hd
    obtain ⟨hvalid,hlayout,hnone⟩ := Draft.passed_spec (harg.spec hd).1 hpass
    obtain ⟨_,hline'⟩ := ih' hvalid
    have hgrows := (hrest.spec hvalid).2.1
    exact ⟨_, hline.trans (hnone.trans hline' hgrows) (hlayout ▸ hgrows)⟩

theorem Expr.line (hknown : KnowsTable known f.table) (e : Expr) (hd : d.Valid)
    (h : e.lower f d = .ok (rs, d')) :
    ∃ line, Draft.Line known d d' rs line :=
  (e.lowers h).line hknown hd

end

end Polled
