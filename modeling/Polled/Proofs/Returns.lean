import Polled.Proofs.Nesting
import Polled.Proofs.Spinning

/-!
Who owns what is returned.

What a caller owns was owned by the callee. The converse holds unless an owned value is returned where a
borrowed one is declared: then neither side frees it.
-/

namespace Polled

open Lower Draft

variable {r : Routine} {table : SignatureTable} {g : GuardedOp}
  {values garbage : List Register} {d : Decl}

theorem Kind.ownsHeap_eq_iff {k target : Kind} (h : k.convert target = .ok ()) :
    k.ownsHeap = target.ownsHeap ↔ ¬ (k.ownsHeap = true ∧ target.borrowed = true) := by
  rw [convert_eq_ok_iff] at h
  obtain ⟨b,f,_⟩ := k
  obtain ⟨b',_,_⟩ := target
  simp only [fits,Bool.and_eq_true,decide_eq_true_eq,Bool.or_eq_true,Bool.not_eq_true'] at h
  obtain ⟨⟨rfl,-⟩,_⟩ := h
  cases b <;> cases b' <;> cases f <;> simp_all [ownsHeap]

/-- The registers into which an operation takes the results of a callee. -/
def Op.takesFrom? (callee : String) : Op → Option (List Register)
  | .callSync name _ results _ => if name = callee then some results else none
  | .callAsync name _ results _ _ => if name = callee then some results else none
  | _ => none

theorem Op.Kinded.takes {p : Program} {own : Outline} {kind : Register → Kind} {op : Op}
    {results : List Register} (h : op.Kinded p.Knows own kind) (hr : p.routine? r.name = some r)
    (htakes : op.takesFrom? r.name = some results) :
    results.map kind = r.returnKinds := by
  cases op <;> simp only [takesFrom?,reduceCtorEq] at htakes
  all_goals
    split at htakes
    · rename_i hname
      obtain ⟨o,⟨q,hq,rfl⟩,-,-,hresults⟩ := h
      obtain rfl : q = r := by simpa [hname,hr] using hq.symm
      obtain rfl := Option.some.inj htakes
      exact hresults
    · cases htakes

theorem Closure.map_registerKind_ret {callees : Callees} {loops : List (Expr × Block)}
    {all : List Routine} (h : Closure callees table loops all r) (hg : g ∈ r.ops)
    (hop : g.op = .ret values garbage) :
    values.map r.registerKind = r.returnKinds := by
  obtain ⟨f,_,body,d₁,d',_,ops,-,rfl,-,hloop,hreturns,hadvance,hbody,hround,-,rfl⟩ := h
  obtain ⟨_,t,_,_,_,hturning⟩ := turning_of_endsRound hround hadvance knowsTable_any
  have hout : f.inLoop = false → (Code.block body.stmts).balanced = false → False := by simp [hloop]
  obtain ⟨gs,hlaid⟩ := hbody.laid hout
  have hends : g.op.endsActivation = true := by rw [hop]; rfl
  have hg : g ∈ d'.ops := hg
  rw [hturning.ops_eq,show d₁.ops = gs from hlaid.ops_eq] at hg
  simp only [List.mem_append,List.mem_map,List.mem_cons,List.not_mem_nil,or_false] at hg
  rcases hg with hg | ⟨op,hline,rfl⟩ | rfl | rfl | rfl
  · simp [hlaid.shape.goes rfl g hg] at hends
  · simp [(hturning.plain op hline).goes] at hends
  · cases hop
  · cases hop
  · cases hop
    exact (hturning.kinded (d'.routine f).outline _ (d'.agrees_routine f)).2.2.trans hreturns.symm

theorem Generates.map_registerKind_ret {rs : List Routine} (h : Generates table d rs)
    (hd : table.lookup? d.name.node ≠ none) (hr : r ∈ rs) (hloop : table.lookup? r.name = none)
    (hg : g ∈ r.ops) (hop : g.op = .ret values garbage) : values.map r.registerKind = r.returnKinds := by
  rcases h with ⟨-,rfl⟩ | ⟨_,_,l,-,hl,rfl⟩
  · rw [List.mem_singleton.1 hr] at hg
    cases hg
  · rcases List.mem_cons.1 hr with rfl | hr
    · rw [(outline_of_lowerFunction hl).1] at hloop
      exact absurd hloop hd
    · exact (closure_of_lowerFunction hl hr).1.map_registerKind_ret hg hop

section

variable {b : Bundle} {table : SignatureTable} {log log' : List Event} {p : Program}

theorem Bundle.lookup?_ne_none (htable : b.signatures = .ok table) (hd : d ∈ b.decls) :
    table.lookup? d.name.node ≠ none := by
  have hentries := congrArg (List.map Prod.fst) (Bundle.declares htable).entries
  rw [List.map_map,List.map_map] at hentries
  rw [Ne,SignatureTable.lookup?_eq_none,not_not]
  show d.name.node ∈ table.entries.map (Prod.fst ∘ fun s => (s.name, s.outline))
  rw [hentries]
  exact List.mem_map_of_mem (f := Prod.fst ∘ fun d : Decl => (d.name.node, d.outline)) hd

/-- A returned register owns a value on the heap just if its callers' registers do, unless it owns what
is declared as borrowed. In closures the two have the same kind, and every caller takes a result under
the declared kind. -/
theorem returned_owned_iff (htable : b.signatures = .ok table)
    (h : b.generate table log = .ok (p, log')) :
    ∀ r ∈ p.routines, (∀ g ∈ r.ops, ∀ values garbage, g.op = .ret values garbage →
        values.length = r.returnKinds.length ∧ ∀ (j : Nat) t k, values[j]? = some t →
          r.returnKinds[j]? = some k →
            ((r.registerKind t).ownsHeap = k.ownsHeap ↔
              ¬ ((r.registerKind t).ownsHeap = true ∧ k.borrowed = true)) ∧
          (table.lookup? r.name = none → r.registerKind t = k)) ∧
      ∀ q ∈ p.routines, ∀ g ∈ q.ops, ∀ results, g.op.takesFrom? r.name = some results →
        results.map q.registerKind = r.returnKinds := by
  have hp := made_of_generate htable h
  intro r hr
  refine ⟨fun g hg values garbage hop => ?_, fun q hq g hg results htakes => ?_⟩
  · have hfits : Fits r.registerKind values r.returnKinds := by
      have hkinded := hp.kinded r hr g hg
      rwa [hop] at hkinded
    refine ⟨hfits.1, fun j t k ht hk => ⟨?_, fun hloop => ?_⟩⟩
    · have hmem : (t, k) ∈ values.zip r.returnKinds :=
        List.mem_of_getElem? (i := j) (by simp [List.getElem?_zip_eq_some,ht,hk])
      exact Kind.ownsHeap_eq_iff (hfits.2 _ hmem)
    · obtain ⟨d,hd,_,hgenerates,hrs⟩ := hp.origin r hr
      have hkinds := hgenerates.map_registerKind_ret (Bundle.lookup?_ne_none htable hd) hrs hloop hg hop
      have hj := congrArg (·[j]?) hkinds
      simpa [ht,hk] using hj
  · exact (hp.kinded q hq g hg).takes (hp.routine? r hr) htakes

theorem served_returned_owned_iff :
    served.routines.map (fun r => (r.name, r.returnKinds.map Kind.ownsHeap)) =
        [("brew", [true]), ("pour", [false, true]), ("main", [true]), ("main_1", [false, true])] ∧
      ∀ r ∈ served.routines, (∀ g ∈ r.ops, ∀ values garbage, g.op = .ret values garbage →
        values.length = r.returnKinds.length ∧ ∀ (j : Nat) t k, values[j]? = some t →
          r.returnKinds[j]? = some k →
            ((r.registerKind t).ownsHeap = k.ownsHeap ↔
              ¬ ((r.registerKind t).ownsHeap = true ∧ k.borrowed = true)) ∧
          (cafeTable.lookup? r.name = none → r.registerKind t = k)) ∧
      ∀ q ∈ served.routines, ∀ g ∈ q.ops, ∀ results, g.op.takesFrom? r.name = some results →
        results.map q.registerKind = r.returnKinds := by
  obtain ⟨_,hlog⟩ := generate_cafe
  exact ⟨by cbv, returned_owned_iff signatures_cafe hlog⟩

/-- `sync native func brew(): String`, `func lend(): &String { return brew() }` and a main function that
calls `lend`. -/
def lending : Bundle where
  entry := "main"
  modules := [⟨"main", 0, ⟨[],
    [{ refill with name := bare "brew", isSync := true, isNative := true, params := [] },
      { refill with
        name := bare "lend"
        params := []
        returns := [bare (.lent .string)]
        body := some ⟨.nowhere, [.ret .nowhere (some (.call .nowhere (bare "brew") []))]⟩ },
      { refill with
        name := bare "main"
        params := []
        returns := [bare (.owned .integer)]
        body := some ⟨.nowhere, [.bind .nowhere [bare "s"] (.call .nowhere (bare "lend") []),
          .ret .nowhere (some (.integer .nowhere 0))]⟩ }]⟩⟩]

def lendingTable : SignatureTable :=
  match lending.signatures with
  | .ok table => table
  | .error _ => .empty

def lent : Program :=
  match lending.generate lendingTable [] with
  | .ok (prog, _) => prog
  | .error _ => ⟨"", []⟩

/-- The string is withheld from the garbage of `lend`, but main takes it over as borrowed, and nothing
ever frees it. -/
theorem lent_string_lost :
    lending.signatures = .ok lendingTable ∧ (∃ log, lending.generate lendingTable [] = .ok (lent, log)) ∧
    ∃ r ∈ lent.routines, ∃ g ∈ r.ops, g.op = .ret [0] [] ∧ (r.registerKind 0).ownsHeap = true ∧
      r.returnKinds.map Kind.ownsHeap = [false] ∧ ∀ q ∈ lent.routines, q.freedSlots = [] :=
  ⟨by cbv, ⟨_, by cbv⟩, by decide +kernel⟩

end

end Polled
