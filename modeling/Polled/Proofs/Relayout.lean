import Polled.Proofs.Discovery
import Polled.Proofs.PairedLowering

/-!
Layout does not matter to what is compiled.

Two sets of modules with texts that are read as the same trees, up to places, are loaded in step
(`Loading.Twin`). They end with the same program, or with errors that differ in their places only.
-/

namespace Polled

open List

variable {s t : String} {α : Type}

/-- Both texts can be read, as trees that are equal up to places. -/
def SameReading (s t : String) : Prop :=
  ∃ m n, SourceModule.parse s.toList 0 = .ok m ∧ SourceModule.parse t.toList 0 = .ok n ∧
    m.unplaced = n.unplaced

section Texts

/-- As any file, both texts end alike. -/
def ReadAlike (s t : String) : Prop :=
  ∀ file, Alike (CompileError.Paired Anywhere) (fun m n => m.unplaced = n.unplaced)
    (SourceModule.parse s.toList file) (SourceModule.parse t.toList file)

theorem ReadAlike.refl (s : String) : ReadAlike s s := fun file =>
  (SourceModule.parse_anywhere s.toList file file).imp (fun _ _ => id) fun _ _ =>
    SourceModule.Paired.unplaced

theorem SameReading.readAlike (h : SameReading s t) : ReadAlike s t := by
  obtain ⟨m,n,hm,hn,hmn⟩ := h
  intro file
  obtain ⟨_,hm',hmm'⟩ := SourceModule.exists_parse hm file
  obtain ⟨_,hn',hnn'⟩ := SourceModule.exists_parse hn file
  rw [hm',hn']
  exact .ok (hmm'.unplaced.symm.trans (hmn.trans hnn'.unplaced))

theorem forall₂_paired_of_nodes {ts us : List (Located α)} (h : ts.map (·.node) = us.map (·.node)) :
    Forall₂ (Located.Paired Anywhere) ts us := by
  rw [← forall₂_eq_eq_eq,forall₂_map_left_iff,forall₂_map_right_iff] at h
  exact h.imp fun _ _ hnode => ⟨hnode, trivial⟩

theorem map_node_of_unplaced {xs ys : List (Located α)}
    (h : xs.map Located.unplaced = ys.map Located.unplaced) :
    xs.map (·.node) = ys.map (·.node) := by
  simpa [Located.unplaced,Function.comp_def] using congrArg (List.map (·.node)) h

theorem sameReading_of_tokens (htokens : (lex s.toList 0).map (·.map (·.node)) =
    (lex t.toList 0).map (·.map (·.node)))
    (hread : (SourceModule.parse s.toList 0).isOk = true) : SameReading s t := by
  rw [SourceModule.parse_eq] at hread
  cases hs : lex s.toList 0 with
  | error e =>
    rw [hs] at hread
    cases hread
  | ok ts =>
    rw [hs] at htokens hread
    cases ht : lex t.toList 0 with
    | error e =>
      rw [ht] at htokens
      cases htokens
    | ok us =>
      rw [ht] at htokens
      have hnodes := forall₂_paired_of_nodes (Except.ok.inj htokens)
      have hfile : Anywhere ⟨0, 0, 0⟩ ⟨0, 0, 0⟩ := trivial
      have halike := SourceModule.ofTokens_alike steady_anywhere hfile hnodes
      cases hm : SourceModule.ofTokens 0 ts with
      | error e =>
        rw [show Except.ok ts >>= SourceModule.ofTokens 0 = .error e from hm] at hread
        cases hread
      | ok m =>
        rw [hm] at halike
        obtain ⟨n,hn,hmn⟩ := halike.exists_ok
        refine ⟨m, n, ?_, ?_, hmn.unplaced⟩
        · rw [SourceModule.parse_eq,hs]
          exact hm
        · rw [SourceModule.parse_eq,ht]
          exact hn

end Texts

section Loads

variable {a b : List (String × String)}

def BundleModule.unplaced (m : BundleModule) : BundleModule := { m with tree := m.tree.unplaced }

/-- The same module is waited for, on behalf of the same module. -/
structure Pending.Twin (p q : Pending) : Prop where
  name : p.name = q.name
  importer : Option.Rel (fun x y => x.1 = y.1) p.importer q.importer

/-- Two loads in the same state, up to places and texts. -/
structure Loading.Twin (s t : Loading) : Prop where
  queue : Forall₂ Pending.Twin s.queue t.queue
  seen : s.seen = t.seen
  modules : s.modules.map BundleModule.unplaced = t.modules.map BundleModule.unplaced
  size : s.sources.size = t.sources.size
  log : s.log = t.log

theorem Pending.Twin.missing {p q : Pending} (h : p.Twin q) : p.missing.Paired Anywhere q.missing := by
  obtain ⟨name,_⟩ := p
  obtain ⟨name',_⟩ := q
  obtain ⟨hname,himporter⟩ := h
  obtain rfl : name = name' := hname
  cases himporter with
  | none => exact .program _
  | @some x y hxy =>
    obtain ⟨x,_⟩ := x
    obtain ⟨y,_⟩ := y
    obtain rfl : x = y := hxy
    exact .source _ trivial

namespace Loading.Twin

variable {s t : Loading}

theorem enqueue (h : s.Twin t) (importer : String) {xs ys : List (Located String)}
    (hxs : Forall₂ (Located.Paired Anywhere) xs ys) :
    (Loading.enqueue importer xs s).Twin (Loading.enqueue importer ys t) := by
  induction hxs generalizing s t with
  | nil => exact h
  | @cons _ _ _ _ hxy _ ih =>
    rw [Loading.enqueue,Loading.enqueue,h.seen,hxy.node]
    split
    · exact ih h
    · refine ih ⟨rel_append h.queue (.cons ⟨rfl, .some rfl⟩ .nil), rfl, h.modules, h.size, h.log⟩

theorem accept (h : s.Twin t) (name : String) {u v : FoundText} (huv : ReadAlike u.text v.text) :
    (s.accept name u).1.Twin (t.accept name v).1 ∧
      Alike (CompileError.Paired Anywhere) Eq (s.accept name u).2 (t.accept name v).2 := by
  have hparse := huv s.sources.size
  have hsize : (s.sources.add ⟨name, u.path, u.text⟩).size =
      (t.sources.add ⟨name, v.path, v.text⟩).size := by
    simpa [Sources.add,Sources.size] using h.size
  simp only [Loading.accept,← h.size]
  generalize SourceModule.parse u.text.toList s.sources.size = x,
    SourceModule.parse v.text.toList s.sources.size = y at hparse
  cases hparse with
  | error he => exact ⟨⟨h.queue, h.seen, h.modules, hsize, h.log⟩, .error he⟩
  | @ok m n hmn =>
    have himports : Forall₂ (Located.Paired Anywhere) m.imports n.imports :=
      forall₂_paired_of_nodes (map_node_of_unplaced (congrArg SourceModule.imports hmn))
    have hlength : m.functions.length = n.functions.length := by
      simpa [SourceModule.unplaced] using congrArg (·.functions.length) hmn
    refine ⟨?_, .ok rfl⟩
    simp only [hlength,h.log]
    refine enqueue ?_ name himports
    refine ⟨h.queue, h.seen, ?_, hsize, rfl⟩
    simp only [map_append,h.modules,map_cons,map_nil,BundleModule.unplaced,hmn]

end Loading.Twin

/-- Loads that ended with the same reports and the same modules, or failed with the same error. -/
structure Attempt.Twin (x y : Attempt (List BundleModule)) : Prop where
  log : x.log = y.log
  outcome : Alike (CompileError.Paired Anywhere)
    (fun ms ns => ms.map BundleModule.unplaced = ns.map BundleModule.unplaced) x.outcome y.outcome

theorem Loading.Twin.load {s t : Loading} (h : s.Twin t)
    (hab : ∀ name, Option.Rel (fun u v => ReadAlike u.text v.text) (supplied a name) (supplied b name))
    (fuel : Nat) :
    (s.load a fuel).Twin (t.load b fuel) := by
  have hqueue := h.queue
  cases hq : s.queue with
  | nil =>
    rw [hq] at hqueue
    rw [load_of_nil hq,load_of_nil (forall₂_nil_left_iff.1 hqueue)]
    exact ⟨h.log, .ok h.modules⟩
  | cons p rest =>
    rw [hq] at hqueue
    obtain ⟨q,rest',hpq,hrest,hq'⟩ := forall₂_cons_left_iff.1 hqueue
    cases fuel with
    | zero =>
      rw [load_zero_of_cons hq,load_zero_of_cons hq']
      exact ⟨h.log, .error hpq.missing⟩
    | succ fuel =>
      rw [load_succ_of_cons hq,load_succ_of_cons hq',← hpq.name]
      have hfound := hab p.name
      generalize supplied a p.name = x, supplied b p.name = y at hfound
      cases hfound with
      | none => exact ⟨h.log, .error hpq.missing⟩
      | @some u v huv =>
        have hs : Loading.Twin { s with queue := rest } { t with queue := rest' } :=
          ⟨hrest, h.seen, h.modules, h.size, h.log⟩
        have haccept := hs.accept p.name huv
        simp only
        generalize { s with queue := rest }.accept p.name u = x,
          { t with queue := rest' }.accept p.name v = y at haccept
        obtain ⟨_,result⟩ := x
        obtain ⟨_,result'⟩ := y
        obtain ⟨hnext,hresult⟩ := haccept
        change Alike _ _ result result' at hresult
        cases hresult with
        | error he => exact ⟨hnext.log, .error he⟩
        | ok _ => exact load hnext hab fuel

theorem supplied_alike (h : ∀ name, Option.Rel SameReading (a.lookup name) (b.lookup name))
    (name : String) :
    Option.Rel (fun u v => ReadAlike u.text v.text) (supplied a name) (supplied b name) := by
  have hlookup := h name
  rw [supplied,supplied]
  generalize a.lookup name = x, b.lookup name = y at hlookup
  cases hlookup with
  | some hread => exact .some hread.readAlike
  | none =>
    dsimp only
    split
    · exact .some (.refl _)
    · exact .none

theorem twin_start (entry : String) : (Loading.start entry).Twin (.start entry) :=
  ⟨.cons ⟨rfl, .none⟩ .nil, rfl, rfl, rfl, rfl⟩

theorem twin_load (h : ∀ name, Option.Rel SameReading (a.lookup name) (b.lookup name)) (entry : String) :
    ((Loading.start entry).load a (a.length + 2)).Twin
      ((Loading.start entry).load b (b.length + 2)) := by
  have hload := (twin_start entry).load (supplied_alike h) (max a.length b.length + 2)
  rwa [load_of_le (Nat.add_le_add_right (Nat.le_max_left _ _) 2),
    load_of_le (Nat.add_le_add_right (Nat.le_max_right _ _) 2)] at hload

end Loads

section Programs

theorem paired_unplacedModules (ms : List BundleModule) :
    Forall₂ (BundleModule.Paired Anywhere) ms (ms.map BundleModule.unplaced) :=
  forall₂_map (f := BundleModule.unplaced) (fun m => ⟨rfl, forall₂_map (f := Decl.unplaced)
    (fun d => ⟨Anywhere, steady_anywhere, fun _ _ => id, d.paired_unplaced⟩) m.tree.functions⟩) ms

theorem generate_unplaced (sources : Sources) (log : List Event) (entry : String)
    (ms : List BundleModule) :
    Alike (CompileError.Paired Anywhere) Eq
      (Attempt.generate ⟨sources, log, .ok ⟨entry, ms⟩⟩).outcome
      (Attempt.generate ⟨.empty, log, .ok ⟨entry, ms.map BundleModule.unplaced⟩⟩).outcome :=
  Attempt.generate_alike rfl (.ok ⟨rfl, paired_unplacedModules ms⟩)

theorem CompileError.Paired.common {d e e' : CompileError} (h : e.Paired Anywhere d)
    (h' : e'.Paired Anywhere d) :
    e.Paired Anywhere e' := by
  induction h generalizing e' with
  | source fault _ =>
    cases h' with
    | source _ _ => exact .source fault trivial
  | program fault =>
    cases h' with
    | program _ => exact .program fault
  | inFunction name _ ih =>
    cases h' with
    | inFunction _ h' => exact .inFunction name (ih h')

theorem compile_alike {a b : List (String × String)}
    (h : ∀ name, Option.Rel SameReading (a.lookup name) (b.lookup name)) (entry : String) :
    Alike (CompileError.Paired Anywhere) Eq (Id.run (compile (.memory a) entry)).outcome
      (Id.run (compile (.memory b) entry)).outcome := by
  let x := (Loading.start entry).load a (a.length + 2)
  let y := (Loading.start entry).load b (b.length + 2)
  change Alike _ _ (Attempt.generate ⟨x.sources, x.log, x.outcome.map fun ms => ⟨entry, ms⟩⟩).outcome
    (Attempt.generate ⟨y.sources, y.log, y.outcome.map fun ms => ⟨entry, ms⟩⟩).outcome
  obtain ⟨hlog,houtcome⟩ : x.Twin y := twin_load h entry
  rw [hlog]
  generalize x.outcome = p, y.outcome = q at houtcome
  cases houtcome with
  | error he => exact .error he
  | @ok ms ns hmodules =>
    -- Without their places the modules are the same, so both programs are compared with that of the bare
    -- modules.
    have hleft := generate_unplaced x.sources y.log entry ms
    have hright := generate_unplaced y.sources y.log entry ns
    rw [hmodules] at hleft
    generalize (Attempt.generate ⟨.empty, y.log, .ok ⟨entry, ns.map BundleModule.unplaced⟩⟩).outcome =
      r at hleft hright
    change Alike _ _ (Attempt.generate ⟨x.sources, y.log, .ok ⟨entry, ms⟩⟩).outcome
      (Attempt.generate ⟨y.sources, y.log, .ok ⟨entry, ns⟩⟩).outcome
    generalize (Attempt.generate ⟨x.sources, y.log, .ok ⟨entry, ms⟩⟩).outcome = p,
      (Attempt.generate ⟨y.sources, y.log, .ok ⟨entry, ns⟩⟩).outcome = q at hleft hright
    cases hleft with
    | ok hp =>
      cases hright with
      | ok hq => exact .ok (hp.trans hq.symm)
    | error he =>
      cases hright with
      | error he' => exact .error (he.common he')

end Programs

/-- Layout never changes the output. Modules of the same names whose texts are read as the same trees, up
to places, give the same program, or both fail, and then with the same error up to its place: of the same
category and with the same message. -/
theorem compile_relayout (a b : List (String × String))
    (h : ∀ name, Option.Rel SameReading (a.lookup name) (b.lookup name)) (entry : String) :
    (∃ program, (Id.run (compile (.memory a) entry)).outcome = .ok program ∧
      (Id.run (compile (.memory b) entry)).outcome = .ok program) ∨
    ∃ e e', (Id.run (compile (.memory a) entry)).outcome = .error e ∧
      (Id.run (compile (.memory b) entry)).outcome = .error e' ∧ e.Paired Anywhere e' ∧
        e.category = e'.category ∧ e.message = e'.message := by
  have halike := compile_alike h entry
  generalize (Id.run (compile (.memory a) entry)).outcome = p,
    (Id.run (compile (.memory b) entry)).outcome = q at halike
  cases halike with
  | @ok program program' heq =>
    subst heq
    exact .inl ⟨program, rfl, rfl⟩
  | error he => exact .inr ⟨_, _, rfl, rfl, he, he.category_eq, he.message_eq⟩

/-- A program with no more room in it than it needs. -/
def terse : List (String × String) :=
  [("lib", "func one():Integer{return 1}"), ("main", "import lib func main():Integer{return one()}")]

/-- The same program as `terse`, with room and remarks. -/
def roomy : List (String × String) := [("main", "import lib // für eins

func main(): Integer {
  return one()
}
"),
    ("lib", "func one(): Integer { // une seule
  return 1
}
")]

theorem sameReading_terse_roomy (name : String) :
    Option.Rel SameReading (terse.lookup name) (roomy.lookup name) := by
  rw [terse,roomy,lookup_cons,lookup_cons,lookup_cons,lookup_cons]
  by_cases hlib : name = "lib"
  · subst hlib
    exact .some (sameReading_of_tokens (by decide +kernel) (by decide +kernel))
  by_cases hmain : name = "main"
  · subst hmain
    exact .some (sameReading_of_tokens (by decide +kernel) (by decide +kernel))
  · simp only [beq_eq_false_iff_ne.2 hlib,beq_eq_false_iff_ne.2 hmain]
    exact .none

theorem terse_roomy_relayout : (∀ name, Option.Rel SameReading (terse.lookup name) (roomy.lookup name)) ∧
    ∃ program, (Id.run (compile (.memory terse) "main")).outcome = .ok program ∧
      (Id.run (compile (.memory roomy) "main")).outcome = .ok program := by
  refine ⟨sameReading_terse_roomy, ?_⟩
  have hok : (Id.run (compile (.memory terse) "main")).outcome.isOk = true := by decide +kernel
  obtain hprogram | ⟨e,_,he,-⟩ := compile_relayout terse roomy sameReading_terse_roomy "main"
  · exact hprogram
  · rw [he] at hok
    cases hok

end Polled
