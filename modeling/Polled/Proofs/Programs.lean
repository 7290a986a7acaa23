import Polled.Generation
import Polled.Proofs.Kinds

/-!
Generated programs are well kinded.

The routines of a program have different names, so a call means one routine, and what lowering checked
against the table holds of that routine.
-/

namespace Polled

open Lower Draft List

variable {d : Decl} {home : String} {table : SignatureTable} {log : List Event}
  {g : Generated} {r : Routine}
variable {parts : List (Decl × List Routine)}

def Decl.outline (d : Decl) : Outline := ⟨d.isSync, d.typedParams.map (·.2), d.returnKinds⟩

/-- The table holds just these declarations. -/
structure SignatureTable.Declares (table : SignatureTable) (ds : List Decl) : Prop where
  entries : table.entries.map (fun s => (s.name, s.outline)) = ds.map fun d => (d.name.node, d.outline)
  nodup : (table.entries.map (·.name)).Nodup

namespace SignatureTable

variable {table' : SignatureTable} {ds ds' : List Decl}

theorem lookup?_eq_none {name : String} :
    table.lookup? name = none ↔ name ∉ table.entries.map (·.name) := by
  simp [lookup?]

theorem Declares.declareDecl (h : table.Declares ds)
    (hok : SignatureTable.declareDecl home table d = .ok table') :
    table'.Declares (ds ++ [d]) := by
  unfold SignatureTable.declareDecl at hok
  split at hok
  · cases hok
  · unfold declare at hok
    split at hok
    · cases hok
    · rename_i hnone
      cases hok
      refine ⟨?_, ?_⟩
      · rw [map_append,h.entries,map_append]
        rfl
      · rw [map_append,nodup_append]
        refine ⟨h.nodup, by simp, ?_⟩
        rintro _ hname _ hd rfl
        rw [mem_singleton.1 hd] at hname
        exact lookup?_eq_none.1 hnone hname

theorem Declares.declareAll (h : table.Declares ds)
    (hok : ds'.foldlM (SignatureTable.declareDecl home) table = .ok table') :
    table'.Declares (ds ++ ds') := by
  induction ds' generalizing table ds with
  | nil =>
    cases hok
    rwa [append_nil]
  | cons d ds' ih =>
    rw [foldlM_cons] at hok
    cases hd : SignatureTable.declareDecl home table d with
    | error e =>
      rw [hd] at hok
      cases hok
    | ok t =>
      rw [hd] at hok
      simpa using ih (h.declareDecl hd) hok

end SignatureTable

theorem Bundle.declares {p : Bundle} (h : p.signatures = .ok table) : table.Declares p.decls := by
  have hmodules : ∀ (ms : List BundleModule) (t : SignatureTable) (ds : List Decl), t.Declares ds →
      ms.foldlM (fun t m => m.tree.functions.foldlM (SignatureTable.declareDecl m.name) t)
      t = .ok table →
      table.Declares (ds ++ ms.flatMap (·.tree.functions)) := by
    intro ms
    induction ms with
    | nil =>
      rintro t ds ht hok
      cases hok
      rwa [flatMap_nil,append_nil]
    | cons m ms ih =>
      intro t ds ht hok
      rw [foldlM_cons] at hok
      cases hm : m.tree.functions.foldlM (SignatureTable.declareDecl m.name) t with
      | error e =>
        rw [hm] at hok
        cases hok
      | ok t' =>
        rw [hm] at hok
        simpa using ih t' _ (ht.declareAll hm) hok
  exact hmodules p.modules .empty [] ⟨rfl, nodup_nil⟩ h

/-- What a declaration is generated to. -/
def Generates (table : SignatureTable) (d : Decl) (rs : List Routine) : Prop :=
  (d.body = none ∧ rs = [.native d.name.node d.isSync (d.typedParams.map (·.2)) d.returnKinds]) ∨
    ∃ body log l, d.body = some body ∧ lowerFunction table d body log = .ok l ∧
    rs = l.routine :: l.closures

theorem generates_of_generateDecl (h : generateDecl table d log = .ok g) :
    Generates table d g.routines := by
  unfold generateDecl at h
  split at h
  · rename_i hbody
    cases h
    exact .inl ⟨hbody, rfl⟩
  · rename_i body hbody
    split at h
    · cases h
    · rename_i l hl
      cases h
      exact .inr ⟨body, log, l, hbody, hl, rfl⟩

def GeneratesAll (table : SignatureTable) (parts : List (Decl × List Routine)) : Prop :=
  ∀ p ∈ parts, Generates table p.1 p.2

theorem generatesAll_of_generateDecls {ds : List Decl} (h : generateDecls table ds log = .ok g) :
    ∃ parts, GeneratesAll table parts ∧ parts.map (·.1) = ds ∧ g.routines = parts.flatMap (·.2) := by
  induction ds generalizing log g with
  | nil =>
    cases h
    exact ⟨[], by simp [GeneratesAll], rfl, rfl⟩
  | cons d ds ih =>
    simp only [generateDecls] at h
    cases hfirst : generateDecl table d log with
    | error e =>
      rw [hfirst] at h
      cases h
    | ok first =>
      rw [hfirst] at h
      cases hrest : generateDecls table ds first.log with
      | error e =>
        simp only [bind,Except.bind,hrest] at h
        cases h
      | ok rest =>
        simp only [bind,Except.bind,hrest] at h
        cases h
        obtain ⟨parts,hparts,hds,hroutines⟩ := ih hrest
        refine ⟨(d, first.routines) :: parts, ?_, by simp [hds], by simp [hroutines]⟩
        exact forall_mem_cons.2 ⟨generates_of_generateDecl hfirst, hparts⟩

namespace Generates

variable {rs : List Routine}

section

variable (h : Generates table d rs)

include h

theorem name_cases (hr : r ∈ rs) : r.name = d.name.node ∨ LoopName table d.name.node r.name := by
  rcases h with ⟨-,rfl⟩ | ⟨_,_,l,-,hl,rfl⟩
  · exact .inl (mem_singleton.1 hr ▸ rfl)
  · rcases mem_cons.1 hr with rfl | hr
    · exact .inl (outline_of_lowerFunction hl).1
    · exact .inr (closure_of_lowerFunction hl hr).2

theorem nodup (hd : table.lookup? d.name.node ≠ none) : (rs.map (·.name)).Nodup := by
  rcases h with ⟨-,rfl⟩ | ⟨body,_,l,-,hl,rfl⟩
  · simp
  · obtain ⟨draft,hlower,heq⟩ := lowerFunction_eq_ok hl
    obtain ⟨new,hnew,-,hnodup,hfresh⟩ := Block.grows (d.frame table) body _ _ _ hlower
    have hnew : draft.closures = new := hnew
    rw [map_cons,(outline_of_lowerFunction hl).1,nodup_cons,heq]
    refine ⟨fun hmem => ?_, hnew ▸ hnodup⟩
    obtain ⟨c,hc,hname⟩ := mem_map.1 hmem
    exact hd (hname ▸ (hfresh c (hnew ▸ hc)).1)

theorem declared : ∃ r ∈ rs, r.name = d.name.node ∧ r.outline = d.outline := by
  rcases h with ⟨-,rfl⟩ | ⟨_,_,l,-,hl,rfl⟩
  · refine ⟨_, mem_singleton_self _, rfl, ?_⟩
    simp only [Routine.outline,Routine.native,Decl.outline,take_length]
  · exact ⟨l.routine, mem_cons_self, outline_of_lowerFunction hl⟩

theorem kinded {known : String → Outline → Prop} (hknown : KnowsTable known table)
    (hrs : ∀ r ∈ rs, known r.name r.outline) (hr : r ∈ rs) : r.Kinded known := by
  rcases h with ⟨-,rfl⟩ | ⟨_,_,l,-,hl,rfl⟩
  · rw [mem_singleton.1 hr]
    intro g hg
    cases hg
  · exact kinded_of_lowerFunction hl hknown (fun c hc => hrs c (mem_cons_of_mem _ hc)) hr

end

end Generates

/-- No name is given twice, neither to functions nor to closures. -/
theorem GeneratesAll.nodup (h : GeneratesAll table parts) (hnodup : (parts.map (·.1.name.node)).Nodup)
    (htable : ∀ p ∈ parts, table.lookup? p.1.name.node ≠ none) :
    ((parts.flatMap (·.2)).map (·.name)).Nodup := by
  induction parts with
  | nil => exact nodup_nil
  | cons p parts ih =>
    obtain ⟨hp,hparts⟩ := forall_mem_cons.1 h
    obtain ⟨hnot,hnodup⟩ := nodup_cons.1 hnodup
    obtain ⟨hlookup,htable⟩ := forall_mem_cons.1 htable
    rw [flatMap_cons,map_append,nodup_append]
    refine ⟨hp.nodup hlookup, ih hparts hnodup htable, ?_⟩
    rintro name hname _ hname' rfl
    obtain ⟨r,hr,rfl⟩ := mem_map.1 hname
    obtain ⟨_,hr',hname⟩ := mem_map.1 hname'
    obtain ⟨p',hp',hr'⟩ := mem_flatMap.1 hr'
    have hlookup' := htable p' hp'
    have hne : p.1.name.node ≠ p'.1.name.node := fun heq => hnot (mem_map.2 ⟨p', hp', heq.symm⟩)
    have hcases := (hparts p' hp').name_cases hr'
    rw [hname] at hcases
    rcases hp.name_cases hr with heq | hloop
    · rw [heq] at hcases
      rcases hcases with heq' | hloop'
      · exact hne heq'
      · exact hlookup hloop'.lookup?
    · rcases hcases with heq' | hloop'
      · exact hlookup' (heq' ▸ hloop.lookup?)
      · exact hne (hloop.root_eq hloop' hlookup hlookup')

def Program.Knows (p : Program) (name : String) (o : Outline) : Prop :=
  ∃ r, p.routine? name = some r ∧ r.outline = o

theorem Program.routine?_eq_some {p : Program} (h : (p.routines.map (·.name)).Nodup)
    (hr : r ∈ p.routines) :
    p.routine? r.name = some r := by
  cases hfound : p.routine? r.name with
  | none => exact absurd (find?_eq_none.1 hfound r hr) (by simp)
  | some r' =>
    have hname : r'.name = r.name := by simpa using find?_some hfound
    rw [inj_on_of_nodup_map h (mem_of_find?_eq_some hfound) hr hname]

section

variable {p : Bundle} {table : SignatureTable} {log log' : List Event} {prog : Program}

theorem generatesAll_of_generate (h : p.generate table log = .ok (prog, log')) :
    ∃ parts, GeneratesAll table parts ∧ parts.map (·.1) = p.decls ∧
      prog.routines = parts.flatMap (·.2) := by
  unfold Bundle.generate at h
  split at h
  · cases h
  · cases hg : generateDecls table p.decls log with
    | error e =>
      simp only [hg] at h
      cases h
    | ok g =>
      simp only [hg] at h
      cases h
      exact generatesAll_of_generateDecls hg

theorem SignatureTable.Declares.knows (h : table.Declares (parts.map (·.1)))
    (hparts : GeneratesAll table parts) (hroutines : prog.routines = parts.flatMap (·.2))
    (hnodup : (prog.routines.map (·.name)).Nodup) :
    KnowsTable prog.Knows table := by
  intro name sig hsig
  have hmem : (sig.name, sig.outline) ∈ table.entries.map fun s => (s.name, s.outline) :=
    mem_map_of_mem (mem_of_find?_eq_some hsig)
  rw [h.entries,map_map] at hmem
  obtain ⟨part,hpart,heq⟩ := mem_map.1 hmem
  obtain ⟨r,hr,hname,houtline⟩ := (hparts part hpart).declared
  obtain ⟨hsigname,hsigoutline⟩ := Prod.mk.inj heq
  have hrprog : r ∈ prog.routines := hroutines ▸ mem_flatMap.2 ⟨part, hpart, hr⟩
  refine ⟨r, ?_, houtline.trans hsigoutline⟩
  rw [← hsigname,← hname]
  exact Program.routine?_eq_some hnodup hrprog

/-- The parts that a program is put together from. Their names are different, and their operations fit
together. -/
theorem exists_parts (htable : p.signatures = .ok table) (h : p.generate table log = .ok (prog, log')) :
    ∃ parts, GeneratesAll table parts ∧ parts.map (·.1) = p.decls ∧ prog.routines = parts.flatMap (·.2) ∧
      (prog.routines.map (·.name)).Nodup ∧ KnowsTable prog.Knows table ∧ ∀ r ∈ prog.routines,
        r.Kinded prog.Knows := by
  obtain ⟨parts,hparts,hdecls,hroutines⟩ := generatesAll_of_generate h
  have hdeclares := Bundle.declares htable
  rw [← hdecls] at hdeclares
  have hnames : table.entries.map (·.name) = parts.map (·.1.name.node) := by
    have hfst := congrArg (List.map Prod.fst) hdeclares.entries
    simp only [map_map] at hfst
    exact hfst
  have hnodup : (prog.routines.map (·.name)).Nodup := by
    rw [hroutines]
    refine hparts.nodup (hnames ▸ hdeclares.nodup) fun part hpart hnone => ?_
    rw [SignatureTable.lookup?_eq_none,hnames] at hnone
    exact hnone (mem_map_of_mem (f := fun part => part.1.name.node) hpart)
  have hknows := hdeclares.knows hparts hroutines hnodup
  refine ⟨parts, hparts, hdecls, hroutines, hnodup, hknows, fun r hr => ?_⟩
  obtain ⟨part,hpart,hr⟩ := mem_flatMap.1 (hroutines ▸ hr)
  refine (hparts part hpart).kinded hknows (fun c hc => ?_) hr
  exact ⟨c, Program.routine?_eq_some hnodup (hroutines ▸ mem_flatMap.2 ⟨part, hpart, hc⟩), rfl⟩

/-- Names stand for one routine each, and every operation has operands of the kinds that it takes. -/
theorem well_kinded (htable : p.signatures = .ok table) (h : p.generate table log = .ok (prog, log')) :
    (prog.routines.map (·.name)).Nodup ∧ ∀ r ∈ prog.routines, r.Kinded prog.Knows := by
  obtain ⟨_,-,-,-,hnodup,-,hkinded⟩ := exists_parts htable h
  exact ⟨hnodup, hkinded⟩

/-- `sync native func brew(): String`, `sync native func pour(cup: String): (Boolean, String)` and a main
function that pours as long as it is asked to. -/
def cafe : Bundle where
  entry := "main"
  modules := [⟨"main", 0, ⟨[],
    [{ refill with name := bare "brew", isSync := true, isNative := true, params := [] },
      { refill with
        name := bare "pour"
        isSync := true
        isNative := true
        params := [⟨bare "cup", bare (.owned .string)⟩]
        returns := [bare (.owned .boolean), bare (.owned .string)] },
      { refill with name := bare "main", body := some refillBody }]⟩⟩]

def cafeTable : SignatureTable :=
  match cafe.signatures with
  | .ok table => table
  | .error _ => .empty

def served : Program :=
  match cafe.generate cafeTable [] with
  | .ok (prog, _) => prog
  | .error _ => ⟨"", []⟩

theorem signatures_cafe : cafe.signatures = .ok cafeTable := by cbv

theorem generate_cafe : ∃ log, cafe.generate cafeTable [] = .ok (served, log) := ⟨_, by cbv⟩

theorem cafe_well_kinded : served.routines.map (·.name) = ["brew", "pour", "main", "main_1"] ∧
    (served.routines.map (·.name)).Nodup ∧ ∀ r ∈ served.routines, r.Kinded served.Knows := by
  obtain ⟨_,hlog⟩ := generate_cafe
  exact ⟨by cbv, well_kinded signatures_cafe hlog⟩

end

end Polled
