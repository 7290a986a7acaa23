import Mathlib.Data.List.Perm.Subperm
import Mathlib.Data.List.Infix
import Polled.Proofs.PairedParsing
import Polled.Generation

/-!
The order in which modules are found.

`BreadthFirst` says without a queue what a breadth-first order is: every name that can be reached stands
in it once, where it is first met when one writes down what each name asks for, name after name.
-/

namespace Polled

open List

variable {n file : Nat} {name : String} {t : FoundText} {tree : SourceModule} {seen : List String}
variable {ms : List BundleModule}

section Order

variable {α : Type} [DecidableEq α] (next : α → List α) (entry : α)

/-- The entry and all that the known names ask for, each where it is first met. -/
def met (known : List α) : List α := (entry :: known.flatMap next).eraseDups

/-- Every name that can be reached from the entry, once, in the order of a breadth-first search. -/
structure BreadthFirst (order : List α) : Prop where
  nodup : order.Nodup
  mem_iff : ∀ x, x ∈ order ↔ Relation.ReflTransGen (fun a b => b ∈ next a) entry x
  firstMet : order = met next entry order

variable {next entry}

theorem nodup_eraseDups (xs : List α) : xs.eraseDups.Nodup := by
  induction xs using reverseRecOn with
  | nil => simp
  | append_singleton xs x ih =>
    rw [eraseDups_append]
    by_cases hx : x ∈ xs
    · simpa [removeAll,hx] using ih
    · simpa [removeAll,hx,eraseDups_cons,nodup_append] using ⟨ih, fun y hy hxy => hx (hxy ▸ hy)⟩

theorem mem_met {known : List α} {x : α} :
    x ∈ met next entry known ↔ x = entry ∨ ∃ y ∈ known, x ∈ next y := by
  simp [met]

theorem met_isPrefix {known known' : List α} (h : known <+: known') :
    met next entry known <+: met next entry known' := by
  obtain ⟨_,rfl⟩ := h
  rw [met,met,flatMap_append,← cons_append,eraseDups_append]
  exact prefix_append _ _

theorem mem_of_met_eq {known : List α} (h : met next entry known = known) {x : α}
    (hx : Relation.ReflTransGen (fun a b => b ∈ next a) entry x) : x ∈ known := by
  induction hx with
  | refl =>
    rw [← h]
    exact mem_met.2 (.inl rfl)
  | tail _ hnext ih =>
    rw [← h]
    exact mem_met.2 (.inr ⟨_, ih, hnext⟩)

section

variable {order known : List α} (h : BreadthFirst next entry order) (hknown : known <+: order)

include h hknown

theorem BreadthFirst.met_isPrefix : met next entry known <+: order := by
  rw [h.firstMet]
  exact Polled.met_isPrefix hknown

theorem BreadthFirst.eq_of_met_eq (hmet : met next entry known = known) : known = order := by
  obtain ⟨more,rfl⟩ := hknown
  have hmore : more = [] := by
    refine eq_nil_iff_forall_not_mem.2 fun x hx => ?_
    have hreach := (h.mem_iff x).1 (mem_append_right known hx)
    exact (nodup_append.1 h.nodup).2.2 x (mem_of_met_eq hmet hreach) x hx rfl
  rw [hmore,append_nil]

end

variable (next entry)

/-- What is met in rounds, each of which asks all names of the round before. -/
def rounds : Nat → List α
  | 0 => []
  | n + 1 => met next entry (rounds n)

variable {next entry}

theorem rounds_isPrefix (n : Nat) : rounds next entry n <+: rounds next entry (n + 1) := by
  induction n with
  | zero => exact nil_prefix
  | succ n ih => exact met_isPrefix ih

theorem reached_of_mem_rounds {x : α} (hx : x ∈ rounds next entry n) :
    Relation.ReflTransGen (fun a b => b ∈ next a) entry x := by
  induction n generalizing x with
  | zero => exact absurd hx not_mem_nil
  | succ n ih =>
    obtain rfl | ⟨y,hy,hxy⟩ := mem_met.1 hx
    · exact .refl
    · exact (ih hy).tail hxy

theorem exists_rounds_eq {pool : List α} (hpool : ∀ x, ∀ y ∈ next x, y ∈ pool) :
    ∃ n, rounds next entry (n + 1) = rounds next entry n := by
  -- Otherwise each round is longer than the one before, yet none has more names than the pool and the
  -- entry.
  by_contra hgrow
  have hlong (n : Nat) : n ≤ (rounds next entry n).length := by
    induction n with
    | zero => exact Nat.zero_le _
    | succ n ih =>
      have hinit : rounds next entry n <+: rounds next entry (n + 1) := rounds_isPrefix n
      have hne : (rounds next entry n).length ≠ (rounds next entry (n + 1)).length :=
        fun hlength => hgrow ⟨n, (hinit.eq_of_length hlength).symm⟩
      have := hinit.length_le
      omega
  have hshort (n : Nat) : (rounds next entry n).length ≤ pool.length + 1 := by
    have hnodup : (rounds next entry n).Nodup := by
      cases n with
      | zero => exact nodup_nil
      | succ n => exact nodup_eraseDups _
    refine (subperm_of_subset hnodup fun x hx => ?_ : (rounds next entry n).Subperm
      (entry :: pool)).length_le
    cases n with
    | zero => exact absurd hx not_mem_nil
    | succ n =>
      obtain rfl | ⟨y,-,hxy⟩ := mem_met.1 hx
      · exact mem_cons_self
      · exact mem_cons_of_mem _ (hpool y x hxy)
  have := hlong (pool.length + 2)
  have := hshort (pool.length + 2)
  omega

theorem breadthFirst_rounds (hn : rounds next entry (n + 1) = rounds next entry n) :
    BreadthFirst next entry (rounds next entry n) := by
  refine ⟨?_, fun x => ⟨reached_of_mem_rounds, mem_of_met_eq hn⟩, hn.symm⟩
  rw [← hn]
  exact nodup_eraseDups _

theorem exists_breadthFirst {pool : List α} (hpool : ∀ x, ∀ y ∈ next x, y ∈ pool) :
    ∃ order, ∀ o, BreadthFirst next entry o ↔ o = order := by
  obtain ⟨n,hn⟩ : ∃ n, rounds next entry (n + 1) = rounds next entry n := exists_rounds_eq hpool
  refine ⟨rounds next entry n, fun o => ⟨fun ho => ?_, fun ho => ho ▸ breadthFirst_rounds hn⟩⟩
  have hinit (k : Nat) : rounds next entry k <+: o := by
    induction k with
    | zero => exact nil_prefix
    | succ k ih => exact ho.met_isPrefix ih
  exact (ho.eq_of_met_eq (hinit n) hn).symm

end Order

section Supply

variable (modules : List (String × String))

/-- The text of a module: that of the given modules, or else, for `std`, the one that comes with the
compiler. -/
def supplied (name : String) : Option FoundText :=
  match modules.lookup name with
  | some text => some ⟨moduleFile name, text⟩
  | none => if name = "std" then some ⟨"<std>", standardText⟩ else none

/-- What a module imports when it is read as the file with this number; nothing if it is missing or
cannot be read. -/
def importsAs (file : Nat) (name : String) : List (Located String) :=
  match supplied modules name with
  | none => []
  | some t =>
    match SourceModule.parse t.text.toList file with
    | .ok tree => tree.imports
    | .error _ => []

def importedBy (name : String) : List String := (importsAs modules 0 name).map (·.node)

def Loads (name : String) : Prop :=
  ∃ t tree, supplied modules name = some t ∧ SourceModule.parse t.text.toList 0 = .ok tree

/-- The first import of a name in the loaded modules, and the module in which it stands. -/
def firstImport (loaded : List String) (name : String) : Option (String × Span) :=
  loaded.zipIdx.findSome? fun y => ((importsAs modules y.2 y.1).find? (·.node == name)).map
    fun l => (y.1, l.span)

variable {modules}

theorem findOrEmbedded_memory (name : String) :
    (ModuleStore.memory modules).findOrEmbedded name = (pure (.ok (supplied modules name)) : Id _) := by
  simp only [ModuleStore.findOrEmbedded,ModuleStore.memory,supplied]
  cases modules.lookup name with
  | some text => rfl
  | none =>
    by_cases hname : name = "std"
    · subst hname
      rfl
    · simp only [embedded?,hname,if_false]
      rfl

theorem importsAs_of_parse (ht : supplied modules name = some t)
    (htree : SourceModule.parse t.text.toList file = .ok tree) :
    importsAs modules file name = tree.imports := by
  simp only [importsAs,ht,htree]

theorem exists_of_mem_importsAs {l : Located String} (h : l ∈ importsAs modules file name) :
    ∃ t tree, supplied modules name = some t ∧ SourceModule.parse t.text.toList file = .ok tree ∧
      l ∈ tree.imports := by
  rw [importsAs] at h
  split at h
  · exact absurd h not_mem_nil
  next t ht =>
  split at h
  · next tree htree => exact ⟨t, tree, ht, htree, h⟩
  · exact absurd h not_mem_nil

theorem map_node_importsAs (file : Nat) (name : String) :
    (importsAs modules file name).map (·.node) = importedBy modules name := by
  rw [importedBy,importsAs,importsAs]
  cases supplied modules name with
  | none => rfl
  | some t =>
    have hparse := SourceModule.parse_anywhere t.text.toList file 0
    simp only
    generalize SourceModule.parse t.text.toList file = x,
      SourceModule.parse t.text.toList 0 = y at hparse
    cases hparse with
    | ok h => exact map_node_eq h.imports
    | error h => rfl

theorem loads_iff (file : Nat) : Loads modules name ↔ ∃ t tree, supplied modules name = some t ∧
      SourceModule.parse t.text.toList file = .ok tree := by
  constructor
  · rintro ⟨t,tree,ht,htree⟩
    obtain ⟨tree',htree',-⟩ := SourceModule.exists_parse htree file
    exact ⟨t, tree', ht, htree'⟩
  · rintro ⟨t,_,ht,htree⟩
    obtain ⟨tree',htree',-⟩ := SourceModule.exists_parse htree 0
    exact ⟨t, tree', ht, htree'⟩

theorem loads_of_isOk (ht : supplied modules name = some t)
    (h : (SourceModule.parse t.text.toList 0).isOk = true) : Loads modules name := by
  cases htree : SourceModule.parse t.text.toList 0 with
  | error e =>
    rw [htree] at h
    cases h
  | ok tree => exact ⟨t, tree, ht, htree⟩

theorem mem_of_supplied (h : supplied modules name = some t) : name ∈ "std" :: modules.map (·.1) := by
  rw [supplied] at h
  cases hlookup : modules.lookup name with
  | some text =>
    obtain ⟨_,_,hmodules,-⟩ := lookup_eq_some_iff.1 hlookup
    simp [hmodules]
  | none =>
    simp only [hlookup] at h
    split at h
    · next hname => simp [hname]
    · cases h

/-- All that modules ever ask for stands in finitely many texts. -/
theorem exists_pool : ∃ pool : List String, ∀ x, ∀ y ∈ importedBy modules x, y ∈ pool := by
  refine ⟨("std" :: modules.map (·.1)).flatMap (importedBy modules), fun x y hy => ?_⟩
  obtain ⟨l,hl,-⟩ := mem_map.1 hy
  obtain ⟨t,-,ht,-⟩ := exists_of_mem_importsAs hl
  exact mem_flatMap.2 ⟨x, mem_of_supplied ht, hy⟩

theorem firstImport_concat (loaded : List String) (y name : String) :
    firstImport modules (loaded ++ [y]) name = (firstImport modules loaded name).or
      (((importsAs modules loaded.length y).find? (·.node == name)).map fun l => (y, l.span)) := by
  rw [firstImport,firstImport,zipIdx_append,findSome?_append]
  simp

theorem firstImport_eq_none {loaded : List String} (h : name ∉ loaded.flatMap (importedBy modules)) :
    firstImport modules loaded name = none := by
  rw [firstImport,findSome?_eq_none_iff]
  rintro ⟨y,file⟩ hy
  have hmem : y ∈ loaded := fst_mem_of_mem_zipIdx hy
  rw [Option.map_eq_none_iff,find?_eq_none]
  intro l hl hname
  refine h (mem_flatMap.2 ⟨y, hmem, ?_⟩)
  rw [← map_node_importsAs file]
  exact mem_map.2 ⟨l, hl, beq_iff_eq.1 hname⟩

end Supply

section Queue

/-- The imports that nobody has asked for, each once. -/
def fresh : List String → List (Located String) → List (Located String)
  | _, [] => []
  | seen, x :: xs => if seen.contains x.node then fresh seen xs else x :: fresh (x.node :: seen) xs

theorem enqueue_eq (importer : String) (xs : List (Located String)) (s : Loading) :
    Loading.enqueue importer xs s = { s with
      queue := s.queue ++ (fresh s.seen xs).map fun x => ⟨x.node, some (importer, x.span)⟩
      seen := ((fresh s.seen xs).map (·.node)).reverse ++ s.seen } := by
  induction xs generalizing s with
  | nil => simp [Loading.enqueue,fresh]
  | cons x xs ih =>
    rw [Loading.enqueue,fresh]
    split
    · exact ih s
    · rw [ih]
      simp

theorem map_node_fresh {known : List String} (h : ∀ x, x ∈ seen ↔ x ∈ known)
    (xs : List (Located String)) :
    (fresh seen xs).map (·.node) = ((xs.map (·.node)).removeAll known).eraseDups := by
  induction xs generalizing seen known with
  | nil => simp [fresh]
  | cons x xs ih =>
    rw [fresh,map_cons,cons_removeAll]
    by_cases hx : x.node ∈ known
    · simpa [hx,h] using ih h
    · have hrest : ((xs.map (·.node)).removeAll known).filter (fun y => !y == x.node) =
          (xs.map (·.node)).removeAll (x.node :: known) := by
        rw [removeAll,removeAll,filter_filter]
        refine filter_congr fun y _ => ?_
        rw [Bool.eq_iff_iff]
        simp
      have hseen : ∀ y, y ∈ x.node :: seen ↔ y ∈ x.node :: known := by simp [h]
      simp [hx,h,eraseDups_cons,hrest,ih hseen]

theorem find?_of_mem_fresh {xs : List (Located String)} {x : Located String} (h : x ∈ fresh seen xs) :
    x.node ∉ seen ∧ xs.find? (·.node == x.node) = some x := by
  induction xs generalizing seen with
  | nil => exact absurd h not_mem_nil
  | cons y ys ih =>
    rw [fresh] at h
    split at h
    · next hy =>
      obtain ⟨hx,hfind⟩ := ih h
      refine ⟨hx, ?_⟩
      have hne : (y.node == x.node) = false := by
        refine beq_eq_false_iff_ne.2 fun hyx => hx ?_
        simpa [hyx] using hy
      rw [find?_cons_of_neg (by simp [hne]),hfind]
    · next hy =>
      obtain rfl | h := mem_cons.1 h
      · exact ⟨by simpa using hy, find?_cons_of_pos (by simp)⟩
      · obtain ⟨hx,hfind⟩ := ih h
        rw [mem_cons,not_or] at hx
        refine ⟨hx.2, ?_⟩
        rw [find?_cons_of_neg (by simpa using Ne.symm hx.1),hfind]

end Queue

section Runs

variable (modules : List (String × String))

/-- Loading from given modules, at most `fuel` of them. -/
def Loading.load (fuel : Nat) (s : Loading) : Attempt (List BundleModule) :=
  Id.run (Loading.run (ModuleStore.memory modules).findOrEmbedded fuel s)

section Load

variable {modules} {s : Loading} {p : Pending} {rest : List Pending}

theorem load_of_nil (h : s.queue = []) (fuel : Nat) :
    s.load modules fuel = ⟨s.sources, s.log, .ok s.modules⟩ := by
  rw [Loading.load,Loading.run,h]
  rfl

theorem load_zero_of_cons (h : s.queue = p :: rest) : s.load modules 0 = s.stop p.missing := by
  rw [Loading.load,Loading.run,h]
  rfl

theorem load_succ_of_cons (h : s.queue = p :: rest) (fuel : Nat) :
    s.load modules (fuel + 1) = match supplied modules p.name with
      | none => s.stop p.missing
      | some t =>
        match { s with queue := rest }.accept p.name t with
        | (s', .error e) => s'.stop e
        | (s', .ok ()) => s'.load modules fuel := by
  rw [Loading.load,Loading.run,h]
  simp only [findOrEmbedded_memory,pure_bind]
  cases supplied modules p.name with
  | none => rfl
  | some t =>
    simp only
    obtain ⟨_,_ | _⟩ := { s with queue := rest }.accept p.name t <;> rfl

end Load

/-- The files of the modules, in this order. -/
def Sources.Hold (sources : Sources) (names : List String) : Prop :=
  Forall₂ (fun name file => file.name = name ∧ supplied modules name = some ⟨file.path, file.text⟩) names
    sources.files

/-- The modules in this order, numbered from zero, each with the tree of its text. -/
structure LoadedAs (names : List String) (ms : List BundleModule) (sources : Sources) : Prop where
  files : ms.map (·.file) = List.range names.length
  trees : Forall₂ (fun name m => m.name = name ∧
    ∃ t, supplied modules name = some t ∧ SourceModule.parse t.text.toList m.file = .ok m.tree) names ms
  sources : sources.Hold modules names

/-- The state when the loaded modules have been read. -/
structure Loading.After (entry : String) (loaded : List String) (s : Loading) : Prop where
  known : loaded ++ s.queue.map (·.name) = met (importedBy modules) entry loaded
  seen : ∀ x, x ∈ s.seen ↔ x ∈ loaded ++ s.queue.map (·.name)
  importer : ∀ p ∈ s.queue, p.importer = firstImport modules loaded p.name ∧
    (loaded ≠ [] → p.importer.isSome)
  held : LoadedAs modules loaded s.modules s.sources

/-- What happens next: loading ends, it fails, or one more module is read. -/
inductive Loading.Next (entry : String) (loaded : List String) (s : Loading) : Prop
  | ended (hq : s.queue = []) (h : ∀ fuel, s.load modules fuel = ⟨s.sources, s.log, .ok s.modules⟩)
  | missing {p : Pending} {rest : List Pending} (hq : s.queue = p :: rest)
      (hp : supplied modules p.name = none)
    (h : ∀ fuel, s.load modules (fuel + 1) = s.stop p.missing)
  | faulty {p : Pending} {rest : List Pending} {t : FoundText} {e : CompileError}
      (hq : s.queue = p :: rest)
    (hp : supplied modules p.name = some t)
      (he : SourceModule.parse t.text.toList loaded.length = .error e)
    (h : ∀ fuel, s.load modules (fuel + 1) = ⟨s.sources.add ⟨p.name, t.path, t.text⟩, s.log, .error e⟩)
  | goesOn {p : Pending} {rest : List Pending} {s' : Loading} (hq : s.queue = p :: rest)
    (h' : s'.After modules entry (loaded ++ [p.name])) (h : ∀ fuel, s.load modules (fuel + 1) =
      s'.load modules fuel)

variable {modules}

theorem LoadedAs.concat {loaded : List String} {ms : List BundleModule} {sources : Sources}
    (h : LoadedAs modules loaded ms sources) {name : String} {t : FoundText} {tree : SourceModule}
    (ht : supplied modules name = some t)
    (htree : SourceModule.parse t.text.toList loaded.length = .ok tree) :
    LoadedAs modules (loaded ++ [name]) (ms ++ [⟨name, loaded.length, tree⟩])
      (sources.add ⟨name, t.path, t.text⟩) where
  files := by simp [h.files,range_succ]
  trees := rel_append h.trees (.cons ⟨rfl, t, ht, htree⟩ .nil)
  sources := rel_append h.sources (.cons ⟨rfl, ht⟩ .nil)

theorem LoadedAs.loads {names : List String} {sources : Sources}
    (h : LoadedAs modules names ms sources) {x : String} (hx : x ∈ names) : Loads modules x := by
  obtain ⟨i,hi,rfl⟩ := mem_iff_getElem.1 hx
  obtain ⟨-,t,ht,htree⟩ := h.trees.get hi (h.trees.length_eq ▸ hi)
  exact (loads_iff _).2 ⟨t, _, ht, htree⟩

theorem after_start (entry : String) : (Loading.start entry).After modules entry [] where
  known := by simp [Loading.start,met,eraseDups_cons]
  seen := by simp [Loading.start]
  importer := by simp [Loading.start,firstImport]
  held := ⟨rfl, .nil, .nil⟩

theorem met_concat (loaded : List String) (name entry : String) :
    met (importedBy modules) entry (loaded ++ [name]) = met (importedBy modules) entry loaded ++
      ((importedBy modules name).removeAll
        (entry :: loaded.flatMap (importedBy modules))).eraseDups := by
  rw [met,met,flatMap_append,← cons_append,eraseDups_append]
  simp

namespace Loading.After

variable {entry : String} {loaded : List String} {s : Loading} {p : Pending} {rest : List Pending}

section

variable (h : s.After modules entry loaded)

include h

theorem size_eq : s.sources.size = loaded.length := h.held.sources.length_eq.symm

theorem mem_seen (x : String) : x ∈ s.seen ↔ x ∈ entry :: loaded.flatMap (importedBy modules) := by
  rw [h.seen,h.known,met,mem_eraseDups]

theorem isSome_of_mem_rest (hq : s.queue = p :: rest) {q : Pending} (hrest : q ∈ rest) :
    q.importer = firstImport modules loaded q.name ∧ q.importer.isSome := by
  have hmem : q ∈ s.queue := hq ▸ mem_cons_of_mem p hrest
  refine ⟨(h.importer q hmem).1, (h.importer q hmem).2 fun hnil => ?_⟩
  -- With nothing loaded only the entry has been met, and that is `p`.
  have hone := congrArg List.length h.known
  rw [hnil,hq] at hone
  simp only [met,flatMap_nil,eraseDups_cons,filter_nil,eraseDups_nil,nil_append,
    map_cons,length_cons,length_map,length_nil] at hone
  rw [eq_nil_of_length_eq_zero (Nat.succ.inj hone)] at hrest
  exact not_mem_nil hrest

theorem accept (hq : s.queue = p :: rest) (ht : supplied modules p.name = some t)
    (htree : SourceModule.parse t.text.toList loaded.length = .ok tree) :
    ∃ s', { s with queue := rest }.accept p.name t = (s', .ok ()) ∧
      s'.After modules entry (loaded ++ [p.name]) := by
  have himports : tree.imports.map (·.node) = importedBy modules p.name := by
    rw [← importsAs_of_parse ht htree,map_node_importsAs]
  have hfresh : (fresh s.seen tree.imports).map (·.node) =
      ((importedBy modules p.name).removeAll
        (entry :: loaded.flatMap (importedBy modules))).eraseDups := by
    rw [map_node_fresh h.mem_seen,himports]
  have hnames : (loaded ++ [p.name]) ++ rest.map (·.name) = loaded ++ s.queue.map (·.name) := by
    simp [hq]
  simp only [Loading.accept,h.size_eq,htree,enqueue_eq]
  refine ⟨_, rfl, ?_, ?_, ?_, h.held.concat ht htree⟩
  · simp only [map_append,map_map,Function.comp_def]
    rw [← append_assoc,hnames,h.known,hfresh,met_concat]
  · intro x
    simp only [map_append,map_map,Function.comp_def]
    rw [← append_assoc,hnames,mem_append,mem_reverse,mem_append,h.seen,or_comm]
  · intro q hmem
    rw [firstImport_concat]
    -- What waited before keeps its importer. What is new was not seen, so no earlier module imports it.
    obtain hrest | hnew := mem_append.1 hmem
    · obtain ⟨himporter,hsome⟩ := h.isSome_of_mem_rest hq hrest
      rw [← himporter,Option.or_of_isSome hsome]
      exact ⟨rfl, fun _ => hsome⟩
    · obtain ⟨l,hl,rfl⟩ := mem_map.1 hnew
      obtain ⟨hseen,hfind⟩ := find?_of_mem_fresh hl
      have hnone : firstImport modules loaded l.node = none :=
        firstImport_eq_none fun hmem => hseen ((h.mem_seen _).2 (mem_cons_of_mem _ hmem))
      simp [hnone,importsAs_of_parse ht htree,hfind]

theorem length_le : loaded.length ≤ modules.length + 1 := by
  have hnodup : loaded.Nodup := by
    have hmet := nodup_eraseDups (entry :: loaded.flatMap (importedBy modules))
    rw [← met,← h.known] at hmet
    exact (nodup_append.1 hmet).1
  have hsubset : loaded ⊆ "std" :: modules.map (·.1) := by
    intro x hx
    obtain ⟨t,_,ht,-⟩ := h.held.loads hx
    exact mem_of_supplied ht
  simpa using (subperm_of_subset hnodup hsubset).length_le

theorem next : s.Next modules entry loaded := by
  cases hq : s.queue with
  | nil => exact .ended hq (load_of_nil hq)
  | cons p rest =>
    have hload := @load_succ_of_cons modules s p rest hq
    cases hp : supplied modules p.name with
    | none => exact .missing hq hp fun fuel => by rw [hload,hp]
    | some t =>
      cases htree : SourceModule.parse t.text.toList loaded.length with
      | error e =>
        refine .faulty hq hp htree fun fuel => ?_
        simp only [hload,hp,Loading.accept,h.size_eq,htree]
        rfl
      | ok tree =>
        obtain ⟨_,hs,h'⟩ := h.accept hq hp htree
        exact .goesOn hq h' fun fuel => by simp only [hload,hp,hs]

theorem load_succ (fuel : Nat) (hfuel : modules.length + 2 ≤ loaded.length + fuel) :
    s.load modules (fuel + 1) = s.load modules fuel := by
  induction fuel generalizing s loaded with
  | zero =>
    have := h.length_le
    omega
  | succ fuel ih =>
    cases h.next with
    | ended _ hload | missing _ _ hload | faulty _ _ _ hload => rw [hload,hload]
    | goesOn _ h' hload =>
      rw [hload,hload]
      refine ih h' ?_
      rw [length_append,length_singleton]
      omega

end

end Loading.After

variable (modules) in
/-- Where loading ends, told along the breadth-first order: with all modules, or with the first that is
missing or cannot be read. -/
inductive LoadsTo (order : List String) : Attempt (List BundleModule) → Prop
  | complete {ms : List BundleModule} {sources : Sources} {log : List Event}
      (h : LoadedAs modules order ms sources) :
    LoadsTo order ⟨sources, log, .ok ms⟩
  | missing {before after : List String} {x : String} {sources : Sources} {log : List Event}
    (horder : order = before ++ x :: after) (hbefore : ∀ y ∈ before, Loads modules y)
      (hx : supplied modules x = none)
    (hsources : sources.Hold modules before) :
    LoadsTo order ⟨sources, log, .error (Pending.missing ⟨x, firstImport modules before x⟩)⟩
  | faulty {before after : List String} {x : String} {t : FoundText} {e : CompileError}
      {sources : Sources}
    {log : List Event} (horder : order = before ++ x :: after) (hbefore : ∀ y ∈ before, Loads modules y)
    (hx : supplied modules x = some t) (he : SourceModule.parse t.text.toList before.length = .error e)
    (hsources : sources.Hold modules (before ++ [x])) : LoadsTo order ⟨sources, log, .error e⟩

variable {entry : String} {order loaded : List String} {s : Loading}

theorem Loading.After.loadsTo (horder : BreadthFirst (importedBy modules) entry order)
    (h : s.After modules entry loaded) (hinit : loaded <+: order) (fuel : Nat)
    (hfuel : modules.length + 2 ≤ loaded.length + fuel) :
    LoadsTo modules order (s.load modules fuel) := by
  induction fuel generalizing s loaded with
  | zero =>
    have := h.length_le
    omega
  | succ fuel ih =>
    -- The loaded names and the queue are a start of the order, so whatever is next in the queue is next
    -- in the order.
    have hmet : loaded ++ s.queue.map (·.name) <+: order := by
      rw [h.known]
      exact horder.met_isPrefix hinit
    have hbefore : ∀ y ∈ loaded, Loads modules y := fun _ => h.held.loads
    cases h.next with
    | ended hq hload =>
      have hknown := h.known
      rw [hq,map_nil,append_nil] at hknown
      rw [hload,← horder.eq_of_met_eq hinit hknown.symm]
      exact .complete h.held
    | @missing p _ hq hp hload =>
      obtain ⟨after,hafter⟩ := hmet
      rw [hq,map_cons,append_assoc,cons_append] at hafter
      rw [hload,Loading.stop]
      have himporter : p = ⟨p.name, firstImport modules loaded p.name⟩ := by
        rw [← (h.importer p (by simp [hq])).1]
      rw [himporter]
      exact .missing hafter.symm hbefore hp h.held.sources
    | faulty hq hp he hload =>
      obtain ⟨_,hafter⟩ := hmet
      rw [hq,map_cons,append_assoc,cons_append] at hafter
      rw [hload]
      exact .faulty hafter.symm hbefore hp he (rel_append h.held.sources (.cons ⟨rfl, hp⟩ .nil))
    | goesOn hq h' hload =>
      rw [hload]
      refine ih h' ?_ ?_
      · refine List.IsPrefix.trans ?_ hmet
        simp [hq]
      · rw [length_append,length_singleton]
        omega

theorem load_of_le {fuel : Nat} (hfuel : modules.length + 2 ≤ fuel) :
    (Loading.start entry).load modules fuel =
      (Loading.start entry).load modules (modules.length + 2) := by
  induction fuel, hfuel using Nat.le_induction with
  | base => rfl
  | succ fuel hfuel ih => rw [(after_start entry).load_succ fuel (by simpa using hfuel),ih]

theorem exists_loadsTo (modules : List (String × String)) (entry : String) :
    ∃ order, (∀ o, BreadthFirst (importedBy modules) entry o ↔ o = order) ∧
      LoadsTo modules order ((Loading.start entry).load modules (modules.length + 2)) := by
  obtain ⟨_,hpool⟩ := @exists_pool modules
  obtain ⟨order,horder⟩ : ∃ order, ∀ o, BreadthFirst (importedBy modules) entry o ↔ o = order :=
    exists_breadthFirst hpool
  refine ⟨order, horder, ?_⟩
  exact (after_start entry).loadsTo ((horder order).2 rfl) nil_prefix _ (by simp)

namespace LoadsTo

variable {a : Attempt (List BundleModule)}

theorem loadedAs (h : LoadsTo modules order a) (hms : a.outcome = .ok ms) :
    LoadedAs modules order ms a.sources := by
  cases h with
  | complete h =>
    cases hms
    exact h
  | missing | faulty => cases hms

theorem exists_before (h : LoadsTo modules order a) {e : CompileError} (he : a.outcome = .error e) :
    ∃ before x after, order = before ++ x :: after ∧ (∀ y ∈ before, Loads modules y) ∧
      (supplied modules x = none ∧ e = Pending.missing ⟨x, firstImport modules before x⟩ ∧
        a.sources.Hold modules before ∨ ∃ t, supplied modules x = some t ∧
          SourceModule.parse t.text.toList before.length = .error e ∧
          a.sources.Hold modules (before ++ [x])) := by
  cases h with
  | complete => cases he
  | missing horder hbefore hx hsources =>
    cases he
    exact ⟨_, _, _, horder, hbefore, .inl ⟨hx, rfl, hsources⟩⟩
  | faulty horder hbefore hx hparse hsources =>
    cases he
    exact ⟨_, _, _, horder, hbefore, .inr ⟨_, hx, hparse, hsources⟩⟩

theorem exists_ok_iff (h : LoadsTo modules order a) :
    (∃ ms, a.outcome = .ok ms) ↔ ∀ x ∈ order, Loads modules x := by
  refine ⟨fun ⟨ms, hms⟩ x => (h.loadedAs hms).loads, fun hall => ?_⟩
  cases houtcome : a.outcome with
  | ok ms => exact ⟨ms, rfl⟩
  | error e =>
    obtain ⟨before,x,_,rfl,-,hx⟩ := h.exists_before houtcome
    obtain ⟨t,_,ht,htree⟩ := (loads_iff before.length).1 (hall x (by simp))
    obtain ⟨hx,-,-⟩ | ⟨u,hu,he,-⟩ := hx
    · cases hx.symm.trans ht
    · cases hu.symm.trans ht
      cases he.symm.trans htree

end LoadsTo

end Runs

/-- Loading follows the imports, breadth first. It ends by itself. It succeeds exactly if every module
that can be reached is supplied and can be read, and then holds each of them once, in this order,
numbered as its file. Otherwise it fails at the first module that is missing or cannot be read, and holds
the files up to there. Where no `std` is given, the one that comes with the compiler is supplied as the
file `<std>`. -/
theorem loadBundle_memory (modules : List (String × String)) (entry : String) :
    let load := Id.run (loadBundle (.memory modules) entry)
    ∃ order : List String, (∀ o, BreadthFirst (importedBy modules) entry o ↔ o = order) ∧
      (∀ fuel, modules.length + 2 ≤ fuel →
        let a := (Loading.start entry).load modules fuel
        load = { a with outcome := a.outcome.map fun ms => ⟨entry, ms⟩ }) ∧
      ((∃ b, load.outcome = .ok b) ↔
        ∀ x, Relation.ReflTransGen (fun a b => b ∈ importedBy modules a) entry x → Loads modules x) ∧
      (∀ b, load.outcome = .ok b → b.entry = entry ∧ LoadedAs modules order b.modules load.sources) ∧
      ∀ e, load.outcome = .error e → ∃ before x after, order = before ++ x :: after ∧
        (∀ y ∈ before, Loads modules y) ∧
        (supplied modules x = none ∧ e = Pending.missing ⟨x, firstImport modules before x⟩ ∧
            load.sources.Hold modules before ∨
          ∃ t, supplied modules x = some t ∧ SourceModule.parse t.text.toList before.length = .error e ∧
            load.sources.Hold modules (before ++ [x])) := by
  intro load
  obtain ⟨order,horder,hloads⟩ := exists_loadsTo modules entry
  have hmem := ((horder order).2 rfl).mem_iff
  let a := (Loading.start entry).load modules (modules.length + 2)
  have hload : load = { a with outcome := a.outcome.map fun ms => ⟨entry, ms⟩ } := rfl
  refine ⟨order, horder, fun fuel hfuel => by simp only [load_of_le hfuel,hload,a], ?_⟩
  cases houtcome : a.outcome with
  | ok ms =>
    have hall := hloads.exists_ok_iff.1 ⟨ms, houtcome⟩
    have hok : load.outcome = .ok ⟨entry, ms⟩ := by simp only [hload,houtcome,Except.map]
    refine ⟨⟨fun _ x hx => hall x ((hmem x).2 hx), fun _ => ⟨_, hok⟩⟩, fun b hb => ?_, fun e he => ?_⟩
    · cases hok.symm.trans hb
      exact ⟨rfl, hloads.loadedAs houtcome⟩
    · cases hok.symm.trans he
  | error e =>
    have herror : load.outcome = .error e := by simp only [hload,houtcome,Except.map]
    refine ⟨⟨fun ⟨b, hb⟩ => absurd (herror.symm.trans hb) nofun, fun hall => ?_⟩, fun b hb => ?_,
      fun e' he' => ?_⟩
    · obtain ⟨_,hms⟩ := hloads.exists_ok_iff.2 fun x hx => hall x ((hmem x).1 hx)
      cases houtcome.symm.trans hms
    · cases herror.symm.trans hb
    · cases herror.symm.trans he'
      exact hloads.exists_before houtcome

/-- Modules that import each other, and one that is not there. -/
def circle : List (String × String) :=
  [("main", "import b import c"), ("b", "import main import c"), ("c", "import gone import c import b")]

/-- A module that imports `std` and does not bring it along. -/
def greeting : List (String × String) :=
  [("main", "import std func main(): Integer \x7b return len(\"hi\") \x7d")]

/-- Brings its own `std` along, which imports the other module. -/
def shadowing : List (String × String) := ("std", "import main") :: greeting

theorem breadthFirst_circle : BreadthFirst (importedBy circle) "main" ["main", "b", "c", "gone"] := by
  have hrounds : rounds (importedBy circle) "main" 3 = ["main", "b", "c", "gone"] := by decide +kernel
  rw [← hrounds]
  exact breadthFirst_rounds (by decide +kernel)

theorem breadthFirst_shadowing : BreadthFirst (importedBy shadowing) "main" ["main", "std"] := by
  have hrounds : rounds (importedBy shadowing) "main" 2 = ["main", "std"] := by decide +kernel
  rw [← hrounds]
  exact breadthFirst_rounds (by decide +kernel)

theorem exists_parse_standardText :
    ∃ tree, SourceModule.parse standardText.toList 0 = .ok tree ∧ tree.imports = [] := by
  have himports : (SourceModule.parse standardText.toList 0).toOption.any
      (·.imports.isEmpty) = true := by
    -- line by line, as the characters of the whole text take long to find
    generalize htext : standardText.toList = cs
    delta standardText at htext
    simp only [String.toList_append] at htext
    subst htext
    decide +kernel
  generalize SourceModule.parse standardText.toList 0 = parsed at himports ⊢
  cases parsed with
  | error e => cases himports
  | ok tree => exact ⟨tree, rfl, by simpa [Except.toOption] using himports⟩

theorem breadthFirst_greeting : BreadthFirst (importedBy greeting) "main" ["main", "std"] := by
  obtain ⟨_,htree,himports⟩ := exists_parse_standardText
  have hmain : importedBy greeting "main" = ["std"] := by decide +kernel
  have hstd : importedBy greeting "std" = [] := by
    rw [importedBy,importsAs_of_parse (t := ⟨"<std>", standardText⟩) rfl htree,himports,map_nil]
  have hrounds : rounds (importedBy greeting) "main" 2 = ["main", "std"] := by
    simp [rounds,met,hmain,eraseDups_cons]
  rw [← hrounds]
  exact breadthFirst_rounds (by simp [rounds,met,hmain,hstd,eraseDups_cons])

theorem std_loadBundle_memory : (∃ b, (Id.run (loadBundle (.memory greeting) "main")).outcome = .ok b ∧
        LoadedAs greeting ["main", "std"] b.modules
          (Id.run (loadBundle (.memory greeting) "main")).sources) ∧
      supplied greeting "std" = some ⟨"<std>", standardText⟩ ∧
      (∃ b, (Id.run (loadBundle (.memory shadowing) "main")).outcome = .ok b ∧
        LoadedAs shadowing ["main", "std"] b.modules
          (Id.run (loadBundle (.memory shadowing) "main")).sources) ∧
      supplied shadowing "std" = some ⟨"std.ht", "import main"⟩ ∧
      ∃ e, (Id.run (loadBundle (.memory circle) "main")).outcome = .error e ∧
        ∃ before x after, ["main", "b", "c", "gone"] = before ++ x :: after ∧
          (∀ y ∈ before, Loads circle y) ∧
            (supplied circle x = none ∧ e = Pending.missing ⟨x, firstImport circle before x⟩ ∧
              (Id.run (loadBundle (.memory circle) "main")).sources.Hold circle before ∨
            ∃ t, supplied circle x = some t ∧ SourceModule.parse t.text.toList before.length = .error e ∧
              (Id.run (loadBundle (.memory circle) "main")).sources.Hold circle (before ++ [x])) := by
  have hloaded {modules : List (String × String)} {order : List String}
      (horder : BreadthFirst (importedBy modules) "main" order) (hall : ∀ x ∈ order, Loads modules x) :
      ∃ b, (Id.run (loadBundle (.memory modules) "main")).outcome = .ok b ∧
        LoadedAs modules order b.modules (Id.run (loadBundle (.memory modules) "main")).sources := by
    obtain ⟨_,horder',-,hok,hloaded,-⟩ := loadBundle_memory modules "main"
    obtain rfl := (horder' _).1 horder
    obtain ⟨b,hb⟩ := hok.2 fun x hx => hall x ((horder.mem_iff x).2 hx)
    exact ⟨b, hb, (hloaded b hb).2⟩
  refine ⟨hloaded breadthFirst_greeting ?_, rfl, hloaded breadthFirst_shadowing ?_, rfl, ?_⟩
  · obtain ⟨tree,htree,-⟩ := exists_parse_standardText
    simp only [mem_cons,not_mem_nil,or_false,forall_eq_or_imp,forall_eq]
    exact ⟨loads_of_isOk rfl (by decide +kernel), _, tree, rfl, htree⟩
  · simp only [mem_cons,not_mem_nil,or_false,forall_eq_or_imp,forall_eq]
    exact ⟨loads_of_isOk rfl (by decide +kernel), loads_of_isOk rfl (by decide +kernel)⟩
  · obtain ⟨_,horder,-,-,-,hfails⟩ := loadBundle_memory circle "main"
    obtain rfl := (horder _).1 breadthFirst_circle
    have hfailed : (Id.run (loadBundle (.memory circle) "main")).outcome.isOk = false := by
      decide +kernel
    cases he : (Id.run (loadBundle (.memory circle) "main")).outcome with
    | ok b =>
      rw [he] at hfailed
      cases hfailed
    | error e => exact ⟨e, rfl, hfails e he⟩

end Polled
