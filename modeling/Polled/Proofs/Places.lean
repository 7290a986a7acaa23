import Polled.FileTree
import Polled.Output

/-!
Where paths lead in a tree.

A path that ends with the name of a file leads to a place with this name at its end, or it is refused.
Which place that is depends on nothing but the directories of the tree (`place?_congr`), so it stays the
same while files are written, moved and removed.
-/

namespace Polled

open List

theorem pieces_append_cut (cut : Char) (a b : List Char) :
    pieces cut (a ++ cut :: b) = pieces cut a ++ pieces cut b := by
  induction a with
  | nil => simp [pieces]
  | cons c a ih =>
    by_cases hc : c = cut
    · simp [pieces,hc,ih]
    · cases ha : pieces cut a with
      | nil => exact absurd ha (pieces_ne_nil cut a)
      | cons s rest => simp [pieces,hc,ih,ha]

theorem pieces_of_notMem {cut : Char} {a : List Char} (h : cut ∉ a) : pieces cut a = [a] := by
  induction a with
  | nil => simp [pieces]
  | cons c a ih =>
    simp only [mem_cons,not_or] at h
    simp [pieces,ih h.2,Ne.symm h.1]

namespace Path

/-- A segment that is neither idle nor leads up. -/
def isFileName (s : String) : Bool := !s.toList.contains '/' && s.toList.getLast?.any (· != '.')

/-- The path ends with the name of a file. -/
def Names (p : Path) (s : String) : Prop := isFileName s = true ∧ ∃ front, p.segments = front ++ [s]

variable {p dir : Path} {s : String}

theorem noSlash (h : isFileName s = true) : '/' ∉ s.toList := by
  simp only [isFileName,Bool.and_eq_true,Bool.not_eq_true',contains_eq_mem,decide_eq_false_iff_not] at h
  exact h.1

theorem isFileName_append {ending : String} (hs : '/' ∉ s.toList) (h : isFileName ending = true) :
    isFileName (s ++ ending) = true := by
  have hslash := noSlash h
  simp only [isFileName,Bool.and_eq_true,Option.any_eq_true] at h
  obtain ⟨-,c,hc,hdot⟩ := h
  simp [isFileName,hs,hslash,hc,hdot]

theorem isFileName_ne (h : isFileName s = true) : isIdle s = false ∧ s ≠ ".." := by
  refine ⟨?_, ?_⟩
  · simp only [isIdle,Bool.or_eq_false_iff,beq_eq_false_iff_ne,ne_eq]
    constructor <;> rintro rfl <;> simp [isFileName] at h
  · rintro rfl
    simp [isFileName] at h

theorem names_file (h : isFileName s = true) (dir : Path) : (dir.file s).Names s := by
  refine ⟨h, ?_⟩
  have hs := noSlash h
  have hplain : isAbsolute ⟨s⟩ = false := by
    cases hc : s.toList with
    | nil => simp [isAbsolute,hc]
    | cons c cs => simpa [isAbsolute,hc] using fun heq => hs (by simp [hc,heq])
  have hbehind (before : List Char) : (pieces '/' (before ++ '/' :: s.toList)).map String.ofList =
      (pieces '/' before).map String.ofList ++ [s] := by
    simp [pieces_append_cut,pieces_of_notMem hs]
  rw [file,join,if_neg (by simp [hplain])]
  split
  · next hend =>
    simp only [Bool.or_eq_true,String.isEmpty_iff,beq_iff_eq] at hend
    rcases hend with hempty | hslash
    · exact ⟨[], by simp [segments,hempty,pieces_of_notMem hs]⟩
    · obtain ⟨before,hbefore⟩ := getLast?_eq_some_iff.1 hslash
      exact ⟨_, by simpa [segments,hbefore] using hbehind before⟩
  · exact ⟨_, by simpa [segments] using hbehind dir.text.toList⟩

theorem Names.fileName? (h : p.Names s) : p.fileName? = some s := by
  obtain ⟨hs,front,hfront⟩ := h
  obtain ⟨hcounts,hdown⟩ := isFileName_ne hs
  rw [Path.fileName?,spine,hfront]
  cases front <;> simp [hcounts,hdown]

theorem Names.staging (h : p.Names s) : p.staging.Names (s ++ ".tmp") := by
  rw [Path.staging,withFileName,h.fileName?]
  exact names_file (isFileName_append (noSlash h.1) (by decide)) _

end Path

namespace FileTree

open Polled.Path

variable {t t' u : FileTree} {a q r : Place} {p : Path} {s : String} {l : List String}

theorem lookup_filter_bne (nodes : List (Place × FileNode)) (p q : Place) :
    (nodes.filter fun n => n.1 != p).lookup q = if q = p then none else nodes.lookup q := by
  induction nodes with
  | nil => simp
  | cons n nodes ih =>
    obtain ⟨r,_⟩ := n
    by_cases hr : r = p <;> by_cases hq : q = r <;> grind

theorem node?_erase (hq : q ≠ []) (r : Place) :
    (t.erase q).node? r = if r = q then none else t.node? r := by
  by_cases hr : r = []
  · simp [node?,hr,Ne.symm hq]
  · simp [node?,erase,hr,lookup_filter_bne]

theorem node?_insert (hq : q ≠ []) (n : FileNode) (r : Place) :
    (t.insert q n).node? r = if r = q then some n else t.node? r := by
  by_cases hr : r = []
  · simp [node?,hr,Ne.symm hq]
  · by_cases hrq : r = q
    · simp [node?,insert,hq,hrq]
    · have hb : (r == q) = false := by simpa using hrq
      simp [node?,insert,erase,hr,hrq,List.lookup_cons,hb,lookup_filter_bne]

/-- Directories stay, and paths start at the same place. -/
structure KeepsDirectories (t t' : FileTree) : Prop where
  here : t'.here = t.here
  directory : ∀ q, t.node? q = some .directory → t'.node? q = some .directory

/-- The directories are the same, and paths start at the same place. -/
structure SameDirectories (t t' : FileTree) : Prop extends t.KeepsDirectories t' where
  back : ∀ q, t'.node? q = some .directory → t.node? q = some .directory

theorem SameDirectories.refl (t : FileTree) : t.SameDirectories t := ⟨⟨rfl, fun _ => id⟩, fun _ => id⟩

theorem SameDirectories.symm (h : t.SameDirectories t') : t'.SameDirectories t :=
  ⟨⟨h.here.symm, h.back⟩, h.directory⟩

theorem SameDirectories.trans (h : t.SameDirectories t') (h' : t'.SameDirectories u) :
    t.SameDirectories u :=
  ⟨⟨h'.here.trans h.here, fun q hq => h'.directory q (h.directory q hq)⟩,
    fun q hq => h.back q (h'.back q hq)⟩

/-- The directory to which a segment leads from another. -/
def enter? (t : FileTree) (a : Place) (s : String) : Option Place :=
  if isIdle s then some a
  else if s = ".." then some a.dropLast
  else if s.utf8ByteSize ≤ maxName ∧ t.node? (a ++ [s]) = some .directory then some (a ++ [s])
  else none

theorem enter?_keep (h : t.KeepsDirectories t') (he : t.enter? a s = some q) :
    t'.enter? a s = some q := by
  unfold enter? at he ⊢
  split at he
  · simp_all
  · split at he
    · simp_all
    · split at he
      · next hnode =>
        cases he
        simp_all [h.directory _ hnode.2]
      · cases he

theorem follow_cons : t.follow a (s :: l) = match t.enter? a s with
    | some b => t.follow b l
    | none =>
      if maxName < s.utf8ByteSize then .error .nameTooLong
      else if l.all (· == "") then .ok ⟨a ++ [s], t.node? (a ++ [s]), !l.isEmpty⟩
      else .error (if (t.node? (a ++ [s])).isSome then .notDirectory else .notFound) := by
  rw [follow,enter?]
  by_cases hidle : isIdle s = true
  · simp [hidle]
  · by_cases hup : s = ".."
    · have hcounts : isIdle ".." = false := rfl
      simp [hup,hcounts]
    · by_cases hlong : maxName < s.utf8ByteSize
      · have hshort : ¬ s.utf8ByteSize ≤ maxName := by omega
        simp [hidle,hup,hlong,hshort]
      · have hshort : s.utf8ByteSize ≤ maxName := by omega
        cases hnode : t.node? (a ++ [s]) with
        | none => simp [hidle,hup,hlong,hnode]
        | some n => cases n <;> simp [hidle,hup,hlong,hshort,hnode]

/-- Only the last name may lead to no directory. -/
theorem follow_eq_ok {x : Target} (he : t.enter? a s = none) (h : t.follow a (s :: l) = .ok x) :
    x = ⟨a ++ [s], t.node? (a ++ [s]), !l.isEmpty⟩ ∧ s.utf8ByteSize ≤ maxName ∧ (∀ u ∈ l, u = "") ∧
      t.node? (a ++ [s]) ≠ some .directory := by
  rw [follow_cons,he] at h
  dsimp only at h
  split at h
  · cases h
  · next hshort =>
    split at h
    · next hlast =>
      refine ⟨(Except.ok.inj h).symm, by omega, by simpa using hlast, fun hdir => ?_⟩
      unfold enter? at he
      split at he
      · cases he
      · split at he
        · cases he
        · simp [hdir] at he
          omega
    · cases h

theorem follow_empty (h : ∀ u ∈ l, u = "") : t.follow a l = .ok ⟨a, some .directory, false⟩ := by
  induction l with
  | nil => rfl
  | cons s l ih =>
    obtain rfl := h s mem_cons_self
    exact ih fun u hu => h u (mem_cons_of_mem _ hu)

theorem follow_keep {slashed : Bool} (h : t.KeepsDirectories t')
    (hf : t.follow a l = .ok ⟨q, some .directory, slashed⟩) :
    t'.follow a l = .ok ⟨q, some .directory, slashed⟩ := by
  induction l generalizing a with
  | nil => exact hf
  | cons s l ih =>
    cases he : t.enter? a s with
    | some b =>
      rw [follow_cons,he] at hf
      rw [follow_cons,enter?_keep h he]
      exact ih hf
    | none =>
      obtain ⟨hx,-,-,hdir⟩ := follow_eq_ok he hf
      simp only [Target.mk.injEq] at hx
      exact absurd hx.2.1.symm hdir

/-- Where nothing is found, a directory can be put. -/
theorem follow_of_none {slashed : Bool} (hf : t.follow a l = .ok ⟨q, none, slashed⟩) :
    q ≠ [] ∧ t.node? q = none ∧ ∀ t' : FileTree, t.KeepsDirectories t' → t'.node? q = some .directory →
      t'.follow a l = .ok ⟨q, some .directory, false⟩ := by
  induction l generalizing a with
  | nil => cases hf
  | cons s l ih =>
    cases he : t.enter? a s with
    | some b =>
      rw [follow_cons,he] at hf
      obtain ⟨hne,hnone,hgrown⟩ := ih hf
      refine ⟨hne, hnone, fun t' h hq => ?_⟩
      rw [follow_cons,enter?_keep h he]
      exact hgrown t' h hq
    | none =>
      obtain ⟨hx,hshort,hempty,-⟩ := follow_eq_ok he hf
      simp only [Target.mk.injEq] at hx
      obtain ⟨rfl,hnone,-⟩ := hx
      refine ⟨by simp, hnone.symm, fun t' h hq => ?_⟩
      have he' : t'.enter? a s = some (a ++ [s]) := by
        unfold enter? at he ⊢
        split at he
        · cases he
        · split at he
          · cases he
          · next hidle hup => simp [hidle,hup,hshort,hq]
      rw [follow_cons,he']
      exact follow_empty hempty

theorem follow_name (hs : isFileName s = true) : t.follow a [s] =
    if maxName < s.utf8ByteSize then .error .nameTooLong else .ok ⟨a ++ [s],
      t.node? (a ++ [s]), false⟩ := by
  obtain ⟨hcounts,hdown⟩ := isFileName_ne hs
  rw [follow]
  by_cases hlong : maxName < s.utf8ByteSize
  · simp [hcounts,hdown,hlong]
  · cases hnode : t.node? (a ++ [s]) with
    | none => simp [hcounts,hdown,hlong,hnode]
    | some n => cases n <;> simp [hcounts,hdown,hlong,hnode,follow]

theorem follow_same {x : Target} (hs : isFileName s = true) (hf : t.follow a (l ++ [s]) = .ok x) :
    x = ⟨x.place, t.node? x.place, false⟩ ∧ x.place.getLast? = some s ∧
      ∀ t' : FileTree, t.SameDirectories t' →
        t'.follow a (l ++ [s]) = .ok ⟨x.place, t'.node? x.place, false⟩ := by
  induction l generalizing a with
  | nil =>
    simp only [nil_append,follow_name hs] at hf ⊢
    split at hf
    · cases hf
    · next hshort =>
      cases hf
      exact ⟨rfl, by simp, fun _ _ => if_neg hshort⟩
  | cons s' l ih =>
    rw [cons_append] at hf ⊢
    cases he : t.enter? a s' with
    | some b =>
      rw [follow_cons,he] at hf
      obtain ⟨hx,hlast,hsame⟩ := ih hf
      refine ⟨hx, hlast, fun t' h => ?_⟩
      rw [follow_cons,enter?_keep h.toKeepsDirectories he]
      exact hsame t' h
    | none =>
      obtain ⟨-,-,hempty,-⟩ := follow_eq_ok he hf
      obtain rfl := hempty s (by simp)
      cases hs

/-- Where the path leads, whatever stands there. -/
def place? (t : FileTree) (p : Path) : Option Place := (t.locate p).toOption.map (·.place)

/-- Where the segments of a path start. -/
def origin (t : FileTree) (p : Path) : Place := if p.isAbsolute then [] else t.here

theorem locate_eq_ok {x : Target} (h : t.locate p = .ok x) : t.follow (t.origin p) p.segments = .ok x ∧
    ∀ t' : FileTree, t'.here = t.here → t'.locate p = t'.follow (t.origin p) p.segments := by
  unfold locate at h
  split at h
  · cases h
  · split at h
    · cases h
    · split at h
      · cases h
      · next hempty hzero hlimit =>
        refine ⟨h, fun t' hhere => ?_⟩
        rw [locate,if_neg hempty,if_neg hzero,if_neg hlimit,hhere,origin]

section

variable (hp : p.Names s)

include hp

theorem locate_of_place? (h : t.place? p = some q) :
    t.locate p = .ok ⟨q, t.node? q, false⟩ ∧ q.getLast? = some s ∧
    ∀ t' : FileTree, t.SameDirectories t' → t'.locate p = .ok ⟨q, t'.node? q, false⟩ := by
  obtain ⟨hs,_,hfront⟩ := hp
  cases hx : t.locate p with
  | error e => simp [place?,hx,Except.toOption] at h
  | ok x =>
    obtain rfl : x.place = q := by simpa [place?,hx,Except.toOption] using h
    obtain ⟨hf,hlocate⟩ := locate_eq_ok hx
    rw [hfront] at hf hlocate
    obtain ⟨heq,hlast,hsame⟩ := follow_same hs hf
    exact ⟨congrArg _ heq, hlast, fun t' h => (hlocate t' h.here).trans (hsame t' h)⟩

theorem place?_congr (h : t.SameDirectories t') : t'.place? p = t.place? p := by
  have hsub {t t' : FileTree} (h : t.SameDirectories t') {q : Place} (hq : t.place? p = some q) :
      t'.place? p = some q := by
    simp [place?,(locate_of_place? hp hq).2.2 t' h,Except.toOption]
  exact Option.ext fun q => ⟨hsub h.symm, hsub h⟩

theorem name_eq_of_place? {p' : Path} {s' : String} (hp' : p'.Names s') (h : t.place? p = some q)
    (h' : t.place? p' = some q) :
    s = s' :=
  Option.some.inj ((locate_of_place? hp h).2.1.symm.trans (locate_of_place? hp' h').2.1)

theorem ne_nil_of_place? (h : t.place? p = some q) : q ≠ [] := by
  rintro rfl
  cases (locate_of_place? hp h).2.1

theorem locate_cases : (t.place? p = none ∧ ∃ e, t.locate p = .error e) ∨
    ∃ q, t.place? p = some q ∧ t.locate p = .ok ⟨q, t.node? q, false⟩ := by
  cases hq : t.place? p with
  | none =>
    cases hx : t.locate p with
    | error e => exact .inl ⟨rfl, e, rfl⟩
    | ok x => simp [place?,hx,Except.toOption] at hq
  | some q => exact .inr ⟨q, rfl, (locate_of_place? hp hq).1⟩

theorem write_eq_ok {text : String} : t.write p text = .ok t' ↔
    ∃ q, t.place? p = some q ∧ t.node? q ≠ some .directory ∧ t' = t.insert q (.file (some text)) := by
  rw [write]
  obtain ⟨hq,e,hx⟩ | ⟨q,hq,hx⟩ := locate_cases hp (t := t)
  · simp [hx,hq,bind,Except.bind]
  · rcases hn : t.node? q with _ | _ | _ <;>
      simp [hx,hq,hn,eq_comm,bind,Except.bind,pure,Except.pure,throw,throwThe,MonadExceptOf.throw]

theorem rename_eq_ok {p' : Path} {s' : String} (hp' : p'.Names s') : t.rename p p' = .ok t' ↔
    ∃ q q' text, t.place? p = some q ∧ t.place? p' = some q' ∧ t.node? q = some (.file text) ∧
      t.node? q' ≠ some .directory ∧ t' = (t.erase q).insert q' (.file text) := by
  rw [rename]
  obtain ⟨hq,e,hx⟩ | ⟨q,hq,hx⟩ := locate_cases hp (t := t)
  · simp [hx,hq,bind,Except.bind]
  · obtain ⟨hq',e,hx'⟩ | ⟨q',hq',hx'⟩ := locate_cases hp' (t := t)
    · simp [hx,hx',hq',bind,Except.bind]
    · rcases hn : t.node? q with _ | _ | _ <;> rcases hn' : t.node? q' with _ | _ | _ <;>
        simp [hx,hx',hq,hq',hn,hn',eq_comm,bind,Except.bind,pure,Except.pure,throw,throwThe,
          MonadExceptOf.throw]

theorem removeFile_eq_ok : t.removeFile p = .ok t' ↔
    ∃ q text, t.place? p = some q ∧ t.node? q = some (.file text) ∧ t' = t.erase q := by
  rw [removeFile]
  obtain ⟨hq,e,hx⟩ | ⟨q,hq,hx⟩ := locate_cases hp (t := t)
  · simp [hx,hq,bind,Except.bind]
  · rcases hn : t.node? q with _ | _ | _ <;>
      simp [hx,hq,hn,eq_comm,bind,Except.bind,pure,Except.pure,throw,throwThe,MonadExceptOf.throw]

end

/-- Directories are neither made nor removed. -/
theorem sameDirectories_of_node (hhere : t'.here = t.here)
    (h : ∀ r, t'.node? r = t.node? r ∨ t.node? r ≠ some .directory ∧ t'.node? r ≠ some .directory) :
    t.SameDirectories t' := by
  refine ⟨⟨hhere, fun r hr => ?_⟩, fun r hr => ?_⟩
  · exact (h r).elim (·.trans hr) fun hne => absurd hr hne.1
  · exact (h r).elim (·.symm.trans hr) fun hne => absurd hr hne.2

end FileTree

end Polled
