import Mathlib.Data.List.Nodup
import Polled.Proofs.FileCalls

/-!
What delivering a program leaves in a file system, whichever calls fail.

Staging and publishing are followed call by call: `Underway` says how far they are, and `Cleared` what is
left when one of them gives up. A call that is refused where there is room can only be a second move of
one file, so a delivery succeeds just if no form is asked for twice (`deliver_ok_iff`).
-/

namespace Polled

open List FileTree Polled.Path

/-- Files of one directory. None has a name under which another one may wait, and none has two texts. -/
structure Batch (dir : Path) (files : List OutputFile) : Prop where
  named : ∀ f ∈ files, ∃ s, isFileName s = true ∧ s.toList.getLast? ≠ some 'p' ∧ f.path = dir.file s
  unique : ∀ f ∈ files, ∀ f' ∈ files, f.path = f'.path → f = f'

/-- Where a file belongs. -/
def FileTree.home (t : FileTree) (f : OutputFile) : Option Place := t.place? f.path

/-- Where a file waits. -/
def FileTree.wait (t : FileTree) (f : OutputFile) : Option Place := t.place? f.path.staging

/-- The path leads to a place where no file stands. -/
def FileTree.isMissing (t : FileTree) (p : Path) : Bool := (t.place? p).any fun q => (t.node? q).isNone

/-- A file can be put there. -/
def FileTree.hasRoom (t : FileTree) (p : Path) : Bool :=
  (t.place? p).any fun q => t.node? q != some .directory

/-- Files were moved to their places, others may have been written to where they wait, and nothing else
has changed. -/
structure Strewn (base : FileTree) (moved waiting : List OutputFile) (t : FileTree) : Prop where
  same : base.SameDirectories t
  home : ∀ f ∈ moved, ∃ q, base.home f = some q ∧ t.node? q = some (.file (some f.text))
  gone : ∀ f ∈ moved, ∀ q, base.wait f = some q → t.node? q = none
  node : ∀ q, t.node? q = base.node? q ∨ (∃ f ∈ moved, base.home f = some q) ∨ ∃ f ∈ moved ++ waiting,
    base.wait f = some q

/-- The others have been written, and wait. -/
structure Underway (base : FileTree) (moved waiting : List OutputFile) (t : FileTree) : Prop
    extends Strewn base moved waiting t where
  wait : ∀ f ∈ waiting, f ∉ moved → ∃ q, base.wait f = some q ∧ t.node? q = some (.file (some f.text))

/-- Nothing that was written is left. What is gone was moved onto, or written over while it waited. -/
structure Cleared (base : FileTree) (files moved : List OutputFile) (t : FileTree) : Prop where
  same : base.SameDirectories t
  home : ∀ f ∈ moved, ∀ q, base.home f = some q → t.node? q = none
  node : ∀ q, t.node? q = base.node? q ∨
    t.node? q = none ∧ ((∃ f ∈ moved, base.home f = some q) ∨ ∃ f ∈ files, base.wait f = some q)

/-- All files are delivered, each once, or what was delivered of them is discarded. If calls are sure,
the reason is that there is no room or that a file is delivered twice. -/
def Delivered (sure : Prop) (base : FileTree) (files : List OutputFile) (d : Delivery)
    (t : FileTree) : Prop :=
  match d.outcome with
  | .ok _ => d.moved = files.map (·.path) ∧ files.Nodup ∧ Underway base files [] t
  | .error _ => ∃ moved, d.moved = moved.map (·.path) ∧ moved <+: files ∧ Cleared base files moved t ∧
    (sure → (∀ f ∈ files, base.hasRoom f.path = true ∧ base.hasRoom f.path.staging = true) →
      ¬files.Nodup)

section Places

variable {base t : FileTree} {dir : Path} {files : List OutputFile} {f f' : OutputFile} {q : Place}

theorem exists_of_hasRoom {p : Path} (h : t.hasRoom p = true) :
    ∃ q, t.place? p = some q ∧ t.node? q ≠ some .directory := by
  obtain ⟨q,hq,hnode⟩ := (Option.any_eq_true _ _).1 h
  exact ⟨q, hq, by simpa using hnode⟩

namespace Batch

variable (h : Batch dir files) (hf : f ∈ files)

include h hf

theorem names : ∃ s, s.toList.getLast? ≠ some 'p' ∧ f.path = dir.file s ∧ f.path.Names s ∧
    f.path.staging.Names (s ++ ".tmp") := by
  obtain ⟨s,hs,hlast,hpath⟩ := h.named f hf
  have hnames : f.path.Names s := hpath ▸ names_file hs dir
  exact ⟨s, hlast, hpath, hnames, hnames.staging⟩

theorem home_congr (hsame : base.SameDirectories t) : t.home f = base.home f := by
  obtain ⟨s,-,-,hnames,-⟩ := h.names hf
  exact place?_congr hnames hsame

theorem wait_congr (hsame : base.SameDirectories t) : t.wait f = base.wait f := by
  obtain ⟨s,-,-,-,hnames⟩ := h.names hf
  exact place?_congr hnames hsame

variable (hf' : f' ∈ files)

include hf'

theorem home_inj (hq : base.home f = some q) (hq' : base.home f' = some q) : f = f' := by
  obtain ⟨s,-,hpath,hnames,-⟩ := h.names hf
  obtain ⟨_,-,hpath',hnames',-⟩ := h.names hf'
  exact h.unique f hf f' hf' (by rw [hpath,hpath',name_eq_of_place? hnames hnames' hq hq'])

theorem wait_inj (hq : base.wait f = some q) (hq' : base.wait f' = some q) : f = f' := by
  obtain ⟨s,-,hpath,-,hnames⟩ := h.names hf
  obtain ⟨s',-,hpath',-,hnames'⟩ := h.names hf'
  have hname : s = s' := by simpa using name_eq_of_place? hnames hnames' hq hq'
  exact h.unique f hf f' hf' (by rw [hpath,hpath',hname])

theorem home_ne_wait (hq : base.home f = some q) : base.wait f' ≠ some q := by
  intro hq'
  obtain ⟨s,hp,-,hnames,-⟩ := h.names hf
  obtain ⟨_,-,-,-,hnames'⟩ := h.names hf'
  exact hp (by simp [name_eq_of_place? hnames hnames' hq hq'])

end Batch

end Places

namespace FileSystem.Serves

variable {σ : Type} {tree : σ → FileTree} {fs : FileSystem (StateM σ)} {sure : Prop} {dir : Path}
  {files : List OutputFile}
  (h : fs.Serves tree sure) (hb : Batch dir files) (base : FileTree)

include h hb

theorem cleared (moved waiting : List OutputFile) (hmem : moved ++ waiting ⊆ files) :
    Does tree (fs.discard (moved.map (·.path) ++ (waiting.map (·.path)).map staging)) fun t _ t' =>
      Strewn base moved waiting t → Cleared base files moved t' := by
  intro s hs
  have hmoved {f : OutputFile} (hf : f ∈ moved) : f ∈ files := hmem (mem_append_left _ hf)
  have hwaiting {f : OutputFile} (hf : f ∈ waiting) : f ∈ files := hmem (mem_append_right _ hf)
  have hshed := h.shed (moved.map (·.path) ++ (waiting.map (·.path)).map staging) (by
    intro p hp
    rcases mem_append.1 hp with hp | hp
    · obtain ⟨f,hf,rfl⟩ := mem_map.1 hp
      obtain ⟨s,-,-,hnames,-⟩ := hb.names (hmoved hf)
      exact ⟨s, hnames⟩
    · obtain ⟨f,hf,rfl⟩ : ∃ f ∈ waiting, f.path.staging = p := by simpa using hp
      obtain ⟨s,-,-,-,hnames⟩ := hb.names (hwaiting hf)
      exact ⟨_, hnames⟩) s
  generalize tree s = t at hs hshed
  generalize tree _ = t' at hshed ⊢
  have hgone {q : Place} (hfile : ∀ text, t'.node? q ≠ some (.file text)) : t'.node? q = base.node? q ∨
      t'.node? q = none := by
    rcases hn : t'.node? q with _ | text | _
    · exact .inr rfl
    · exact (hfile text hn).elim
    · exact .inl ((hs.same.trans hshed.same).back q hn).symm
  have hhome : ∀ f ∈ moved, ∀ q, base.home f = some q → t'.node? q = none := by
    intro f hf q hq
    have hplace : t.place? f.path = some q := (hb.home_congr (hmoved hf) hs.same).trans hq
    have hfile := hshed.gone _ (mem_append_left _ (mem_map_of_mem hf)) q hplace
    obtain ⟨q',hq',htext⟩ := hs.home f hf
    obtain rfl : q = q' := Option.some.inj (hq.symm.trans hq')
    rcases hn : t'.node? q with _ | text | _
    · rfl
    · exact (hfile text hn).elim
    · cases htext.symm.trans (hshed.same.back q hn)
  refine ⟨hs.same.trans hshed.same, hhome, fun q => ?_⟩
  rcases hshed.node q with hsame | ⟨hnone,p,hp,hq⟩
  · rcases hs.node q with hbase | ⟨f,hf,hq⟩ | ⟨f,hf,hq⟩
    · exact .inl (hsame.trans hbase)
    · exact .inr ⟨hhome f hf q hq, .inl ⟨f, hf, hq⟩⟩
    · refine Or.imp_right (fun hnone => ⟨hnone, .inr ⟨f, hmem hf, hq⟩⟩) ?_
      rcases mem_append.1 hf with hf | hf
      · exact .inr (hsame.trans (hs.gone f hf q hq))
      · have hplace : t.place? f.path.staging = some q := (hb.wait_congr (hwaiting hf) hs.same).trans hq
        exact hgone (hshed.gone _ (mem_append_right _ (mem_map_of_mem (mem_map_of_mem hf))) q hplace)
  · refine .inr ⟨hnone, ?_⟩
    rcases mem_append.1 hp with hp | hp
    · obtain ⟨f,hf,rfl⟩ := mem_map.1 hp
      exact .inl ⟨f, hf, (hb.home_congr (hmoved hf) hs.same).symm.trans hq⟩
    · obtain ⟨f,hf,rfl⟩ : ∃ f ∈ waiting, f.path.staging = p := by simpa using hp
      exact .inr ⟨f, hwaiting hf, (hb.wait_congr (hwaiting hf) hs.same).symm.trans hq⟩

theorem write_step {f : OutputFile} {done : List OutputFile} (hmem : done ++ [f] ⊆ files) :
    Does tree (fs.write f.path.staging f.text) fun t r t' => Underway base [] done t → match r with
      | .ok _ => Underway base [] (done ++ [f]) t'
      | .error _ => Strewn base [] (done ++ [f]) t' ∧ (sure → base.hasRoom f.path.staging = false) := by
  intro s hs
  have hwrite := h.write f.path.staging f.text s
  generalize tree s = t at hs hwrite
  generalize ((fs.write f.path.staging f.text).run s).1 = r at hwrite ⊢
  generalize tree _ = t' at hwrite ⊢
  have hf : f ∈ files := hmem (by simp)
  obtain ⟨_,-,-,-,hnames⟩ := hb.names hf
  -- whatever is written, only the place where the file waits has changed
  have hwritten {part : String} (hw : t.write f.path.staging part = .ok t') :
      ∃ q, base.wait f = some q ∧
      (∀ r, t'.node? r = if r = q then some (.file (some part)) else t.node? r) ∧
        Strewn base [] (done ++ [f]) t' := by
    obtain ⟨q,hq,hdir,rfl⟩ := (write_eq_ok hnames).1 hw
    have hq : base.wait f = some q := (hb.wait_congr hf hs.same).symm.trans hq
    have hnode (r : Place) := node?_insert (t := t) (ne_nil_of_place? hnames hq) (.file (some part)) r
    refine ⟨q, hq, hnode, hs.same.trans (sameDirectories_of_node rfl fun r => ?_), by simp, by simp,
      fun r => ?_⟩
    · rw [hnode]
      by_cases hr : r = q <;> simp [hr,hdir]
    · by_cases hr : r = q
      · exact .inr (.inr ⟨f, by simp, hr ▸ hq⟩)
      · rw [hnode,if_neg hr]
        exact (hs.node r).imp_right fun hr =>
          .inr (by simpa [or_and_right,exists_or] using .inl (by simpa using hr))
  cases r with
  | ok _ =>
    obtain ⟨q,hq,hnode,hstrewn⟩ := hwritten hwrite
    refine ⟨hstrewn, fun f' hf' hnew => ?_⟩
    rcases mem_append.1 hf' with hdone | hlast
    · obtain ⟨q',hq',htext⟩ := hs.wait f' hdone hnew
      refine ⟨q', hq', ?_⟩
      rw [hnode]
      split
      · next heq => rw [hb.wait_inj (hmem hf') hf hq' (heq ▸ hq)]
      · exact htext
    · obtain rfl := mem_singleton.1 hlast
      exact ⟨q, hq, by simp [hnode]⟩
  | error e =>
    obtain ⟨hleft,hno⟩ := hwrite
    refine ⟨?_, fun hsure => ?_⟩
    · rcases hleft with rfl | ⟨_,hpart⟩
      · exact ⟨hs.same, by simp, by simp, fun r => (hs.node r).imp_right (by simp; grind)⟩
      · obtain ⟨q,-,-,hstrewn⟩ := hwritten hpart
        exact hstrewn
    · by_contra hroom
      obtain ⟨q,hq,hdir⟩ := exists_of_hasRoom (by simpa using hroom)
      exact hno hsure _ ((write_eq_ok hnames).2
        ⟨q, (hb.wait_congr hf hs.same).trans hq, fun hn => hdir (hs.same.back q hn), rfl⟩)

theorem rename_step {f : OutputFile} {moved rest : List OutputFile} (hmem : moved ++ f :: rest ⊆ files) :
    Does tree (fs.rename f.path.staging f.path) fun t r t' =>
      Underway base moved (f :: rest) t → match r with
      | .ok _ => f ∉ moved ∧ Underway base (moved ++ [f]) rest t'
      | .error _ => t' = t ∧ (sure → base.hasRoom f.path = true → f ∈ moved) := by
  intro s hs
  have hrename := h.rename f.path.staging f.path s
  generalize tree s = t at hs hrename
  generalize ((fs.rename f.path.staging f.path).run s).1 = r at hrename ⊢
  generalize tree _ = t' at hrename ⊢
  have hf : f ∈ files := hmem (by simp)
  obtain ⟨_,-,-,hname,hnames⟩ := hb.names hf
  cases r with
  | ok _ =>
    obtain ⟨q,q',text,hq,hq',hfile,hdir,rfl⟩ := (rename_eq_ok hnames hname).1 hrename
    have hq : base.wait f = some q := (hb.wait_congr hf hs.same).symm.trans hq
    have hq' : base.home f = some q' := (hb.home_congr hf hs.same).symm.trans hq'
    have hnode (r : Place) : ((t.erase q).insert q' (.file text)).node? r =
        if r = q' then some (.file text) else if r = q then none else t.node? r := by
      rw [node?_insert (ne_nil_of_place? hname hq'),node?_erase (ne_nil_of_place? hnames hq)]
    have hnew : f ∉ moved := by
      intro hmoved
      cases (hs.gone f hmoved q hq).symm.trans hfile
    obtain rfl : text = some f.text := by
      obtain ⟨q₀,hq₀,htext⟩ := hs.wait f mem_cons_self hnew
      obtain rfl : q = q₀ := Option.some.inj (hq.symm.trans hq₀)
      simpa using hfile.symm.trans htext
    have hne {r : Place} {f' : OutputFile} (hf' : f' ∈ files) (hr : base.wait f' = some r) : r ≠ q' :=
      fun heq => hb.home_ne_wait hf hf' hq' (heq ▸ hr)
    refine ⟨hnew, ⟨hs.same.trans (sameDirectories_of_node rfl fun r => ?_), ?_, ?_, fun r => ?_⟩, ?_⟩
    · rw [hnode]
      by_cases hr' : r = q'
      · simp [hr',hdir]
      · by_cases hr : r = q <;> simp [hr',hr,hfile]
    · intro f' hf'
      rcases mem_append.1 hf' with hmoved | hlast
      · obtain ⟨r,hr,htext⟩ := hs.home f' hmoved
        have hf' : f' ∈ files := hmem (by simp [hmoved])
        have hr' : r ≠ q' := fun heq => hnew (hb.home_inj hf hf' hq' (heq ▸ hr) ▸ hmoved)
        have hr'' : r ≠ q := fun heq => hb.home_ne_wait hf' hf hr (heq ▸ hq)
        exact ⟨r, hr, by rw [hnode,if_neg hr',if_neg hr'',htext]⟩
      · obtain rfl := mem_singleton.1 hlast
        exact ⟨q', hq', by simp [hnode]⟩
    · intro f' hf' r hr
      have hmem' : f' ∈ files := hmem (by simp at hf' ⊢; grind)
      rw [hnode,if_neg (hne hmem' hr)]
      split
      · rfl
      · next hrq =>
        rcases mem_append.1 hf' with hmoved | hlast
        · exact hs.gone f' hmoved r hr
        · obtain rfl := mem_singleton.1 hlast
          exact (hrq (Option.some.inj (hr.symm.trans hq))).elim
    · rw [hnode]
      by_cases hr' : r = q'
      · exact .inr (.inl ⟨f, by simp, hr' ▸ hq'⟩)
      · by_cases hr : r = q
        · exact .inr (.inr ⟨f, by simp, hr ▸ hq⟩)
        · rw [if_neg hr',if_neg hr]
          rcases hs.node r with hsame | ⟨f',hf',hat⟩ | ⟨f',hf',hat⟩
          · exact .inl hsame
          · exact .inr (.inl ⟨f', mem_append_left _ hf', hat⟩)
          · exact .inr (.inr ⟨f', by simpa using hf', hat⟩)
    · intro f' hf' hnew'
      obtain ⟨r,hr,htext⟩ := hs.wait f' (mem_cons_of_mem _ hf') fun hmoved =>
        hnew' (mem_append_left _ hmoved)
      have hmem' : f' ∈ files := hmem (by simp [hf'])
      have hr' : r ≠ q := fun heq => hnew' (by simp [hb.wait_inj hmem' hf hr (heq ▸ hq)])
      exact ⟨r, hr, by rw [hnode,if_neg (hne hmem' hr),if_neg hr',htext]⟩
  | error e =>
    obtain ⟨heq | hfalse,hno⟩ := hrename
    · refine ⟨heq, fun hsure hroom => ?_⟩
      by_contra hnew
      obtain ⟨q,hq,htext⟩ := hs.wait f mem_cons_self hnew
      obtain ⟨q',hq',hdir⟩ := exists_of_hasRoom hroom
      exact hno hsure _ ((rename_eq_ok hnames hname).2 ⟨q, q', _, (hb.wait_congr hf hs.same).trans hq,
        (hb.home_congr hf hs.same).trans hq', htext, fun hn => hdir (hs.same.back q' hn), rfl⟩)
    · exact hfalse.elim

theorem stage_files (done todo : List OutputFile) (hmem : done ++ todo ⊆ files) :
    Does tree (fs.stage ((done.map (·.path)).map staging) todo) fun t r t' =>
      Underway base [] done t → match r with
      | .ok _ => Underway base [] (done ++ todo) t'
      | .error _ =>
        Cleared base files [] t' ∧ (sure → ∃ f ∈ files, base.hasRoom f.path.staging = false) := by
  induction todo generalizing done with
  | nil => exact fun s hs => (append_nil done).symm ▸ hs
  | cons f todo ih =>
    have hlast : done ++ [f] ⊆ files := fun f' hf' => hmem (by simp at hf' ⊢; grind)
    refine (h.write_step hb base hlast).seq fun r => ?_
    cases r with
    | ok _ =>
      intro s t hw hs
      have hrest := ih (done ++ [f]) (by simpa using hmem) s
      rw [map_append,map_append,append_assoc] at hrest
      exact hrest (hw hs)
    | error e =>
      intro s t hw hs
      have hclean := h.cleared hb base [] (done ++ [f]) hlast s (hw hs).1
      rw [map_nil,nil_append,map_append,map_append] at hclean
      exact ⟨hclean, fun hsure => ⟨f, hlast (by simp), (hw hs).2 hsure⟩⟩

theorem publish_files (moved rest : List OutputFile) (hfiles : moved ++ rest = files)
    (hnodup : moved.Nodup) :
    Does tree (fs.publish (moved.map (·.path)) (rest.map (·.path))) fun t d t' =>
      Underway base moved rest t → Delivered sure base files d t' := by
  induction rest generalizing moved with
  | nil =>
    obtain rfl : moved = files := by simpa using hfiles
    exact fun s hs => ⟨rfl, hnodup, hs⟩
  | cons f rest ih =>
    have hmem : moved ++ f :: rest ⊆ files := fun _ hf => hfiles ▸ hf
    refine (h.rename_step hb base hmem).seq fun r => ?_
    cases r with
    | ok _ =>
      intro s t hmove hs
      obtain ⟨_,hunderway⟩ := hmove hs
      have hrest := ih (moved ++ [f]) (by simpa using hfiles) (by simp [nodup_append]; grind) s
      rw [map_append] at hrest
      exact hrest hunderway
    | error e =>
      intro s t hmove hs
      obtain ⟨heq,hrefused⟩ := hmove hs
      have hclean := h.cleared hb base moved (f :: rest) hmem s (heq ▸ hs.toStrewn)
      refine ⟨moved, rfl, ⟨_, hfiles⟩, hclean, fun hsure hroom hnodup => ?_⟩
      have hf : f ∈ moved := hrefused hsure (hroom f (hmem (by simp))).1
      exact (disjoint_of_nodup_append (hfiles ▸ hnodup)) hf mem_cons_self

/-- Behind the making of the directory. -/
theorem delivered : Does tree (do match ← fs.stage [] files with
      | .error e => return ⟨[], .error e⟩
      | .ok () => fs.publish [] (files.map (·.path)))
    fun t d t' => Delivered sure t files d t' := by
  have hstage : Does tree (fs.stage [] files) fun t r t' => match r with
      | .ok _ => Underway t [] files t'
      | .error _ => Cleared t files [] t' ∧ (sure → ∃ f ∈ files, t.hasRoom f.path.staging = false) :=
    fun s => h.stage_files hb (tree s) [] files (by simp) s
      ⟨⟨.refl _, by simp, by simp, fun _ => .inl rfl⟩, by simp⟩
  refine hstage.seq fun r => ?_
  cases r with
  | ok _ => exact fun s t hs => h.publish_files hb t [] files rfl nodup_nil s hs
  | error e =>
    rintro s t ⟨hclean,hrefused⟩
    refine ⟨[], rfl, nil_prefix, hclean, fun hsure hroom => ?_⟩
    obtain ⟨f,hf,hno⟩ := hrefused hsure
    cases hno.symm.trans (hroom f hf).2

end FileSystem.Serves

theorem noSlash_of_isName {cs : List Char} (h : isName cs = true) : '/' ∉ cs := by
  cases cs with
  | nil => simp
  | cons c cs =>
    simp only [isName,Bool.and_eq_true,all_eq_true] at h
    simp only [mem_cons,not_or]
    refine ⟨?_, fun hmem => ?_⟩
    · rintro rfl
      simp [isNameStart] at h
    · simpa [isNamePart] using h.2 _ hmem

namespace Program

variable (p : Program) (dir : Path)

/-- The endings of the files of a form, and their texts. -/
def endings : OutputForm → List (String × String)
  | .c => [(".h", p.cFiles.header), (".c", p.cFiles.source)]
  | .ir => [(".ir.json", p.toJson.pretty)]

def fileOf (e : String × String) : OutputFile := ⟨dir.file (p.entry ++ e.1), e.2⟩

theorem outputFiles_eq (forms : List OutputForm) :
    p.outputFiles dir forms = (forms.flatMap p.endings).map (p.fileOf dir) := by
  rw [map_flatMap]
  exact flatMap_congr fun form _ => by cases form <;> rfl

variable {p dir} {forms : List OutputForm} {e e' : String × String}

theorem mem_endings (h : e ∈ forms.flatMap p.endings) : e ∈ p.endings .c ++ p.endings .ir := by
  obtain ⟨form,-,he⟩ := mem_flatMap.1 h
  cases form
  · exact mem_append_left _ he
  · exact mem_append_right _ he

variable (hentry : isName p.entry.toList = true)

include hentry

theorem isFileName_ending (h : e ∈ forms.flatMap p.endings) :
    isFileName (p.entry ++ e.1) = true ∧ (p.entry ++ e.1).toList.getLast? ≠ some 'p' := by
  have he := mem_endings h
  simp only [endings,mem_append,mem_cons,not_mem_nil,or_false] at he
  refine ⟨isFileName_append (noSlash_of_isName hentry) ?_, ?_⟩ <;> rcases he with (rfl | rfl) | rfl <;>
    simp [isFileName]

theorem fileOf_inj (h : e ∈ forms.flatMap p.endings) (h' : e' ∈ forms.flatMap p.endings)
    (heq : (p.fileOf dir e).path = (p.fileOf dir e').path) : e = e' := by
  have hname := congrArg fileName? heq
  rw [fileOf,fileOf,(names_file (isFileName_ending hentry h).1 dir).fileName?,
    (names_file (isFileName_ending hentry h').1 dir).fileName?] at hname
  have hends : e.1 = e'.1 := by simpa using hname
  have he := mem_endings h
  have he' := mem_endings h'
  simp only [endings,mem_append,mem_cons,not_mem_nil,or_false] at he he'
  rcases he with (rfl | rfl) | rfl <;> rcases he' with (rfl | rfl) | rfl <;> first | rfl | simp at hends

theorem batch : Batch dir (p.outputFiles dir forms) := by
  rw [outputFiles_eq]
  refine ⟨fun f hf => ?_, fun f hf f' hf' heq => ?_⟩
  · obtain ⟨e,he,rfl⟩ := mem_map.1 hf
    exact ⟨_, (isFileName_ending hentry he).1, (isFileName_ending hentry he).2, rfl⟩
  · obtain ⟨e,he,rfl⟩ := mem_map.1 hf
    obtain ⟨_,he',rfl⟩ := mem_map.1 hf'
    rw [fileOf_inj hentry he he' heq]

/-- A file is written twice just if its form is asked for twice. -/
theorem nodup_outputFiles_iff : (p.outputFiles dir forms).Nodup ↔ forms.Nodup := by
  have hforms : (forms.flatMap p.endings).Nodup ↔ forms.Nodup := by
    have heach (form : OutputForm) : (p.endings form).Nodup := by cases form <;> simp [endings]
    have hdisjoint (form form' : OutputForm) : (p.endings form).Disjoint (p.endings form') ↔
        form ≠ form' := by
      cases form <;> cases form' <;> simp [endings,List.Disjoint]
    rw [nodup_flatMap,and_iff_right fun form _ => heach form]
    exact Pairwise.iff hdisjoint
  rw [outputFiles_eq,← hforms]
  exact ⟨Nodup.of_map _, Nodup.map_on fun e he e' he' heq => fileOf_inj hentry he he' (congrArg _ heq)⟩

end Program

/-- What a delivery leaves that fails. Files may be gone from where others waited, and those that were
moved are gone. All else is as it was, but for directories on the way to the one of the files. -/
structure LeavesNothing (dir : Path) (paths moved : List Path) (t t' : FileTree) : Prop where
  staging : ∀ p ∈ paths, ∀ q, t'.place? p.staging = some q → Kept dir.ancestors t t' q ∨
    t'.node? q = none
  replaced : ∀ p ∈ moved, ∀ q, t'.place? p = some q → t'.node? q = none
  untouched : ∀ p ∈ paths, p ∉ moved → ∀ q, t'.place? p = some q → Kept dir.ancestors t t' q
  elsewhere : ∀ q, (∀ p ∈ paths, t'.place? p ≠ some q ∧ t'.place? p.staging ≠ some q) →
    Kept dir.ancestors t t' q

section

variable {dir : Path} {files moved : List OutputFile} {t base t' : FileTree}

theorem Cleared.leavesNothing (hb : Batch dir files) (hmoved : moved ⊆ files)
    (hgrown : Grown dir.ancestors t base) (h : Cleared base files moved t') :
    LeavesNothing dir (files.map (·.path)) (moved.map (·.path)) t t' := by
  have hkept {q : Place} (hnode : t'.node? q = base.node? q) : Kept dir.ancestors t t' q :=
    (hgrown.node q).keep h.same.toKeepsDirectories hnode
  have hhome {f : OutputFile} (hf : f ∈ files) := hb.home_congr hf h.same
  have hwait {f : OutputFile} (hf : f ∈ files) := hb.wait_congr hf h.same
  refine ⟨fun p _ q _ => ?_, fun p hp q hat => ?_, fun p hp hnew q hat => ?_, fun q hq => ?_⟩
  · exact (h.node q).imp hkept And.left
  · obtain ⟨f,hf,rfl⟩ := mem_map.1 hp
    exact h.home f hf q ((hhome (hmoved hf)).symm.trans hat)
  · obtain ⟨f,hf,rfl⟩ := mem_map.1 hp
    have hat : base.home f = some q := (hhome hf).symm.trans hat
    rcases h.node q with hnode | ⟨-,⟨f',hf',hat'⟩ | ⟨f',hf',hat'⟩⟩
    · exact hkept hnode
    · exact (hnew (hb.home_inj hf (hmoved hf') hat hat' ▸ mem_map_of_mem hf')).elim
    · exact (hb.home_ne_wait hf hf' hat hat').elim
  · rcases h.node q with hnode | ⟨-,⟨f',hf',hat'⟩ | ⟨_,hf',hat'⟩⟩
    · exact hkept hnode
    · exact ((hq _ (mem_map_of_mem (hmoved hf'))).1 ((hhome (hmoved hf')).trans hat')).elim
    · exact ((hq _ (mem_map_of_mem hf')).2 ((hwait hf').trans hat')).elim

theorem Delivered.leavesNothing {sure : Prop} {d : Delivery} (h : Delivered sure base files d t')
    (hb : Batch dir files) (hgrown : Grown dir.ancestors t base) (herror : d.outcome.isOk = false) :
    LeavesNothing dir (files.map (·.path)) d.moved t t' := by
  obtain ⟨_,e | _⟩ := d
  · obtain ⟨_,rfl,hmoved,hclean,-⟩ := h
    exact hclean.leavesNothing hb hmoved.subset hgrown
  · cases herror

/-- Where there is room, files are delivered just if none is delivered twice. -/
theorem Delivered.ok_iff {d : Delivery} (h : Delivered True base files d t') (hb : Batch dir files)
    (hroom : ∀ f ∈ files, base.hasRoom f.path = true ∧ base.hasRoom f.path.staging = true) :
    (d.outcome = .ok () ↔ files.Nodup) ∧ (d.outcome = .ok () → d.moved = files.map (·.path) ∧
      ∀ f ∈ files, t'.read f.path = .ok f.text ∧ t'.isMissing f.path.staging = true) := by
  obtain ⟨_,e | _⟩ := d
  · obtain ⟨-,-,-,-,htwice⟩ := h
    exact ⟨by simpa using htwice trivial hroom, by simp⟩
  · obtain ⟨hmoved,hnodup,hdone⟩ := h
    refine ⟨by simpa using hnodup, fun _ => ⟨hmoved, fun f hf => ?_⟩⟩
    obtain ⟨s,-,-,hname,-⟩ := hb.names hf
    obtain ⟨q,hq,htext⟩ := hdone.home f hf
    obtain ⟨q',hq',-⟩ := exists_of_hasRoom (hroom f hf).2
    have hat := locate_of_place? hname ((hb.home_congr hf hdone.same).trans hq)
    have hwait : t'.place? f.path.staging = some q' := (hb.wait_congr hf hdone.same).trans hq'
    exact ⟨by simp only [FileTree.read,hat.1,htext]; rfl, by simp [isMissing,hwait,
      hdone.gone f hf q' hq']⟩

end

namespace FileSystem

variable {σ : Type} {tree : σ → FileTree} {fs : FileSystem (StateM σ)} {sure : Prop} {p : Program}
  {dir : Path} {s : σ}

/-- A delivery that fails leaves nothing of what it wrote. Files that it had moved onto are gone, all
other files are as they were, and only directories on the way to its own may be new. -/
theorem deliver_leavesNothing (hfs : fs.Serves tree sure) (hentry : isName p.entry.toList = true)
    (forms : List OutputForm) (herror : ((fs.deliver p dir forms).run s).1.outcome.isOk = false) :
    LeavesNothing dir ((p.outputFiles dir forms).map (·.path))
      ((fs.deliver p dir forms).run s).1.moved (tree s) (tree ((fs.deliver p dir forms).run s).2) := by
  have hb : Batch dir (p.outputFiles dir forms) := Program.batch hentry
  have hdeliver : Does tree (fs.deliver p dir forms) fun t d t' =>
      d.outcome.isOk = false → LeavesNothing dir ((p.outputFiles dir forms).map (·.path))
        d.moved t t' := by
    refine (hfs.grown (Subset.refl dir.ancestors)).seq fun made => ?_
    cases made with
    | error e =>
      exact fun s t hgrown _ => ⟨fun _ _ q _ => .inl (hgrown.node q), fun _ hp => absurd hp not_mem_nil,
        fun _ _ _ q _ => hgrown.node q, fun q _ => hgrown.node q⟩
    | ok _ => exact fun s t hgrown herror => (hfs.delivered hb s).leavesNothing hb hgrown herror
  exact hdeliver s herror

/-- A directory stands where the second file is to be moved. -/
def crowded : FileTree :=
  ⟨[], [(["out"], .directory), (["out", "main.h"], .file (some "old")),
    (["out", "main.c.tmp"], .file none), (["out", "main.c"], .directory)]⟩

theorem crowded_leavesNothing :
    let r := (crowded.fileSystem.deliver ⟨"main", []⟩ ⟨"out"⟩ [.c]).run crowded
    r.1.outcome.isOk = false ∧ r.1.moved = [⟨"out/main.h"⟩] ∧
      LeavesNothing ⟨"out"⟩ ((Program.outputFiles ⟨"main", []⟩ ⟨"out"⟩ [.c]).map (·.path)) r.1.moved
        crowded r.2 :=
  ⟨by decide +kernel, by decide +kernel,
    deliver_leavesNothing (crowded.serves_fileSystem False) (by decide) [.c] (by decide +kernel)⟩

/-- The way to the directory may lead through a directory with the name of a file, and that one stays. -/
theorem output_becomes_directory :
    let t : FileTree := ⟨[], []⟩
    let r := (t.fileSystem.deliver ⟨"main", []⟩ ⟨"main.h/.."⟩ [.c]).run t
    r.1.outcome.isOk = false ∧ r.1.moved = [] ∧
      ⟨"main.h/../main.h"⟩ ∈ (Program.outputFiles ⟨"main", []⟩ ⟨"main.h/.."⟩ [.c]).map (·.path) ∧
      t.node? ["main.h"] = none ∧ r.2.isDirectory ⟨"main.h/../main.h"⟩ = true := by
  decide +kernel

theorem nodup_override_iff (b : BuildPlan) (outDir : Option Path) (given : List OutputForm) :
    (b.override outDir given).outputs.Nodup ↔ given ≠ [] ∨ b.outputs.Nodup := by
  have hnormal (forms : List OutputForm) : (OutputForm.normal forms).Nodup := Nodup.filter _ (by decide)
  cases given with
  | nil => simp [BuildPlan.override]
  | cons form given => simp [BuildPlan.override,hnormal]

/-- In a directory that can be made and has room for every file, a plan can be carried out just if its
forms were given on the command line or its manifest repeats none. Then every file holds its text, and
none waits any more. -/
theorem deliver_ok_iff (hfs : fs.Serves tree True) (hentry : isName p.entry.toList = true)
    (b : BuildPlan) (outDir : Option Path) (given : List OutputForm) :
    let plan := b.override outDir given
    let files := p.outputFiles plan.outDir plan.outputs
    let made := (fs.makeDirectories plan.outDir).run s
    let r := (fs.deliver p plan.outDir plan.outputs).run s
    made.1.isOk = true →
    (∀ file ∈ files, (tree made.2).hasRoom file.path = true ∧
      (tree made.2).hasRoom file.path.staging = true) →
      (r.1.outcome = .ok () ↔ given ≠ [] ∨ b.outputs.Nodup) ∧
      (r.1.outcome = .ok () → r.1.moved = files.map (·.path) ∧
        ∀ file ∈ files, (tree r.2).read file.path = .ok file.text ∧
        (tree r.2).isMissing file.path.staging = true) := by
  intro plan files made r hmade hroom
  have hb : Batch plan.outDir files := Program.batch hentry
  have hdelivered : Delivered True (tree made.2) files r.1 (tree r.2) := by
    cases hr : made.1 with
    | error e => simp [hr,Except.isOk,Except.toBool] at hmade
    | ok _ =>
      simp only [made] at hr
      simp only [r,deliver,StateT.run_bind]
      simp only [bind,hr]
      exact hfs.delivered hb made.2
  rw [← nodup_override_iff b outDir given,← Program.nodup_outputFiles_iff hentry]
  exact hdelivered.ok_iff hb hroom

/-- A directory in which one of the files stands already. -/
def visited : FileTree :=
  ⟨["home"], [(["home"], .directory), (["home", "out"], .directory),
    (["home", "out", "main.c"], .file (some "old"))]⟩

def bothForms : BuildPlan := ⟨"demo", "main", ⟨"."⟩, ⟨"out"⟩, [.ir, .c]⟩

theorem bothForms_deliver_ok :
    let plan := bothForms.override none []
    let files := Program.outputFiles ⟨"main", []⟩ plan.outDir plan.outputs
    let r := (visited.fileSystem.deliver ⟨"main", []⟩ plan.outDir plan.outputs).run visited
    files.map (·.path.text) = ["out/main.ir.json", "out/main.h", "out/main.c"] ∧ r.1.outcome = .ok () ∧
      ∀ file ∈ files, r.2.read file.path = .ok file.text ∧ r.2.isMissing file.path.staging = true := by
  have hplan := @deliver_ok_iff _ id visited.fileSystem ⟨"main", []⟩ visited
    (visited.serves_fileSystem True) (by decide) bothForms none [] (by decide +kernel)
    (by decide +kernel)
  have hok := hplan.1.2 (.inr (by decide))
  exact ⟨by decide +kernel, hok, (hplan.2 hok).2⟩

/-- A manifest may name a form twice, and then the file that was moved first does not wait a second
time. -/
theorem repeated_form_fails :
    let t : FileTree := ⟨[], []⟩
    let plan : BuildPlan := ⟨"demo", "main", ⟨"./."⟩, ⟨"./build"⟩, [.ir, .ir]⟩
    let made := (t.fileSystem.makeDirectories plan.outDir).run t
    let r := (t.fileSystem.deliver ⟨"main", []⟩ plan.outDir plan.outputs).run t
    (BuildPlan.parse "[package]\nname = \"demo\"\n[build]\nemit = [\"ir\", \"ir\"]\n"
      ⟨"."⟩).toOption = some plan ∧ made.1.isOk = true ∧
      (∀ file ∈ Program.outputFiles ⟨"main", []⟩ plan.outDir plan.outputs,
        made.2.hasRoom file.path = true ∧ made.2.hasRoom file.path.staging = true) ∧
      r.1.outcome.isOk = false ∧ r.2.isMissing ⟨"./build/main.ir.json"⟩ = true := by
  decide +kernel

end FileSystem

end Polled
