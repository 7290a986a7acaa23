import Polled.Proofs.Places

/-!
File systems whose calls may fail.

`Serves` says what calls do to a tree: one that succeeds does what it has to, and one that fails changes
nothing, except that a write may leave any text behind. Only the removal of a file does not fail.
Directories that are made on the way to another one, and files that are discarded, follow call by call
(`Does`).
-/

namespace Polled

open List FileTree

variable {σ α β : Type} {tree : σ → FileTree}

/-- Every run leads from one tree to another as `P` says. -/
def Does (tree : σ → FileTree) (m : StateM σ α) (P : FileTree → α → FileTree → Prop) : Prop :=
  ∀ s, P (tree s) (m.run s).1 (tree (m.run s).2)

theorem Does.seq {m : StateM σ α} {k : α → StateM σ β} {P : FileTree → α → FileTree → Prop}
    {Q : FileTree → β → FileTree → Prop} (h : Does tree m P)
    (hk : ∀ a, Does tree (k a) fun u b t' => ∀ t, P t a u → Q t b t') : Does tree (m >>= k) Q :=
  fun s => hk _ _ _ (h s)

/-- A call succeeds as the tree says, or it fails and leaves the tree as it was or as `leaves` says. If
it is sure, it fails only where the tree refuses it. -/
def Obeys (sure : Prop) (call : FileTree → Except FileError FileTree)
    (leaves : FileTree → FileTree → Prop) (t : FileTree) :
    Except FileError Unit → FileTree → Prop
  | .ok _, t' => call t = .ok t'
  | .error _, t' => (t' = t ∨ leaves t t') ∧ (sure → ∀ u, call t ≠ .ok u)

/-- The calls of a file system on a tree. If they are sure, files can be written and moved wherever there
is room. -/
structure FileSystem.Serves (fs : FileSystem (StateM σ)) (tree : σ → FileTree) (sure : Prop) : Prop where
  isDirectory : ∀ p, Does tree (fs.isDirectory p) fun t _ t' => t' = t
  makeDirectory : ∀ p, Does tree (fs.makeDirectory p) (Obeys False (·.makeDirectory p) fun _ _ => False)
  write : ∀ p text, Does tree (fs.write p text) (Obeys sure (·.write p text) fun t t' => ∃ part,
    t.write p part = .ok t')
  rename : ∀ p p', Does tree (fs.rename p p') (Obeys sure (·.rename p p') fun _ _ => False)
  removeFile : ∀ p, Does tree (fs.removeFile p) (Obeys True (·.removeFile p) fun _ _ => False)

theorem obeys_update (sure : Prop) (call : FileTree → Except FileError FileTree)
    (leaves : FileTree → FileTree → Prop) :
    Does id (update call) (Obeys sure call leaves) := by
  intro t
  cases hcall : call t with
  | ok t' =>
    have hrun : (update call).run t = (.ok (), t') := by
      simp only [update,StateT.run_bind,StateT.run_get,pure_bind,hcall]
      rfl
    rw [hrun]
    exact hcall
  | error e =>
    have hrun : (update call).run t = (.error e, t) := by
      simp only [update,StateT.run_bind,StateT.run_get,pure_bind,hcall]
      rfl
    rw [hrun]
    exact ⟨.inl rfl, fun _ => by simp [hcall]⟩

theorem FileTree.serves_fileSystem (start : FileTree) (sure : Prop) :
    start.fileSystem.Serves id sure where
  isDirectory _ _ := rfl
  makeDirectory _ := obeys_update _ _ _
  write _ _ := obeys_update _ _ _
  rename _ _ := obeys_update _ _ _
  removeFile _ := obeys_update _ _ _

/-- Files were removed from the paths, and nothing else has changed. -/
structure Shed (ps : List Path) (t t' : FileTree) : Prop where
  same : t.SameDirectories t'
  gone : ∀ p ∈ ps, ∀ q, t.place? p = some q → ∀ text, t'.node? q ≠ some (.file text)
  node : ∀ q, t'.node? q = t.node? q ∨ t'.node? q = none ∧ ∃ p ∈ ps, t.place? p = some q

/-- Directories were made for the paths, and nothing else has changed. -/
def Kept (ps : List Path) (t t' : FileTree) (q : Place) : Prop :=
  t'.node? q = t.node? q ∨
    t.node? q = none ∧ t'.node? q = some .directory ∧
    ∃ p ∈ ps, t'.locate p = .ok ⟨q, some .directory, false⟩

structure Grown (ps : List Path) (t t' : FileTree) : Prop where
  here : t'.here = t.here
  node : ∀ q, Kept ps t t' q

section Changes

variable {p : Path} {s : String} {ps : List Path} {t t' u : FileTree} {q : Place}
  {r : Except FileError Unit}

theorem shed_of_removeFile (hp : p.Names s) (h : Obeys True (·.removeFile p) (fun _ _ => False) t r t') :
    Shed [p] t t' := by
  cases r with
  | ok _ =>
    obtain ⟨q,text,hq,hfile,rfl⟩ := (removeFile_eq_ok hp).1 h
    have hnode (r : Place) := node?_erase (t := t) (ne_nil_of_place? hp hq) r
    refine ⟨sameDirectories_of_node rfl fun r => ?_, fun p' hp' r hr text => ?_, fun r => ?_⟩
    · rw [hnode]
      by_cases hr : r = q <;> simp [hr,hfile]
    · obtain rfl := mem_singleton.1 hp'
      obtain rfl : q = r := Option.some.inj (hq.symm.trans hr)
      simp [hnode]
    · rw [hnode]
      by_cases hr : r = q <;> simp [hr,hq]
  | error e =>
    obtain ⟨rfl | hfalse,hno⟩ := h
    · refine ⟨.refl _, fun p' hp' q hq text hfile => ?_, fun _ => .inl rfl⟩
      obtain rfl := mem_singleton.1 hp'
      exact hno trivial _ ((removeFile_eq_ok hp).2 ⟨q, text, hq, hfile, rfl⟩)
    · exact hfalse.elim

theorem Shed.trans (h : Shed [p] t u) (h' : Shed ps u t') (hps : ∀ p ∈ ps, ∃ s, p.Names s) :
    Shed (p :: ps) t t' := by
  have hplace {p' : Path} (hp' : p' ∈ ps) : u.place? p' = t.place? p' := by
    obtain ⟨s,hs⟩ := hps p' hp'
    exact place?_congr hs h.same
  refine ⟨h.same.trans h'.same, fun p' hp' q hq text hfile => ?_, fun q => ?_⟩
  · rcases mem_cons.1 hp' with rfl | hp'
    · rcases h'.node q with hsame | ⟨hnone,-⟩
      · exact h.gone p' mem_cons_self q hq text (hsame.symm.trans hfile)
      · simp [hnone] at hfile
    · exact h'.gone p' hp' q ((hplace hp').trans hq) text hfile
  · rcases h'.node q with hsame | ⟨hnone,p',hp',hq⟩
    · rcases h.node q with hsame' | ⟨hnone,p',hp',hq⟩
      · exact .inl (hsame.trans hsame')
      · obtain rfl := mem_singleton.1 hp'
        exact .inr ⟨hsame.trans hnone, p', mem_cons_self, hq⟩
    · exact .inr ⟨hnone, p', mem_cons_of_mem _ hp', (hplace hp').symm.trans hq⟩

theorem Grown.refl (ps : List Path) (t : FileTree) : Grown ps t t := ⟨rfl, fun _ => .inl rfl⟩

theorem Grown.keeps (h : Grown ps t t') : t.KeepsDirectories t' := by
  refine ⟨h.here, fun q hq => ?_⟩
  rcases h.node q with hsame | ⟨-,hdir,-⟩
  · rw [hsame,hq]
  · exact hdir

theorem Kept.keep (h : Kept ps t t' q) (hkeep : t'.KeepsDirectories u) (hnode : u.node? q = t'.node? q) :
    Kept ps t u q := by
  unfold Kept
  rw [hnode]
  refine h.imp_right ?_
  rintro ⟨hnone,hdir,p,hp,hat⟩
  obtain ⟨hfollow,hlocate⟩ := locate_eq_ok hat
  exact ⟨hnone, hdir, p, hp, (hlocate u hkeep.here).trans (follow_keep hkeep hfollow)⟩

theorem Grown.trans (h : Grown ps t t') (h' : Grown ps t' u) : Grown ps t u := by
  refine ⟨h'.here.trans h.here, fun q => ?_⟩
  rcases h'.node q with hsame | ⟨hnone,hdir,hp⟩
  · exact (h.node q).keep h'.keeps hsame
  · rcases h.node q with hsame' | ⟨-,hdir',-⟩
    · exact .inr ⟨hsame'.symm.trans hnone, hdir, hp⟩
    · cases hdir'.symm.trans hnone

theorem grown_of_makeDirectory (hp : p ∈ ps)
    (h : Obeys False (·.makeDirectory p) (fun _ _ => False) t r t') :
    Grown ps t t' := by
  cases r with
  | error e =>
    obtain ⟨rfl | hfalse,-⟩ := h
    · exact .refl _ _
    · exact hfalse.elim
  | ok _ =>
    have hmake : t.makeDirectory p = .ok t' := h
    unfold makeDirectory at hmake
    cases hlocate : t.locate p with
    | error e => simp [hlocate,bind,Except.bind] at hmake
    | ok x =>
      obtain ⟨q,_ | n,_⟩ := x
      · simp only [hlocate,bind,Except.bind,pure,Except.pure,Except.ok.injEq] at hmake
        obtain ⟨hfollow,hlocated⟩ := locate_eq_ok hlocate
        obtain ⟨hne,hnone,hmade⟩ := follow_of_none hfollow
        have hnode (r : Place) : t'.node? r = if r = q then some .directory else t.node? r :=
          hmake ▸ node?_insert hne _ r
        have hhere : t'.here = t.here := hmake ▸ rfl
        refine ⟨hhere, fun r => ?_⟩
        by_cases hr : r = q
        · have hkeep : t.KeepsDirectories t' :=
            ⟨hhere, fun r hdir => by rw [hnode]; split <;> simp [hdir]⟩
          have hq : t'.node? q = some .directory := by simp [hnode]
          exact hr ▸ .inr ⟨hnone, hq, p, hp, (hlocated t' hhere).trans (hmade t' hkeep hq)⟩
        · exact .inl (by rw [hnode,if_neg hr])
      · simp [hlocate,bind,Except.bind,throw,throwThe,MonadExceptOf.throw] at hmake

end Changes

namespace FileSystem.Serves

variable {fs : FileSystem (StateM σ)} {sure : Prop} (h : fs.Serves tree sure)

include h

theorem shed (ps : List Path) (hps : ∀ p ∈ ps, ∃ s, p.Names s) :
    Does tree (fs.discard ps) fun t _ t' => Shed ps t t' := by
  induction ps with
  | nil => exact fun s => ⟨.refl _, by simp, fun _ => .inl rfl⟩
  | cons p ps ih =>
    obtain ⟨⟨s,hp⟩,hps⟩ := forall_mem_cons.1 hps
    exact (h.removeFile p).seq fun _ s' t hremoved => (shed_of_removeFile hp hremoved).trans
      (ih hps s') hps

/-- A directory and those on the way to it are made, as far as they can be. -/
theorem grown {all ps : List Path} (hps : ps ⊆ all) :
    Does tree (fs.makeChain ps) fun t _ t' => Grown all t t' := by
  have hseq {α β : Type} {m : StateM σ α} {k : α → StateM σ β}
    (hm : Does tree m fun t _ t' => Grown all t t')
      (hk : ∀ a, Does tree (k a) fun t _ t' => Grown all t t') : Does tree (m >>= k) fun t _ t' =>
      Grown all t t' :=
    hm.seq fun a s t ht => ht.trans (hk a s)
  have hsettle (p : Path) (made : Except FileError Unit) : Does tree (fs.settle p made) fun t _ t' =>
      Grown all t t' := by
    cases made with
    | ok _ => exact fun _ => .refl _ _
    | error e => exact (h.isDirectory p).seq fun _ _ _ heq => heq ▸ .refl _ _
  induction ps with
  | nil => exact fun s => .refl _ _
  | cons p outer ih =>
    obtain ⟨hp,houter⟩ := cons_subset.1 hps
    have hmake : Does tree (fs.makeDirectory p) fun t _ t' => Grown all t t' := fun s =>
      grown_of_makeDirectory hp (h.makeDirectory p s)
    rw [makeChain]
    split
    · exact fun s => .refl _ _
    · refine hseq hmake fun made => ?_
      split
      · refine hseq (ih houter) fun r => ?_
        cases r with
        | error e => exact fun s => .refl _ _
        | ok _ => exact hseq hmake (hsettle p)
      · exact hsettle p _

end FileSystem.Serves

end Polled
