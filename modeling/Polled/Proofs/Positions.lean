import Polled.Proofs.Discovery
import Polled.Proofs.PairedLowering

/-!
Where the places of errors lie.

Every place that the compiler reports is a range of one of the loaded files, and both its ends lie
between characters. Tokens are such ranges, and all that is done with places keeps them inside their file
(`steady_sited`).
-/

namespace Polled

open List

variable {c : Char} {s : Span}

section Boundaries

/-- The offset lies between two characters, or at an end of the text. -/
def Boundary (text : List Char) (offset : Nat) : Prop :=
  ∃ before after, text = before ++ after ∧ byteLength before = offset

variable {text : List Char} {m n : Nat}

theorem boundary_zero (text : List Char) : Boundary text 0 := ⟨[], text, rfl, rfl⟩

theorem Boundary.min (hm : Boundary text m) (hn : Boundary text n) : Boundary text (min m n) := by
  rcases Nat.le_total m n with h | h
  · rwa [Nat.min_eq_left h]
  · rwa [Nat.min_eq_right h]

theorem Boundary.max (hm : Boundary text m) (hn : Boundary text n) : Boundary text (max m n) := by
  rcases Nat.le_total m n with h | h
  · rwa [Nat.max_eq_right h]
  · rwa [Nat.max_eq_left h]

theorem byteLength_ofList (cs : List Char) : (String.ofList cs).utf8ByteSize = byteLength cs := by
  induction cs with
  | nil => rfl
  | cons c cs ih => simp [String.ofList_cons,byteLength,ih]

theorem Boundary.isValid {text : String} (h : Boundary text.toList n) :
    String.Pos.Raw.IsValid text ⟨n⟩ := by
  obtain ⟨before,after,htext,hn⟩ := h
  refine String.Pos.Raw.isValid_iff_exists_append.2 ⟨String.ofList before, String.ofList after, ?_, ?_⟩
  · rw [← String.ofList_append,← htext,String.ofList_toList]
  · rw [String.rawEndPos,byteLength_ofList,hn]

theorem beforeOffset_append (before after : List Char) :
    beforeOffset (byteLength before) (before ++ after) = some before := by
  induction before with
  | nil => cases after <;> simp [beforeOffset,byteLength]
  | cons c cs ih =>
    have hne : c.utf8Size + byteLength cs ≠ 0 := by
      have := c.utf8Size_pos
      omega
    rw [cons_append,byteLength,beforeOffset,if_neg hne,if_pos (Nat.le_add_right _ _),
      Nat.add_sub_cancel_left,ih, Option.map_some]

end Boundaries

section Lexemes

/-- The last character takes one byte. -/
def EndsPlain (word : List Char) : Prop := ∃ c, word.getLast? = some c ∧ c.utf8Size = 1

theorem utf8Size_of_isNamePart (h : isNamePart c = true) : c.utf8Size = 1 := by
  rw [Char.utf8Size_eq_one_iff,UInt32.le_iff_toNat_le]
  change ((((decide (c.val ≥ 'A'.val ∧ c.val ≤ 'Z'.val)) ||
    (decide (c.val ≥ 'a'.val) && decide (c.val ≤ 'z'.val))) ||
    (decide (c.val ≥ '0'.val) && decide (c.val ≤ '9'.val))) || c == '_') = true at h
  simp only [Bool.or_eq_true,Bool.and_eq_true,decide_eq_true_eq,beq_iff_eq,ge_iff_le,
    UInt32.le_iff_toNat_le] at h
  rcases h with ((⟨-,h⟩ | ⟨-,h⟩) | ⟨-,h⟩) | rfl
  · exact h.trans (by decide)
  · exact h.trans (by decide)
  · exact h.trans (by decide)
  · decide

theorem endsPlain_of_all {cs : List Char} (hc : isNamePart c = true)
    (h : ∀ x ∈ cs, isNamePart x = true) :
    EndsPlain (c :: cs) := by
  have hne : c :: cs ≠ [] := cons_ne_nil c cs
  have hall : ∀ x ∈ c :: cs, isNamePart x = true := forall_mem_cons.2 ⟨hc, h⟩
  exact ⟨_, getLast?_eq_some_getLast hne, utf8Size_of_isNamePart (hall _ (getLast_mem hne))⟩

theorem Token.Spells.endsPlain {t : Token} {word : List Char} (h : t.Spells word) : EndsPlain word := by
  cases t with
  | keyword k =>
    obtain rfl : word = _ := h
    cases k <;> exact ⟨_, rfl, by decide⟩
  | integer n =>
    obtain ⟨c,cs,rfl⟩ := exists_cons_of_ne_nil h.ne_nil
    have hnumeral := h.1
    simp only [isNumeral,Bool.and_eq_true,all_eq_true] at hnumeral
    refine endsPlain_of_all (by simp [isNamePart,Char.isAlphanum,hnumeral.1]) fun x hx => ?_
    have hpart := hnumeral.2 x hx
    simp only [isDigitPart,Bool.or_eq_true] at hpart
    simp only [isNamePart,Char.isAlphanum,Bool.or_eq_true]
    tauto
  | text s =>
    obtain ⟨_,rfl,-⟩ := h
    exact ⟨'"', getLast?_concat, by decide⟩
  | name x =>
    obtain ⟨c,_,rfl⟩ := exists_cons_of_ne_nil h.ne_nil
    have hname := h.2.1
    simp only [isName,isNameStart,Bool.and_eq_true,Bool.or_eq_true,all_eq_true] at hname
    refine endsPlain_of_all ?_ hname.2
    simp only [isNamePart,Char.isAlphanum,Bool.or_eq_true]
    tauto
  | mark m =>
    obtain rfl : word = _ := h
    cases m <;> exact ⟨_, rfl, by decide⟩

end Lexemes

section Places

/-- A range of characters of the file. -/
structure Span.Inside (text : List Char) (file : Nat) (s : Span) : Prop where
  file_eq : s.file = file
  le : s.start ≤ s.stop
  start : Boundary text s.start
  stop : Boundary text s.stop

/-- The same range of the file on both sides, with a last character of one byte. -/
def Sited (text : List Char) (file : Nat) (s t : Span) : Prop :=
  s = t ∧ s.Inside text file ∧ Boundary text (s.stop - 1)

theorem steady_sited (text : List Char) (file : Nat) : Steady (Sited text file) where
  after := by
    rintro s _ ⟨rfl,h,hlast⟩
    exact ⟨rfl, ⟨h.file_eq, le_rfl, h.stop, h.stop⟩, hlast⟩
  last := by
    rintro s _ ⟨rfl,h,hlast⟩
    exact ⟨rfl, ⟨h.file_eq, Nat.sub_le _ _, hlast, h.stop⟩, hlast⟩
  cover := by
    rintro s _ u _ ⟨rfl,hs,hslast⟩ ⟨rfl,hu,hulast⟩
    refine ⟨rfl, ⟨hs.file_eq, ?_, hs.start.min hu.start, hs.stop.max hu.stop⟩, ?_⟩
    · exact (Nat.min_le_left _ _).trans (hs.le.trans (Nat.le_max_left _ _))
    · have hmax : max s.stop u.stop - 1 = max (s.stop - 1) (u.stop - 1) := by omega
      exact hmax ▸ hslast.max hulast
  orElse := by
    rintro s _ u _ ⟨rfl,hs⟩ ⟨rfl,hu⟩
    split
    · exact ⟨rfl, hu⟩
    · exact ⟨rfl, hs⟩

/-- A tree lies in the text that it was read from, and so does the place where reading failed. -/
theorem SourceModule.parse_sited (text : List Char) (file : Nat) :
    Alike (CompileError.Paired fun s t => s = t ∧ s.Inside text file)
      (SourceModule.Paired (Sited text file)) (parse text file) (parse text file) := by
  have hinside (before word rest : List Char) (htext : text = before ++ word ++ rest) :
      Span.Inside text file ⟨byteLength before, byteLength before + byteLength word, file⟩ := by
    refine ⟨rfl, Nat.le_add_right _ _, ⟨before, word ++ rest, by simp [htext], rfl⟩, ?_⟩
    exact ⟨before ++ word, rest, htext, byteLength_append _ _⟩
  have hword {before : List Char} {c : Char} {cs : List Char} (htext : text = before ++ c :: cs) :
      ∃ rest, text = before ++ (Lexeme.first c cs).text ++ rest := by
    obtain ⟨rest,hrest⟩ := (Lexeme.text_isPrefix c cs).1
    exact ⟨rest, by rw [htext,← hrest,append_assoc]⟩
  have hstart : Sited text file ⟨0, 0, file⟩ ⟨0, 0, file⟩ :=
    ⟨rfl, ⟨rfl, le_rfl, boundary_zero text, boundary_zero text⟩, boundary_zero text⟩
  refine parse_alike ?_ ?_ (steady_sited text file) hstart fun s t h => ⟨h.1, h.2.1⟩
  · intro before c cs t word htext hfirst
    obtain ⟨rest,hrest⟩ := hword htext
    rw [hfirst] at hrest
    refine ⟨rfl, hinside before word rest hrest, ?_⟩
    -- Without its last character, the token ends one byte earlier.
    obtain ⟨l,hl,hsize⟩ := (Lexeme.first_eq_token_iff.1 hfirst).1.endsPlain
    obtain ⟨front,rfl⟩ := getLast?_eq_some_iff.1 hl
    refine ⟨before ++ front, l :: rest, by simp [hrest,Lexeme.text], ?_⟩
    simp [byteLength,hsize,← Nat.add_assoc]
  · intro before c cs f word htext hfirst
    obtain ⟨rest,hrest⟩ := hword htext
    rw [hfirst] at hrest
    exact ⟨rfl, hinside before word rest hrest⟩

end Places

section Reports

variable {modules : List (String × String)} {names : List String} {sources : Sources}

/-- The place lies in one of the loaded files. -/
def Sources.Locate (sources : Sources) (s t : Span) : Prop :=
  s = t ∧ ∃ file, sources.get? s.file = some file ∧ s.Inside file.text.toList s.file

theorem Sources.locate_of_inside {f : SourceFile} {i : Nat} (hf : sources.get? i = some f) {t : Span}
    (h : s = t ∧ s.Inside f.text.toList i) : sources.Locate s t := by
  obtain ⟨hst,hs⟩ := h
  obtain rfl := hs.file_eq
  exact ⟨hst, f, hf, hs⟩

section

variable {i : Nat} {x : String} {t : FoundText} (h : sources.Hold modules names)
  (hx : names[i]? = some x)
variable (ht : supplied modules x = some t)

include h hx ht

theorem Sources.Hold.get? : ∃ f, sources.get? i = some f ∧ f.text = t.text := by
  obtain ⟨hi,rfl⟩ := List.getElem?_eq_some_iff.1 hx
  have hi' : i < sources.files.length := h.length_eq ▸ hi
  obtain ⟨-,hf⟩ := h.get hi hi'
  cases ht.symm.trans hf
  exact ⟨_, getElem?_eq_getElem hi', rfl⟩

theorem Sources.Hold.parse : ∃ text, (∀ s t, (s = t ∧ s.Inside text i) → sources.Locate s t) ∧
      Alike (CompileError.Paired fun s t => s = t ∧ s.Inside text i) (SourceModule.Paired (Sited text i))
        (SourceModule.parse t.text.toList i) (SourceModule.parse t.text.toList i) := by
  obtain ⟨f,hf,hft⟩ := h.get? hx ht
  refine ⟨f.text.toList, fun _ _ => Sources.locate_of_inside hf, ?_⟩
  rw [← hft]
  exact SourceModule.parse_sited _ _

end

theorem exists_of_firstImport {x y : String} {span : Span}
    (h : firstImport modules names x = some (y, span)) :
    ∃ i t tree, ∃ l ∈ tree.imports, names[i]? = some y ∧ supplied modules y = some t ∧
      SourceModule.parse t.text.toList i = .ok tree ∧ l.span = span := by
  obtain ⟨⟨z,i⟩,hmem,hfind⟩ := exists_of_findSome?_eq_some h
  obtain ⟨l,hl,hyl⟩ := Option.map_eq_some_iff.1 hfind
  cases hyl
  obtain ⟨t,tree,ht,htree,himport⟩ := exists_of_mem_importsAs (mem_of_find?_eq_some hl)
  exact ⟨i, t, tree, l, himport, mk_mem_zipIdx_iff_getElem?.1 hmem, ht, htree, rfl⟩

theorem LoadsTo.locate_error {order : List String} {a : Attempt (List BundleModule)}
    (h : LoadsTo modules order a) {e : CompileError} (he : a.outcome = .error e) :
    e.Paired a.sources.Locate e := by
  obtain ⟨before,x,_,-,-,⟨-,rfl,hsources⟩ | ⟨t,ht,hparse,hsources⟩⟩ := h.exists_before he
  · rw [Pending.missing]
    cases himport : firstImport modules before x with
    | none => exact .program _
    | some place =>
      obtain ⟨y,_⟩ := place
      obtain ⟨i,t,_,l,hl,hy,ht,htree,rfl⟩ := exists_of_firstImport himport
      obtain ⟨text,hlocate,halike⟩ := hsources.parse hy ht
      rw [htree] at halike
      cases halike with
      | ok htree =>
        obtain ⟨-,-,hspan,-⟩ := forall₂_same.1 htree.imports l hl
        exact .source _ (hlocate _ _ ⟨rfl, hspan⟩)
  · obtain ⟨_,hlocate,halike⟩ := hsources.parse (by simp : (before ++ [x])[before.length]? = some x) ht
    rw [hparse] at halike
    cases halike with
    | error he => exact he.imp hlocate

theorem LoadedAs.locate {ms : List BundleModule} (h : LoadedAs modules names ms sources) :
    Forall₂ (BundleModule.Paired sources.Locate) ms ms := by
  refine forall₂_same.2 fun m hm => ⟨rfl, ?_⟩
  obtain ⟨i,hi,rfl⟩ := mem_iff_getElem.1 hm
  have hi' : i < names.length := h.trees.length_eq ▸ hi
  obtain ⟨-,t,ht,htree⟩ := h.trees.get hi' hi
  have hfile : ms[i].file = i := by
    have hfiles := congrArg (·[i]?) h.files
    simpa [hi,hi'] using hfiles
  obtain ⟨text,hlocate,halike⟩ := h.sources.parse (getElem?_eq_getElem hi') ht
  rw [get_eq_getElem,hfile] at htree
  rw [htree] at halike
  cases halike with
  | ok htree =>
    refine htree.functions.imp fun d d' hd => ⟨_, steady_sited text i, fun s t hst => ?_, hd⟩
    exact hlocate s t ⟨hst.1, hst.2.1⟩

theorem locate_loadBundle (modules : List (String × String)) (entry : String) :
    let a := Id.run (loadBundle (.memory modules) entry)
    Alike (CompileError.Paired a.sources.Locate) (Bundle.Paired a.sources.Locate) a.outcome
      a.outcome := by
  intro a
  obtain ⟨_,-,hloads⟩ := exists_loadsTo modules entry
  let l := (Loading.start entry).load modules (modules.length + 2)
  have hsources : a.sources = l.sources := rfl
  have houtcome : a.outcome = l.outcome.map fun ms => ⟨entry, ms⟩ := rfl
  rw [houtcome,hsources]
  cases hl : l.outcome with
  | ok ms => exact .ok ⟨rfl, (hloads.loadedAs hl).locate⟩
  | error e => exact .error (hloads.locate_error hl)

theorem Attempt.sources_generate (a : Attempt Bundle) : a.generate.sources = a.sources := by
  unfold Attempt.generate
  split
  · rfl
  split
  · rfl
  split <;> rfl

theorem CompileError.span?_root (e : CompileError) : e.root.span? = e.span? := by
  induction e with
  | inFunction name cause ih => exact ih
  | _ => rfl

theorem Span.Inside.isSome_atOffset {text : List Char} {file : Nat} (h : s.Inside text file) :
    (Position.atOffset text s.start).isSome := by
  obtain ⟨_,_,rfl,hstart⟩ := h.start
  rw [Position.atOffset,← hstart,beforeOffset_append,Option.isSome_map,Option.isSome_some]

end Reports

/-- Every place that is reported lies in a loaded file. It is a range of its bytes, both ends lie between
characters, and so the line that reports the error can always be written. -/
theorem isValid_of_compile_error (modules : List (String × String)) (entry : String) (e : CompileError)
    (he : (Id.run (compile (.memory modules) entry)).outcome = .error e) :
    let sources := (Id.run (compile (.memory modules) entry)).sources
    (∀ s, e.root.span? = some s → ∃ file, sources.get? s.file = some file ∧ s.start ≤ s.stop ∧
      s.stop ≤ file.text.utf8ByteSize ∧ String.Pos.Raw.IsValid file.text ⟨s.start⟩ ∧
      String.Pos.Raw.IsValid file.text ⟨s.stop⟩) ∧
    (sources.oneLine? e).isSome := by
  intro sources
  let a := Id.run (loadBundle (.memory modules) entry)
  have hsources : sources = a.sources := a.sources_generate
  have hpaired : e.Paired sources.Locate e := by
    have halike : Alike (CompileError.Paired a.sources.Locate) Eq a.generate.outcome
        a.generate.outcome :=
      Attempt.generate_alike rfl (locate_loadBundle modules entry)
    rw [show a.generate.outcome = .error e from he,← hsources] at halike
    cases halike with
    | error h => exact h
  have hlocate {s : Span} (hs : e.span? = some s) : sources.Locate s s := by
    have hspan := hpaired.span?
    rw [hs] at hspan
    cases hspan with
    | some h => exact h
  constructor
  · intro s hs
    obtain ⟨-,file,hfile,hinside⟩ := hlocate (e.span?_root ▸ hs)
    have hstop := hinside.stop.isValid
    exact ⟨file, hfile, hinside.le, hstop.le_rawEndPos, hinside.start.isValid, hstop⟩
  · rw [Sources.oneLine?,Sources.fileOf?]
    cases hs : e.span? with
    | none => rfl
    | some s =>
      obtain ⟨-,_,hfile,hinside⟩ := hlocate hs
      simpa [hfile] using hinside.isSome_atOffset

/-- A function that does not return, in a file with characters of several bytes. -/
def unfinished : List (String × String) :=
  [("main", "import lib // é\nfunc main(): Integer \x7b let x = \"ü\" \x7d"),
    ("lib", "func one(): Integer \x7b return 1 \x7d")]

theorem unfinished_isValid_of_compile_error : (Id.run (compile (.memory unfinished) "main")).outcome =
      .error (.inFunction "main" (.source (.missingReturn "main") ⟨53, 54, 0⟩)) ∧
    ∃ file, (Id.run (compile (.memory unfinished) "main")).sources.get? 0 = some file ∧
      54 ≤ file.text.utf8ByteSize ∧ String.Pos.Raw.IsValid file.text ⟨53⟩ ∧
        String.Pos.Raw.IsValid file.text ⟨54⟩ := by
  have he : (Id.run (compile (.memory unfinished) "main")).outcome =
      .error (.inFunction "main" (.source (.missingReturn "main") ⟨53, 54, 0⟩)) := by decide +kernel
  obtain ⟨file,hfile,-,hstop⟩ := (isValid_of_compile_error unfinished "main" _ he).1 _ rfl
  exact ⟨he, file, hfile, hstop⟩

end Polled
