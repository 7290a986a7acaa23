import Polled.Proofs.Starting

/-!
Generated C read back.

`Statement.read` looks at the text of a line alone, and says what it does to the futures and the flags of
the running record. `Test.readAll` reads the head of a block as tests. Both give back what was written,
whatever the names of routines.
-/

namespace Polled.CSource

open List

variable {fuel : Nat}

def drop? : List Char → List Char → Option (List Char)
  | [], cs => some cs
  | w :: ws, c :: cs => if w = c then drop? ws cs else none
  | _ :: _, [] => none

def after (word : String) (cs : List Char) : Option (List Char) := drop? word.toList cs

def number (cs : List Char) : Nat × List Char :=
  (Nat.ofDigitChars 10 (cs.takeWhile Char.isDigit) 0, cs.dropWhile Char.isDigit)

/-- A number with the given text in front of it and behind it. -/
def numbered (front back : String) (cs : List Char) : Option (Nat × List Char) := do
  let (n, cs) := number (← after front cs)
  return (n, ← after back cs)

def slot? : List Char → Option (Register × List Char) := numbered "sp->r[" "]"

def flag? : List Char → Option (Condition × List Char) := numbered "sp->conditions[" "]"

namespace Test

def readPlain (cs : List Char) : Option (Test × List Char) :=
  match flag? cs with
  | some (c, rest) => some (.flag c, rest)
  | none => do
    let (r, rest) ← slot? cs
    return (.ready r, ← after ".ready" rest)

def read (cs : List Char) : Option (Test × List Char) :=
  match after "!" cs with
  | some cs => (readPlain cs).map fun t => (.not t.1, t.2)
  | none => readPlain cs

/-- Tests up to the end of the head of a block. -/
def readRest : (fuel : Nat) → List Char → Option (List Test)
  | 0, _ => none
  | fuel + 1, cs => do
    let (t, rest) ← read cs
    match after " && " rest with
    | some rest => return t :: (← readRest fuel rest)
    | none => if rest = ") \x7b".toList then some [t] else none

/-- The head of a block as tests, all of which have to hold. -/
def readAll (cs : List Char) : Option (List Test) := do
  readRest cs.length (← after "if (" cs)

end Test

/-- What a line does to the futures and flags of the running record. -/
inductive Statement where
  /-- The slot is ready. -/
  | ready (slot : Register)
  /-- The whole future of one slot goes to another. -/
  | copy (slot source : Register)
  /-- The slot gets another value. -/
  | fill (slot : Register)
  /-- Anything can be in the slot. -/
  | spoil (slot : Register)
  | raise (flag : Condition)
  | follow (flag : Condition) (test : Register) (outcome : Bool)
  /-- Anything can be in the flag. -/
  | upset (flag : Condition)
  /-- Pointers to the slots are handed out, for results. -/
  | lend (slots : List Register)
  /-- Something is called, which can write through the pointers that were handed out. -/
  | call
  | other
  deriving DecidableEq, Repr

namespace Statement

def readSlot (r : Register) (cs : List Char) : Statement :=
  if cs = ".ready = true;".toList then .ready r
  else
    match numbered " = sp->r[" "];" cs with
    | some (s, []) => .copy r s
    | _ => if (after ".value" cs).isSome then .fill r else .spoil r

def readFlag (c : Condition) (cs : List Char) : Statement :=
  if cs = " = true;".toList then .raise c
  else
    match numbered " = sp->r[" "].value.boolean;" cs, numbered " = !sp->r[" "].value.boolean;" cs with
    | some (r, []), _ => .follow c r true
    | _, some (r, []) => .follow c r false
    | _, _ => .upset c

/-- Addresses of slots up to the end of their list. -/
def readAddresses : (fuel : Nat) → List Char → Option (List Register)
  | 0, _ => none
  | fuel + 1, cs => do
    let (r, rest) ← numbered "&sp->r[" "]" cs
    match after ", " rest with
    | some rest => return r :: (← readAddresses fuel rest)
    | none => if rest = "\x7d;".toList then some [r] else none

def readResults (cs : List Char) : Option (List Register) := do
  let cs ← after "future_t *results[] = \x7b" cs
  if cs = "NULL\x7d;".toList then some [] else readAddresses cs.length cs

def readRecord (cs : List Char) : Option (List Char) :=
  (numbered "sp->call_" "" cs).map (·.2) <|> after "sp" cs <|> after "child" cs <|> after "next" cs

def readTarget (cs : List Char) : Option Register := do
  let (_, cs) ← numbered "->result[" "] = &" cs
  let (r, cs) ← numbered "sp->r[" "];" cs
  if cs = [] then some r else none

def readLink (cs : List Char) : Option Register := (readRecord cs).bind readTarget

def read (cs : List Char) : Statement :=
  match slot? cs, flag? cs, readResults cs, readLink cs with
  | some (r, rest), _, _, _ => readSlot r rest
  | none, some (c, rest), _, _ => readFlag c rest
  | none, none, some slots, _ => .lend slots
  | none, none, none, some r => .lend [r]
  | none, none, none, none => if '(' ∈ cs then .call else .other

end Statement

/-- What an action is read as. -/
def Action.statement : Action → Statement
  | .copy .self index slot => .copy index slot
  | .pass .value .self index _ => .fill index
  | .pass _ .self index _ => .spoil index
  | .store slot _ => .fill slot
  | .markReady slot => .ready slot
  | .raise c => .raise c
  | .follow c test outcome => .follow c test outcome
  | .link _ _ slot => .lend [slot]
  | .resultList slots => .lend slots
  | .storeItem _ _ _ | .release _ _ | .releaseIfReady _ _ | .create _ _ _ | .poll _ _ | .schedule _ _
      | .callNative _
  | .reportDone | .wakeCaller | .dispose => .call
  | _ => .other

section

variable {word front back : String} {n : Nat} {cs rest : List Char}

theorem drop?_append_append (xs ys : List Char) : drop? (xs ++ ys) (xs ++ cs) = drop? ys cs := by
  induction xs with
  | nil => rfl
  | cons x xs ih => simpa [drop?] using ih

@[simp] theorem after_append : after word (word.toList ++ cs) = some cs := by
  simpa [after,drop?] using @drop?_append_append cs word.toList []

theorem number_append (h : cs.head?.all (!·.isDigit) = true) :
    number (Nat.toDigits 10 n ++ cs) = (n, cs) := by
  have hdigits : ∀ c ∈ Nat.toDigits 10 n, c.isDigit = true := fun c hc =>
    Nat.isDigit_of_mem_toDigits (by decide) (by decide) hc
  have hrest : cs.takeWhile Char.isDigit = [] ∧ cs.dropWhile Char.isDigit = cs := by
    cases cs with
    | nil => simp
    | cons c cs => simp_all
  rw [number,takeWhile_append_of_pos hdigits,dropWhile_append_of_pos hdigits,hrest.1,hrest.2,
    append_nil,Nat.ofDigitChars_toDigits (by decide) (by decide)]

theorem numbered_append (h : (back.toList ++ cs).head?.all (!·.isDigit) = true) :
    numbered front back (front.toList ++ (Nat.toDigits 10 n ++ (back.toList ++ cs))) = some (n, cs) := by
  simp [numbered,number_append h]

theorem numbered_of_after (h : after front cs = none) :
    numbered front back cs = none := by simp [numbered,h]

def clash (xs ys : List Char) : Bool := (xs.zip ys).any fun p => p.1 != p.2

theorem drop?_of_clash {xs ys : List Char} (h : clash xs ys = true) : drop? xs (ys ++ cs) = none := by
  induction xs generalizing ys with
  | nil => simp [clash] at h
  | cons x xs ih =>
    cases ys with
    | nil => simp [clash] at h
    | cons y ys =>
      by_cases hxy : x = y
      · subst hxy
        have hrest : clash xs ys = true := by simpa [clash] using h
        simpa [drop?] using ih hrest
      · simp [drop?,hxy]

theorem after_of_clash {start : String} (h : clash word.toList start.toList = true) :
    after word (start.toList ++ cs) = none :=
  drop?_of_clash h

/-- A list is read item by item, up to where it stops. -/
theorem read_separated {α : Type} {f : Nat → List Char → Option (List α)}
    {one : List Char → Option (α × List Char)} {sep stop : String} (text : α → String)
    (hf : ∀ n cs, f (n + 1) cs = do
      let (x, rest) ← one cs
      match after sep rest with
      | some rest => return x :: (← f n rest)
      | none => if rest = stop.toList then some [x] else none)
    (hstop : after sep stop.toList = none) {x : α} {xs : List α}
    (hone : ∀ y ∈ x :: xs, ∀ cs, one ((text y).toList ++ cs) = some (y, cs))
      (htext : ∀ y, 0 < (text y).toList.length)
    (h : (sep.intercalate ((x :: xs).map text)).toList.length < fuel) :
    f fuel ((sep.intercalate ((x :: xs).map text)).toList ++ stop.toList) = some (x :: xs) := by
  obtain ⟨fuel,rfl⟩ := Nat.exists_eq_add_one_of_ne_zero (Nat.ne_zero_of_lt h)
  induction xs generalizing x fuel with
  | nil =>
    rw [map_cons,map_nil,String.intercalate_singleton,hf,hone x mem_cons_self]
    simp only [Option.bind_eq_bind,Option.bind_some,hstop,if_true]
  | cons y ys ih =>
    rw [map_cons,map_cons,String.intercalate_cons_cons,← map_cons,String.toList_append,
      String.toList_append] at h ⊢
    have hshort : (sep.intercalate ((y :: ys).map text)).toList.length < fuel := by
      have hx := htext x
      simp only [length_append] at h
      omega
    obtain ⟨fuel,rfl⟩ := Nat.exists_eq_add_one_of_ne_zero (Nat.ne_zero_of_lt hshort)
    rw [append_assoc,append_assoc,hf,hone x mem_cons_self]
    simp only [Option.bind_eq_bind,Option.bind_some,after_append,
      ih (fun z hz => hone z (mem_cons_of_mem _ hz)) fuel hshort]
    rfl

theorem toList_slotText (r : Register) :
    (slotText r).toList ++ cs = "sp->r[".toList ++ (Nat.toDigits 10 r ++ ("]".toList ++ cs)) := by
  simp [slotText,toString,Nat.repr]

theorem toList_flagText (c : Condition) : (flagText c).toList ++ cs =
      "sp->conditions[".toList ++ (Nat.toDigits 10 c ++ ("]".toList ++ cs)) := by
  simp [flagText,toString,Nat.repr]

theorem toList_callText (k : ChildSlot) :
    (Record.call k).text.toList ++ cs = "sp->call_".toList ++ (Nat.toDigits 10 k ++ cs) := by
  simp [Record.text,toString,Nat.repr]

@[simp] theorem slot?_slotText (r : Register) : slot? ((slotText r).toList ++ cs) = some (r, cs) := by
  rw [toList_slotText]
  exact numbered_append (by simp)

@[simp] theorem flag?_flagText (c : Condition) : flag? ((flagText c).toList ++ cs) = some (c, cs) := by
  rw [toList_flagText]
  exact numbered_append (by simp)

theorem flag?_slotText (r : Register) : flag? ((slotText r).toList ++ cs) = none := by
  rw [toList_slotText]
  exact numbered_of_after (after_of_clash (by decide))

theorem slot?_flagText (c : Condition) : slot? ((flagText c).toList ++ cs) = none := by
  rw [toList_flagText]
  exact numbered_of_after (after_of_clash (by decide))

namespace Statement

theorem read_slot (r : Register) : read ((slotText r).toList ++ cs) = readSlot r cs := by
  simp [read]

theorem read_flag (c : Condition) : read ((flagText c).toList ++ cs) = readFlag c cs := by
  simp [read,slot?_flagText]

/-- A line that is neither about a slot, a flag nor a record. -/
def outside (start : List Char) : Bool :=
  ["sp->r[", "sp->conditions[", "future_t *results[] = \x7b", "sp->call_", "sp", "child",
    "next"].all fun word =>
    clash word.toList start

theorem read_of_outside {start : String} (h : outside start.toList = true) :
    read (start.toList ++ cs) = if '(' ∈ start.toList ++ cs then .call else .other := by
  have hword : ∀ word ∈ ["sp->r[", "sp->conditions[", "future_t *results[] = \x7b", "sp->call_", "sp",
    "child", "next"],
      after word (start.toList ++ cs) = none :=
      fun word hword => after_of_clash (all_eq_true.1 h word hword)
  have hslot : slot? (start.toList ++ cs) = none := numbered_of_after (hword _ (by simp))
  have hflag : flag? (start.toList ++ cs) = none := numbered_of_after (hword _ (by simp))
  have hresults : readResults (start.toList ++ cs) = none := by
    rw [readResults,hword _ (by simp)]
    rfl
  have hrecord : readRecord (start.toList ++ cs) = none := by
    have hcall : numbered "sp->call_" "" (start.toList ++ cs) = none :=
      numbered_of_after (hword _ (by simp))
    simp only [readRecord,hcall,hword "sp" (by simp),hword "child" (by simp),hword "next" (by simp)]
    rfl
  have hlink : readLink (start.toList ++ cs) = none := by
    rw [readLink,hrecord]
    rfl
  rw [read,hslot,hflag,hresults,hlink]

theorem after_append_append {xs ys : List Char} (h : word.toList = xs ++ ys) :
    after word (xs ++ cs) = drop? ys cs := by
  rw [after,h,drop?_append_append]

variable {text : List Char} {tail : String}

section

variable (start : String) (h : outside start.toList = true) (htext : start.toList <+: text)

include h htext

theorem read_call (hparen : '(' ∈ text) : read text = .call := by
  obtain ⟨_,rfl⟩ := htext
  rw [read_of_outside h,if_pos hparen]

theorem read_other (hparen : '(' ∉ text) : read text = .other := by
  obtain ⟨_,rfl⟩ := htext
  rw [read_of_outside h,if_neg hparen]

end

theorem readRecord_text (record : Record) (hdigit : (tail.toList ++ cs).head?.all (!·.isDigit) = true)
    (hcall : clash "->call_".toList tail.toList = true) :
    readRecord (record.text.toList ++ (tail.toList ++ cs)) = some (tail.toList ++ cs) := by
  cases record with
  | call k =>
    have h : tail.toList ++ cs = "".toList ++ (tail.toList ++ cs) := rfl
    rw [readRecord,toList_callText,h,numbered_append (by simpa using hdigit)]
    rfl
  | self =>
    have hnone : after "sp->call_" ("sp".toList ++ (tail.toList ++ cs)) = none := by
      rw [@after_append_append _ _ _ "->call_".toList (by decide)]
      exact drop?_of_clash hcall
    rw [readRecord,Record.text,numbered_of_after hnone,after_append]
    rfl
  | child | next =>
    rw [readRecord,Record.text,numbered_of_after (after_of_clash (by decide)),after_of_clash (by decide)]
    simp only [after_append,after_of_clash (show clash "child".toList "next".toList = true by decide)]
    rfl

/-- A line that begins with a record but with no slot and no flag of the running one. -/
theorem read_record {record : Record} (hdigit : (tail.toList ++ cs).head?.all (!·.isDigit) = true)
    (hcall : clash "->call_".toList tail.toList = true)
    (hslot : record = .self → clash "->r[".toList tail.toList = true)
    (hflag : record = .self → clash "->conditions[".toList tail.toList = true) :
    read (record.text.toList ++ (tail.toList ++ cs)) =
      match readTarget (tail.toList ++ cs) with
      | some r => .lend [r]
      | none => if '(' ∈ record.text.toList ++ (tail.toList ++ cs) then .call else .other := by
  have hnone : slot? (record.text.toList ++ (tail.toList ++ cs)) = none ∧
      flag? (record.text.toList ++ (tail.toList ++ cs)) = none ∧
      readResults (record.text.toList ++ (tail.toList ++ cs)) = none := by
    cases record with
    | self =>
      have hs : after "sp->r[" ("sp".toList ++ (tail.toList ++ cs)) = none := by
        rw [@after_append_append _ _ _ "->r[".toList (by decide)]
        exact drop?_of_clash (hslot rfl)
      have hf : after "sp->conditions[" ("sp".toList ++ (tail.toList ++ cs)) = none := by
        rw [@after_append_append _ _ _ "->conditions[".toList (by decide)]
        exact drop?_of_clash (hflag rfl)
      refine ⟨numbered_of_after hs, numbered_of_after hf, ?_⟩
      rw [readResults,Record.text,after_of_clash (by decide)]
      rfl
    | call k =>
      rw [toList_callText,readResults,after_of_clash (by decide)]
      exact ⟨numbered_of_after (after_of_clash (by decide)),
        numbered_of_after (after_of_clash (by decide)), rfl⟩
    | child | next =>
      rw [Record.text,readResults,after_of_clash (by decide)]
      exact ⟨numbered_of_after (after_of_clash (by decide)),
        numbered_of_after (after_of_clash (by decide)), rfl⟩
  rw [read,hnone.1,hnone.2.1,hnone.2.2,readLink,readRecord_text record hdigit hcall,Option.bind_some]
  cases readTarget (tail.toList ++ cs) <;> rfl

theorem readSlot_value (r : Register) : readSlot r (".value".toList ++ cs) = .fill r := by
  have hready : ".value".toList ++ cs ≠ ".ready = true;".toList := by simp
  rw [readSlot,if_neg hready,numbered_of_after (after_of_clash (by decide)),after_append]
  rfl

theorem readSlot_copy (r source : Register) :
    readSlot r (" = ".toList ++ ((slotText source).toList ++ ";".toList)) = .copy r source := by
  simp [readSlot,slotText,toString,Nat.repr,numbered,after,drop?,number_append]

theorem readFlag_follow (c : Condition) (test : Register) (outcome : Bool) :
    readFlag c (" = ".toList ++ ((if outcome then "" else "!").toList ++
      ((slotText test).toList ++ ".value.boolean;".toList))) = .follow c test outcome := by
  cases outcome <;> simp [readFlag,slotText,toString,Nat.repr,numbered,after,drop?,number_append]

theorem readTarget_of_clash (h : clash "->result[".toList tail.toList = true) :
    readTarget (tail.toList ++ cs) = none := by
  rw [readTarget,numbered_of_after (after_of_clash h)]
  rfl

/-- A line about another record. -/
theorem read_away (record : Record) (tail : String) (h : (tail.toList.head?.any (!·.isDigit) &&
      clash "->call_".toList tail.toList && clash "->result[".toList tail.toList) = true)
    (hself : record ≠ .self) (htext : record.text.toList ++ tail.toList <+: text) :
    read text = if '(' ∈ text then .call else .other := by
  obtain ⟨_,rfl⟩ := htext
  simp only [Bool.and_eq_true,Option.any_eq_true] at h
  obtain ⟨⟨⟨c,hc,hdigit⟩,hcall⟩,hresult⟩ := h
  rw [append_assoc,read_record (by simp [hc,hdigit]) hcall (absurd · hself) (absurd · hself),
    readTarget_of_clash hresult]

theorem readTarget_link (index slot : Nat) :
    readTarget ("->result[".toList ++ (Nat.toDigits 10 index ++ ("] = &".toList ++
      ((slotText slot).toList ++ ";".toList)))) = some slot := by
  simp [readTarget,slotText,toString,Nat.repr,numbered,after,drop?,number_append]

theorem readTarget_inherit (index : Nat) {tail : List Char} :
    readTarget ("->result[".toList ++ (Nat.toDigits 10 index ++ ("] = sp".toList ++ tail))) = none := by
  simp [readTarget,numbered,after,drop?,number_append]

def addressText (r : Register) : String := "&" ++ slotText r

theorem toList_addressText (r : Register) :
    (addressText r).toList ++ cs = "&sp->r[".toList ++ (Nat.toDigits 10 r ++ ("]".toList ++ cs)) := by
  simp [addressText,slotText,toString,Nat.repr]

theorem readResults_addresses (slots : List Register) :
    readResults ("future_t *results[] = \x7b".toList ++
      ((Action.addresses slots).toList ++ "\x7d;".toList)) = some slots := by
  rw [readResults,after_append]
  simp only [Option.bind_eq_bind,Option.bind_some]
  cases slots with
  | nil => simp [Action.addresses]
  | cons r rs =>
    have htext : Action.addresses (r :: rs) = ", ".intercalate ((r :: rs).map addressText) := rfl
    have hstop : after ", " "\x7d;".toList = none := @after_of_clash ", " [] "\x7d;" (by decide)
    have hstart : (Action.addresses (r :: rs)).toList ++ "\x7d;".toList ≠ "NULL\x7d;".toList := by
      intro h
      rw [htext] at h
      cases rs <;> simp [String.intercalate_cons_cons,addressText] at h
    rw [if_neg hstart,htext]
    refine read_separated addressText (fun _ _ => rfl) hstop (fun r _ cs => ?_)
      (by simp [addressText]) (by simp)
    rw [toList_addressText]
    exact numbered_append (by simp)

end Statement

namespace Test

/-- Tests of flags and slots, as guards have them. -/
def plain : Test → Bool
  | .flag _ | .ready _ | .not (.flag _) | .not (.ready _) => true
  | _ => false

theorem readPlain_flag (c : Condition) : readPlain ((flagText c).toList ++ cs) = some (.flag c, cs) := by
  rw [readPlain,flag?_flagText]

theorem readPlain_ready (r : Register) :
    readPlain ((slotText r).toList ++ (".ready".toList ++ cs)) = some (.ready r, cs) := by
  simp only [readPlain,flag?_slotText,slot?_slotText,Option.bind_eq_bind,Option.bind_some,after_append]
  rfl

theorem after_not_flag (c : Condition) : after "!" ((flagText c).toList ++ cs) = none := by
  rw [toList_flagText]
  exact after_of_clash (by decide)

theorem after_not_slot (r : Register) : after "!" ((slotText r).toList ++ cs) = none := by
  rw [toList_slotText]
  exact after_of_clash (by decide)

theorem read_text {t : Test} (h : t.plain = true) : read (t.text.toList ++ cs) = some (t, cs) := by
  unfold plain at h
  split at h
  · rw [text,read,after_not_flag,readPlain_flag]
  · rw [text,String.toList_append,append_assoc,read,after_not_slot,readPlain_ready]
  · rw [text,String.toList_append,append_assoc,read,after_append,text]
    simp only [readPlain_flag,Option.map_some]
  · rw [text,String.toList_append,append_assoc,read,after_append,text,String.toList_append,append_assoc]
    simp only [readPlain_ready,Option.map_some]
  · cases h

theorem text_nonempty (t : Test) : 0 < t.text.toList.length := by
  cases t <;> simp [text,flagText,slotText,doneText,Record.text,toString]

theorem readAll_testLine {tests : List Test} (hne : tests ≠ []) (hplain : ∀ t ∈ tests, t.plain = true) :
    readAll (testLine tests).write.toList = some tests := by
  have htext : (testLine tests).write.toList =
      "if (".toList ++ ((" && ".intercalate (tests.map text)).toList ++ ") \x7b".toList) := by
    simp [testLine,Line.write,Piece.write,String.join]
  obtain ⟨t,_,rfl⟩ := exists_cons_of_ne_nil hne
  have hstop : after " && " ") \x7b".toList = none := @after_of_clash " && " [] ") \x7b" (by decide)
  rw [htext,readAll,after_append,Option.bind_eq_bind,Option.bind_some]
  exact read_separated text (fun _ _ => rfl) hstop (fun u hu cs => read_text (hplain u hu)) text_nonempty
    (by simp; omega)

end Test

theorem paren_notMem_digits (n : Nat) : '(' ∉ Nat.toDigits 10 n := fun h =>
  absurd (Nat.isDigit_of_mem_toDigits (by decide) (by decide) h) (by decide)

@[simp] theorem paren_notMem_slotText (r : Register) : '(' ∉ (slotText r).toList := by
  simp [slotText,toString,Nat.repr,paren_notMem_digits]

@[simp] theorem paren_notMem_text (record : Record) : '(' ∉ record.text.toList := by
  cases record <;> simp [Record.text,toString,Nat.repr,paren_notMem_digits]

/-- The characters of a line. -/
def Line.chars (l : Line) : List Char := l.flatMap fun piece => piece.write.toList

@[simp] theorem Line.chars_nil : chars [] = [] := rfl

@[simp] theorem Line.chars_text (s : String) (l : Line) : chars (.text s :: l) = s.toList ++ l.chars :=
  rfl

@[simp] theorem Line.chars_symbol (s : Symbol) (l : Line) :
    chars (.symbol s :: l) = s.text.toList ++ l.chars := rfl

theorem Line.toList_write (l : Line) : l.write.toList = l.chars := by
  simp [write,chars,flatMap_def,Function.comp_def]

theorem Datum.exists_member (d : Datum) : ∃ rest, d.member.toList = ".value".toList ++ rest := by
  cases d <;> simp [member]

theorem paren_notMem_addresses (slots : List Register) : '(' ∉ (Action.addresses slots).toList := by
  cases slots with
  | nil => simp [Action.addresses]
  | cons r rs =>
    have htext : Action.addresses (r :: rs) = ", ".intercalate ((r :: rs).map Statement.addressText) :=
      rfl
    rw [htext]
    induction rs generalizing r with
    | nil => simp [Statement.addressText]
    | cons r' rs ih =>
      have ih := ih r' rfl
      rw [map_cons,map_cons,String.intercalate_cons_cons,← map_cons]
      simp [Statement.addressText] at ih ⊢
      exact ih

open Statement in
/-- What is written of an action can be read off its line. -/
theorem Statement.read_line (a : Action) : read a.line.write.toList = a.statement := by
  rw [Line.toList_write]
  cases a with
  | copy record index slot =>
    by_cases hself : record = .self
    · subst hself
      have htext : (Action.copy .self index slot).line.chars =
          (slotText index).toList ++ (" = ".toList ++ ((slotText slot).toList ++ ";".toList)) := by
        simp [Action.line,Record.text,slotText,toString,Nat.repr]
      rw [htext,read_slot,readSlot_copy]
      rfl
    · rw [read_away record "->r[" (by decide) hself (by simp [Action.line,toString])]
      cases record <;> simp_all [Action.line,toString,Nat.repr,paren_notMem_digits,Action.statement]
  | pass part record index slot =>
    by_cases hself : record = .self
    · subst hself
      have htext : (Action.pass part .self index slot).line.chars =
          (slotText index).toList ++ (part.text.toList ++ (" = ".toList ++ ((slotText slot).toList ++
            (part.text.toList ++ ";".toList)))) := by
        simp [Action.line,Record.text,slotText,toString,Nat.repr]
      rw [htext,read_slot]
      cases part with
      | value => exact readSlot_value index
      | ready | cancelled =>
        simp [readSlot,Part.text,slotText,toString,Nat.repr,numbered,after,drop?,Action.statement]
    · rw [read_away record "->r[" (by decide) hself (by simp [Action.line,toString])]
      cases record <;> cases part <;>
        simp_all [Action.line,toString,Nat.repr,paren_notMem_digits,Action.statement,Part.text]
  | store slot datum =>
    obtain ⟨rest,hrest⟩ := datum.exists_member
    have htext : (Action.store slot datum).line.chars =
        (slotText slot).toList ++
        (".value".toList ++ (rest ++ (" = ".toList ++ (datum.text.toList ++ ";".toList)))) := by
      simp [Action.line,hrest]
    rw [htext,read_slot,readSlot_value]
    rfl
  | markReady slot =>
    have htext : (Action.markReady slot).line.chars =
        (slotText slot).toList ++ ".ready = true;".toList := by
      simp [Action.line]
    rw [htext,read_slot,readSlot,if_pos rfl]
    rfl
  | raise c =>
    have htext : (Action.raise c).line.chars =
        (flagText c).toList ++ " = true;".toList := by
      simp [Action.line]
    rw [htext,read_flag,readFlag,if_pos rfl]
    rfl
  | follow c test outcome =>
    have htext : (Action.follow c test outcome).line.chars =
        (flagText c).toList ++ (" = ".toList ++ ((if outcome then "" else "!").toList ++
          ((slotText test).toList ++ ".value.boolean;".toList))) := by
      simp [Action.line]
    rw [htext,read_flag,readFlag_follow]
    rfl
  | link record index slot =>
    have htext : (Action.link record index slot).line.chars =
        record.text.toList ++ ("->result[".toList ++ (Nat.toDigits 10 index ++ ("] = &".toList ++
          ((slotText slot).toList ++ ";".toList)))) := by
      simp [Action.line,toString,Nat.repr]
    rw [htext,read_record (by simp) (by decide) (fun _ => by decide) (fun _ => by decide),
      readTarget_link]
    rfl
  | linkDone k =>
    rw [read_away (.call k) "->finished = &" (by decide) (by simp) (by simp [Action.line])]
    simp [Action.line,doneText,toString,Nat.repr,paren_notMem_digits,Action.statement]
  | forget k =>
    rw [read_away (.call k) " = NULL;" (by decide) (by simp) (by simp [Action.line])]
    simp [Action.line,Action.statement]
  | clearDone k =>
    rw [read_away (.call k) "_done" (by decide) (by simp)
      (by simp [Action.line,doneText,Record.text,toString])]
    simp [Action.line,doneText,toString,Nat.repr,paren_notMem_digits,Action.statement]
  | inheritDone => exact read_away .next "->finished" (by decide) (by decide) (by decide)
  | inheritResult index =>
    have htext : (Action.inheritResult index).line.chars =
        Record.next.text.toList ++ ("->result[".toList ++ (Nat.toDigits 10 index ++ ("] = sp".toList ++
          ("->result[".toList ++ (Nat.toDigits 10 index ++ "];".toList))))) := by
      simp [Action.line,Record.text,toString,Nat.repr]
    rw [htext,read_record (by simp) (by decide) (by simp) (by simp),readTarget_inherit]
    simp [paren_notMem_digits,Action.statement]
  | create record routine waker =>
    cases record with
    | call k =>
      rw [read_away (.call k) " = " (by decide) (by simp)
        (by simp [Action.line,Record.isLocal,Line.followedBy])]
      simp [Action.line,Record.isLocal,Line.followedBy,Action.statement]
    | self | child | next =>
      refine read_call "struct " (by decide) ?_ ?_ <;>
        simp [Action.line,Record.isLocal,Line.followedBy,cons_prefix_cons]
  | resultList slots =>
    have htext : (Action.resultList slots).line.chars =
        "future_t *results[] = \x7b".toList ++ ((Action.addresses slots).toList ++ "\x7d;".toList) := by
      simp [Action.line]
    have hslot : slot?
        ("future_t *results[] = \x7b".toList ++ ((Action.addresses slots).toList ++ "\x7d;".toList)) =
        none :=
      numbered_of_after (after_of_clash (by decide))
    have hflag : flag?
        ("future_t *results[] = \x7b".toList ++ ((Action.addresses slots).toList ++ "\x7d;".toList)) =
        none :=
      numbered_of_after (after_of_clash (by decide))
    rw [htext,read,hslot,hflag,readResults_addresses]
    rfl
  | argumentList slots =>
    refine read_other "future_t *args[] = \x7b" (by decide) ?_ ?_
    · simp [Action.line,cons_prefix_cons]
    · simp [Action.line,paren_notMem_addresses]
  | giveResult index slot =>
    refine read_other "*sp->result[" (by decide) ?_ ?_
    · simp [Action.line,toString,cons_prefix_cons]
    · simp [Action.line,toString,Nat.repr,paren_notMem_digits]
  | progress => exact read_other "progress" (by decide) (by decide) (by decide)
  | leave => exact read_other "return" (by decide) (by decide) (by decide)
  | storeItem tuple index item =>
    refine read_call "hang10_" (by decide) ?_ ?_ <;> simp [Action.line,cons_prefix_cons,toString]
  | release family slot =>
    refine read_call "hang10_" (by decide) ?_ ?_ <;>
      cases hfamily : decide (family = .tuple) <;>
        simp_all [Action.line,Action.releaseText,cons_prefix_cons]
  | releaseIfReady family slot =>
    refine read_call "if (" (by decide) ?_ ?_ <;> simp [Action.line,cons_prefix_cons]
  | poll record routine =>
    refine read_call "hang10_" (by decide) ?_ ?_ <;>
      simp [Action.line,Symbol.text,cons_prefix_cons]
  | schedule record routine =>
    refine read_call "hang10_" (by decide) ?_ ?_ <;> simp [Action.line,cons_prefix_cons]
  | callNative routine =>
    refine read_call "hang10_" (by decide) ?_ ?_ <;>
      simp [Action.line,Symbol.text,cons_prefix_cons]
  | reportDone => exact read_call "if (" (by decide) (by decide) (by decide)
  | wakeCaller => exact read_call "hang10_" (by decide) (by decide) (by decide)
  | dispose => exact read_call "free(" (by decide) (by decide) (by decide)

end

end Polled.CSource
