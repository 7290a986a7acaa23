import Polled.CSource.Layout
import Polled.CSource.Literal
import Polled.Op

/-!
What generated C does to activation records.

A record has a future for every register, flags for its conditions, pointers to where its results go, and
for every child slot `k` the record `call_k` of a child and the flag `call_k_done` that the child sets
when it returns.
-/

namespace Polled.CSource

inductive Record where
  /-- The running activation. -/
  | self
  /-- A child that is polled in place. -/
  | child
  /-- The next round of a loop. -/
  | next
  /-- The child that a child slot holds. -/
  | call (k : ChildSlot)
  deriving DecidableEq, Repr

def Record.text : Record → String
  | .self => "sp"
  | .child => "child"
  | .next => "next"
  | .call k => s!"sp->call_{k}"

/-- Names of the locals that hold a record; a child slot is a field. -/
def Record.isLocal : Record → Bool
  | .call _ => false
  | _ => true

def slotText (r : Register) : String := s!"sp->r[{r}]"

def flagText (c : Condition) : String := s!"sp->conditions[{c}]"

def doneText (k : ChildSlot) : String := s!"sp->call_{k}_done"

inductive Test where
  | flag (c : Condition)
  | ready (slot : Register)
  | childDone (k : ChildSlot)
  | childAbsent (k : ChildSlot)
  | not (t : Test)
  deriving DecidableEq, Repr

def Test.text : Test → String
  | .flag c => flagText c
  | .ready slot => slotText slot ++ ".ready"
  | .childDone k => doneText k
  | .childAbsent k => (Record.call k).text ++ " == NULL"
  | .not t => "!" ++ t.text

inductive Datum where
  | integer (value : Int)
  | string (value : String)
  | tuple (size : Nat)
  | comparison (op : Comparison) (family : Family) (lhs rhs : Register)
  | item (tuple : Register) (index : Nat)
  | tagIs (value : Register) (tag : Nat)
  | payload (value : Register)
  deriving DecidableEq, Repr

namespace Datum

/-- The member of a future that the value goes to. -/
def member : Datum → String
  | .integer _ => ".value.integer"
  | .string _ | .tuple _ => ".value.pointer"
  | .comparison _ _ _ _ | .tagIs _ _ => ".value.boolean"
  | .item _ _ | .payload _ => ".value"

def pointer (r : Register) : String := slotText r ++ ".value.pointer"

/-- Strings are compared by what they hold, streams, clocks and tuples by where they are. -/
def comparisonText (op : Comparison) (family : Family) (lhs rhs : Register) : String :=
  let sides (member : String) : String :=
    slotText lhs ++ ".value." ++ member ++ " " ++ op.symbol ++ " " ++ slotText rhs ++ ".value." ++ member
  match family with
  | Family.integer => sides "integer"
  | Family.boolean => sides "boolean"
  | Family.string =>
    "hang10_string_compare(" ++ pointer lhs ++ ", " ++ pointer rhs ++ ") " ++ op.symbol ++ " 0"
  | Family.stream | Family.clock | Family.tuple => sides "pointer"

def text : Datum → String
  | .integer value => toString value
  | .string value =>
    "hang10_string_new(" ++ String.ofList (literal value) ++ ", " ++ toString (utf8 value).length ++ ")"
  | .tuple size => s!"hang10_tuple_new({size})"
  | .comparison op family lhs rhs => comparisonText op family lhs rhs
  | .item source index => "hang10_tuple_get(" ++ pointer source ++ s!", {index})"
  | .tagIs value tag => "hang10_union_tag(" ++ pointer value ++ s!") == {tag}"
  | .payload value => "hang10_union_value(" ++ pointer value ++ ")"

end Datum

/-- Whom a new activation wakes when it returns. -/
inductive Waker where
  | none
  /-- The running activation, of the named routine. -/
  | self (routine : String)
  /-- Whoever the running activation would wake. -/
  | caller
  deriving DecidableEq, Repr

def Waker.line : Waker → Line
  | .none => ["hang10_closure_none()"]
  | .self routine => ["hang10_closure(", Symbol.poller routine, ", sp)"]
  | .caller => ["sp->caller"]

inductive Part where
  | value
  | ready
  | cancelled
  deriving DecidableEq, Repr

def Part.text : Part → String
  | .value => ".value"
  | .ready => ".ready"
  | .cancelled => ".cancelled"

inductive Action where
  /-- Puts the whole future of a slot into a register of a record. -/
  | copy (record : Record) (index : Nat) (slot : Register)
  | pass (part : Part) (record : Record) (index : Nat) (slot : Register)
  | store (slot : Register) (datum : Datum)
  | storeItem (tuple : Register) (index : Nat) (item : Register)
  | markReady (slot : Register)
  | raise (flag : Condition)
  /-- Sets a flag to the truth in a slot, or to its opposite. -/
  | follow (flag : Condition) (test : Register) (outcome : Bool)
  | release (family : Family) (slot : Register)
  | releaseIfReady (family : Family) (slot : Register)
  | create (record : Record) (routine : String) (waker : Waker)
  /-- Lets a record write a result into a slot. -/
  | link (record : Record) (index : Nat) (slot : Register)
  /-- Lets a child say in its done flag that it returned. -/
  | linkDone (k : ChildSlot)
  | poll (record : Record) (routine : String)
  | schedule (record : Record) (routine : String)
  | forget (k : ChildSlot)
  | clearDone (k : ChildSlot)
  | argumentList (slots : List Register)
  | resultList (slots : List Register)
  | callNative (routine : String)
  /-- Another pass over the operations is worthwhile. -/
  | progress
  | inheritDone
  | inheritResult (index : Nat)
  | giveResult (index : Nat) (slot : Register)
  | reportDone
  | wakeCaller
  | dispose
  | leave
  deriving DecidableEq, Repr

namespace Action

def releaseText (family : Family) (slot : Register) : String :=
  let routine := if family = .tuple then "hang10_tuple_free" else "hang10_string_free"
  routine ++ "(" ++ Datum.pointer slot ++ ");"

/-- An empty list of addresses is written as a single null. -/
def addresses (slots : List Register) : String :=
  if slots.isEmpty then "NULL" else ", ".intercalate (slots.map fun r => "&" ++ slotText r)

def line : Action → Line
  | .copy record index slot => [record.text ++ s!"->r[{index}] = " ++ slotText slot ++ ";"]
  | .pass part record index slot =>
    [record.text ++ s!"->r[{index}]" ++ part.text ++ " = " ++ slotText slot ++ part.text ++ ";"]
  | .store slot datum => [slotText slot ++ datum.member ++ " = " ++ datum.text ++ ";"]
  | .storeItem tuple index item =>
    ["hang10_tuple_set(" ++ Datum.pointer tuple ++ s!", {index}, " ++ slotText item ++ ".value);"]
  | .markReady slot => [slotText slot ++ ".ready = true;"]
  | .raise flag => [flagText flag ++ " = true;"]
  | .follow flag test outcome =>
    [flagText flag ++ " = " ++ (if outcome then "" else "!") ++ slotText test ++ ".value.boolean;"]
  | .release family slot => [releaseText family slot]
  | .releaseIfReady family slot =>
    ["if (" ++ slotText slot ++ ".ready) " ++ releaseText family slot]
  | .create record routine waker =>
    let target : Line :=
      if record.isLocal then ["struct ", Symbol.record routine, " *" ++ record.text] else [record.text]
    let call : Line := [" = ", Symbol.maker routine, "("]
    (target ++ call ++ waker.line).followedBy ");"
  | .link record index slot => [record.text ++ s!"->result[{index}] = &" ++ slotText slot ++ ";"]
  | .linkDone k => [(Record.call k).text ++ "->finished = &" ++ doneText k ++ ";"]
  | .poll record routine => [Symbol.poller routine, "(" ++ record.text ++ ");"]
  | .schedule record routine =>
    ["hang10_schedule(hang10_closure(", Symbol.poller routine, ", " ++ record.text ++ "));"]
  | .forget k => [(Record.call k).text ++ " = NULL;"]
  | .clearDone k => [doneText k ++ " = false;"]
  | .argumentList slots => ["future_t *args[] = \x7b" ++ addresses slots ++ "\x7d;"]
  | .resultList slots => ["future_t *results[] = \x7b" ++ addresses slots ++ "\x7d;"]
  | .callNative routine => [Symbol.native routine, "(args, results);"]
  | .progress => ["progress = true;"]
  | .inheritDone => ["next->finished = sp->finished;"]
  | .inheritResult index => [s!"next->result[{index}] = sp->result[{index}];"]
  | .giveResult index slot => [s!"*sp->result[{index}] = " ++ slotText slot ++ ";"]
  | .reportDone => ["if (sp->finished) *sp->finished = true;"]
  | .wakeCaller => ["hang10_schedule(sp->caller);"]
  | .dispose => ["free(sp);"]
  | .leave => ["return;"]

end Action

inductive Step where
  | act (a : Action)
  | when (tests : List Test) (actions : List Action)
  deriving DecidableEq, Repr

/-- The head of a block that runs if every test holds. -/
def testLine (tests : List Test) : Line :=
  ["if (" ++ " && ".intercalate (tests.map Test.text) ++ ") \x7b"]

def Step.layout : Step → Layout
  | .act a => .line a.line
  | .when tests actions => .block (testLine tests) (actions.map fun a => .line a.line) ["\x7d"]

end Polled.CSource
