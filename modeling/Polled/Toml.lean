/-!
Tables of TOML.

What made a table decides how it grows: between braces it is complete, under a heading it has one heading
only, and on the way to a heading or to a dotted key it comes into being by itself.
-/

namespace Polled.Toml

inductive Standing where
  | braces
  | heading
  | wayToHeading
  | wayToKey
  deriving DecidableEq, Repr

/-- Values of a manifest. No field holds a number, a date or a truth value, so one of them is like
another. Rows are the tables under a repeated heading. -/
inductive Value where
  | text (s : String)
  | scalar
  | list (items : List Value)
  | rows (tables : List Value)
  | table (standing : Standing) (entries : List (String × Value))

abbrev Table := List (String × Value)

/-- A dotted key: the tables on its way, and the key in the last of them. -/
structure KeyPath where
  way : List String
  key : String
  deriving DecidableEq, Repr

namespace KeyPath

def keys (p : KeyPath) : List String := p.way ++ [p.key]

def push (first : String) (p : KeyPath) : KeyPath := ⟨first :: p.way, p.key⟩

end KeyPath

/-- Whether a way leads on through a table: none through braces, and none to a key through a heading. -/
def Standing.admits : (own way : Standing) → Bool
  | .braces, _ => false
  | .heading, .wayToKey => false
  | _, _ => true

namespace Table

def get? (t : Table) (key : String) : Option Value := (t.find? fun e => e.1 == key).map (·.2)

/-- Gives a key a value, whether or not it has one. -/
def put (key : String) (v : Value) : Table → Table
  | [] => [(key, v)]
  | e :: t => if e.1 == key then (key, v) :: t else e :: put key v t

/-- Gives a value to a key that has none. -/
def insert? (t : Table) (key : String) (v : Value) : Option Table :=
  if (t.get? key).isSome then none else some (put key v t)

/-- Changes the table that a way leads to, given how that one came about. A table that is missing on the
way is made, and among rows the way goes on in the last. -/
def alter? (made : Standing) (change : Standing → Table → Option Table) :
    (way : List String) → Standing → Table → Option Table
  | [], own, t => change own t
  | key :: way, _, t =>
    match t.get? key with
    | none => do
      let inner ← alter? made change way made []
      return put key (.table made inner) t
    | some (.table own inner) =>
      if own.admits made then do
        let inner ← alter? made change way own inner
        return put key (.table own inner) t
      else none
    | some (.rows tables) =>
      match tables.getLast? with
      | some (.table own inner) => do
        let inner ← alter? made change way own inner
        return put key (.rows (tables.dropLast ++ [.table own inner])) t
      | _ => none
    | some _ => none

/-- Assigns to a dotted key. Its way ends in the table where it starts, or in one that only dotted keys
have made. -/
def assign? (t : Table) (p : KeyPath) (v : Value) : Option Table :=
  alter? .wayToKey
    (fun own t => if p.way = [] ∨ own = .wayToKey then t.insert? p.key v else none) p.way .heading t

/-- Puts a table under a heading. It may be there only if other headings led through it. -/
def addHeading? (t : Table) (p : KeyPath) : Option Table :=
  alter? .wayToHeading
    (fun _ t =>
      match t.get? p.key with
      | none => some (put p.key (.table .heading []) t)
      | some (.table .wayToHeading inner) => some (put p.key (.table .heading inner) t)
      | some _ => none) p.way .heading t

def addRow? (t : Table) (p : KeyPath) : Option Table :=
  alter? .wayToHeading
    (fun _ t =>
      match t.get? p.key with
      | none => some (put p.key (.rows [.table .heading []]) t)
      | some (.rows tables) => some (put p.key (.rows (tables ++ [.table .heading []])) t)
      | some _ => none) p.way .heading t

end Table

/-- The items of a list, however it is written. -/
def Value.items? : Value → Option (List Value)
  | .list items | .rows items => some items
  | _ => none

/-- The fields of a record in the order given. A table has each of them at most once and no other; a list
has all of them one after another, and what follows them is not looked at. -/
def Value.record? (fields : List String) (v : Value) : Option (List (Option Value)) :=
  match v with
  | .table _ t => if t.all fun e => fields.contains e.1 then some (fields.map (Table.get? t)) else none
  | _ => do
    let items ← v.items?
    if fields.length ≤ items.length then some ((items.take fields.length).map some) else none

def Value.text? : Value → Option String
  | .text s => some s
  | _ => none

def Value.isEmpty : Value → Bool
  | .list [] | .rows [] | .table _ [] => true
  | _ => false

end Polled.Toml
