import Mathlib.Logic.Function.Basic
import Polled.Lowering

/-!
What source text means, and what a routine does when it runs.

Both sides know the native functions only by the values that they give for values. `Routine.run` scans
the operations over and over, and fires each one whose guard holds, until one of them returns.
-/

namespace Polled

/-- A value at run time. Those of `α` are made and looked into by native functions alone. -/
inductive Datum (α : Type) where
  | integer (n : Int)
  | text (s : String)
  | foreign (a : α)

namespace Datum

variable {α : Type}

def truth (b : Bool) : Datum α := .integer (if b then 1 else 0)

def toInt : Datum α → Int
  | .integer n => n
  | _ => 0

def isTrue (v : Datum α) : Bool := v.toInt != 0

end Datum

abbrev Natives (α : Type) := String → List (Datum α) → List (Datum α)

/-- Each function of the table gives as many values as it declares. -/
def Natives.Fit {α : Type} (natives : Natives α) (table : SignatureTable) : Prop :=
  ∀ sig ∈ table.entries, ∀ args, (natives sig.name args).length = sig.returns.length

abbrev Env (α : Type) := String → Option (Datum α)

namespace Env

variable {α : Type}

def set (env : Env α) (x : String) (v : Datum α) : Env α := Function.update env x (some v)

def setAll (env : Env α) : List String → List (Datum α) → Env α
  | x :: xs, v :: vs => (env.set x v).setAll xs vs
  | _, _ => env

/-- Threaded variables take the results at their own positions. -/
def thread (env : Env α) : List (Datum α) → List Arg → Option (Env α)
  | _, [] => some env
  | results, .value _ :: args => env.thread results.tail args
  | [], .thread _ :: _ => none
  | v :: results, .thread x :: args => (env.set x.node v).thread results args

end Env

/-- The results at the positions of no threaded variable. -/
def unthreaded {α : Type} : List (Datum α) → List Arg → List (Datum α)
  | [], _ => []
  | v :: results, [] => v :: results
  | _ :: results, .thread _ :: args => unthreaded results args
  | v :: results, .value _ :: args => v :: unthreaded results args

inductive Outcome (α : Type) where
  | continues (env : Env α)
  | returns (values : List (Datum α))

section

variable {α : Type} (natives : Natives α)

mutual
/-- The values of an expression, and those of the variables behind it. -/
def Expr.eval (env : Env α) : Expr → Option (List (Datum α) × Env α)
  | .name _ x => (env x).map fun v => ([v], env)
  | .truth _ b => some ([.truth b], env)
  | .integer _ n => some ([.integer n], env)
  | .text _ s => some ([.text s], env)
  | .tuple _ items => Expr.evalItems env items
  | .call _ callee args => do
    let (vs, env) ← Arg.evalAll env args
    let results := natives callee.node vs
    let env ← env.thread results args
    return (unthreaded results args, env)
  | .compare _ op lhs rhs => do
    let ([a], env) ← lhs.eval env | none
    let ([b], env) ← rhs.eval env | none
    return ([.truth (op.holds a.toInt b.toInt)], env)

def Expr.evalItems (env : Env α) : List Expr → Option (List (Datum α) × Env α)
  | [] => some ([], env)
  | e :: es => do
    let ([v], env) ← e.eval env | none
    let (vs, env) ← Expr.evalItems env es
    return (v :: vs, env)

def Arg.evalAll (env : Env α) : List Arg → Option (List (Datum α) × Env α)
  | [] => some ([], env)
  | .thread x :: args => do
    let v ← env x.node
    let (vs, env) ← Arg.evalAll env args
    return (v :: vs, env)
  | .value e :: args => do
    let ([v], env) ← e.eval env | none
    let (vs, env) ← Arg.evalAll env args
    return (v :: vs, env)
end

mutual
def Stmt.eval (env : Env α) : Stmt → Option (Outcome α)
  | .bind _ names value => do
    let (vs, env) ← value.eval natives env
    guard (vs.length = names.length)
    return .continues (env.setAll (names.map (·.node)) vs)
  | .ret _ none => some (.returns [])
  | .ret _ (some value) => do
    let (vs, _) ← value.eval natives env
    return .returns vs
  | .branch _ cond onTrue onFalse => do
    let ([v], env) ← cond.eval natives env | none
    if v.isTrue then onTrue.eval env else onFalse.eval env
  | .loop _ _ _ => none
  | .run _ value => do
    let ([], env) ← value.eval natives env | none
    return .continues env

def Block.eval (env : Env α) : Block → Option (Outcome α)
  | ⟨_, stmts⟩ => Stmt.evalAll env stmts

def Stmt.evalAll (env : Env α) : List Stmt → Option (Outcome α)
  | [] => some (.continues env)
  | s :: ss => do
    match ← s.eval env with
    | .continues env => Stmt.evalAll env ss
    | .returns vs => return .returns vs
end

end

/-- An activation while it runs: the slots that are ready, the conditions that are set, and the values in
the slots. -/
structure Machine (α : Type) where
  ready : List Register
  flags : List Condition
  memory : Register → Datum α

namespace Machine

variable {α : Type}

def store (memory : Register → Datum α) : List Register → List (Datum α) → Register → Datum α
  | s :: slots, v :: vs => store (Function.update memory s v) slots vs
  | _, _ => memory

/-- The slots become ready, with the values in them. -/
def write (m : Machine α) (slots : List Register) (vs : List (Datum α)) : Machine α :=
  { m with ready := slots ++ m.ready, memory := store m.memory slots vs }

def raise (m : Machine α) (cs : List Condition) : Machine α := { m with flags := cs ++ m.flags }

end Machine

inductive Progress (α : Type) where
  | going (m : Machine α)
  | returned (values : List (Datum α))

namespace Routine

variable {α : Type} (r : Routine) (natives : Natives α)

def look (m : Machine α) (t : Register) : Datum α := m.memory (r.slot t)

/-- What an operation does when it fires. The ones for children, tuples and loops stay as they are. -/
def fire (m : Machine α) : Op → Progress α
  | .rename source dest => .going (m.write [r.slot dest] [r.look m source])
  | .loadInteger target n => .going (m.write [r.slot target] [.integer n])
  | .loadString target s => .going (m.write [r.slot target] [.text s])
  | .callSync callee args results done =>
    .going ((m.write (results.map r.slot) (natives callee (args.map (r.look m)))).raise done.toList)
  | .compare op lhs rhs result =>
    .going (m.write [r.slot result] [.truth (op.holds (r.look m lhs).toInt (r.look m rhs).toInt)])
  | .branch test ifTrue ifFalse => .going (m.raise [if (r.look m test).isTrue then ifTrue else ifFalse])
  | .free _ done => .going (m.raise [done])
  | .ret values _ => .returned (values.map (r.look m))
  | _ => .going m

/-- One pass over operations: each one whose guard holds is fired. -/
def scan : List GuardedOp → Machine α → Progress α
  | [], m => .going m
  | g :: gs, m =>
    if (r.guard g).holds m.ready m.flags then
      match r.fire natives m g.op with
      | .going m' => scan gs m'
      | .returned vs => .returned vs
    else scan gs m

def run : Nat → Machine α → Option (List (Datum α))
  | 0, _ => none
  | n + 1, m =>
    match r.scan natives r.ops m with
    | .going m' => run n m'
    | .returned vs => some vs

def entry (args : List (Datum α)) : Machine α :=
  Machine.write ⟨[], [.entry], fun _ => .integer 0⟩ ((List.range r.paramCount).map r.slot) args

end Routine

end Polled
