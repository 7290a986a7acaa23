import Polled.Json
import Polled.Routine

/-!
The form in which a generated program is stored.
-/

namespace Polled

mutual
/-- Arguments are written only where there are some. -/
def Kind.toJson : Kind → Json
  | ⟨borrowed, family, []⟩ => .obj [("borrowed", .bool borrowed), ("family", .str family.name)]
  | ⟨borrowed, family, k :: ks⟩ =>
    .obj [("borrowed", .bool borrowed), ("family", .str family.name),
      ("args", .arr (k.toJson :: kindsToJson ks))]

def kindsToJson : List Kind → List Json
  | [] => []
  | k :: ks => k.toJson :: kindsToJson ks
end

def doneToJson (done : Option Condition) : Json := (done.map Json.nat).getD .null

def Op.fields : Op → List (String × Json)
  | .rename source dest => [("source", .nat source), ("dest", .nat dest)]
  | .loadInteger target value => [("target", .nat target), ("value", .int value)]
  | .loadString target value => [("target", .nat target), ("value", .str value)]
  | .callSync callee args results done =>
    [("callee", .str callee), ("args", .nats args), ("results", .nats results),
      ("done", doneToJson done)]
  | .callAsync callee args results slot done =>
    [("callee", .str callee), ("args", .nats args), ("results", .nats results), ("slot", .nat slot),
      ("done", doneToJson done)]
  | .compare op lhs rhs result =>
    [("operator", .str op.tag), ("lhs", .nat lhs), ("rhs", .nat rhs), ("result", .nat result)]
  | .branch test ifTrue ifFalse =>
    [("test", .nat test), ("if_true", .nat ifTrue), ("if_false", .nat ifFalse)]
  | .makeTuple items result => [("items", .nats items), ("result", .nat result)]
  | .unpackTuple tuple items => [("tuple", .nat tuple), ("items", .nats items)]
  | .checkUnionTag value tag result =>
    [("value", .nat value), ("tag", .nat tag), ("result", .nat result)]
  | .extractUnionValue value result => [("value", .nat value), ("result", .nat result)]
  | .free register done => [("register", .nat register), ("done", .nat done)]
  | .restartLoop args garbage => [("args", .nats args), ("garbage", .nats garbage)]
  | .ret values garbage => [("values", .nats values), ("garbage", .nats garbage)]

def GuardedOp.toJson (g : GuardedOp) : Json :=
  .obj (("condition", .nat g.condition) :: ("op", .str g.op.tag) :: g.op.fields)

def Routine.toJson (f : Routine) : Json :=
  .obj [("name", .str f.name), ("is_sync", .bool f.isSync), ("is_native", .bool f.isNative),
    ("param_count", .nat f.paramCount), ("return_kinds", .arr (kindsToJson f.returnKinds)),
    ("register_kinds", .arr (kindsToJson f.registerKinds)), ("slots", .nats f.slots),
    ("ops", .arr (f.ops.map GuardedOp.toJson)), ("child_calls", .arr (f.childCalls.map Json.str)),
    ("condition_count", .nat f.conditionCount)]

def Program.toJson (p : Program) : Json :=
  .obj [("entry", .str p.entry), ("functions", .arr (p.routines.map Routine.toJson))]

end Polled
