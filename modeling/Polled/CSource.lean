import Polled.CSource.Block

/-!
Generated programs as C.

A routine is a function that makes a record, and one that tries the operations over and over until a
whole pass makes no progress.
-/

namespace Polled

namespace CSource

/-- An array of C has at least one member. -/
def arrayLength (n : Nat) : Nat := max n 1

def childFields (p : Program) (k : ChildSlot) (callee : String) : List Layout :=
  let child : Line :=
    if p.knowsRecord callee then ["struct ", Symbol.record callee, s!" *call_{k};"]
    else [s!"void *call_{k};"]
  [.line child, .line [s!"bool call_{k}_done;"]]

def recordFields (p : Program) (f : Routine) : List Layout :=
  let common : List Layout := [.line ["closure_t caller;"], .line ["bool *finished;"],
    .line [s!"future_t *result[{arrayLength f.returnKinds.length}];"],
    .line [s!"future_t r[{arrayLength f.registerKinds.length}];"]]
  if f.isNative then common
  else common ++ .line [s!"bool conditions[{f.conditionCount}];"] ::
    (f.childCalls.mapIdx (childFields p)).flatten

def makerHead (f : Routine) : Line :=
  ["struct ", Symbol.record f.name, " *", Symbol.maker f.name, "(closure_t caller)"]

def pollerHead (f : Routine) : Line := ["void ", Symbol.poller f.name, "(void *state)"]

def starterHead (p : Program) : Line := ["void ", Symbol.starter p.entry, "(future_t **results)"]

def declarations (p : Program) (f : Routine) : List Layout :=
  if f.hasRecord then
    [.block ["struct ", Symbol.record f.name, " \x7b"] (recordFields p f) ["\x7d;"],
      .line ((makerHead f).followedBy ";"), .line ((pollerHead f).followedBy ";")]
  else [.line ["void ", Symbol.native f.name, "(future_t **args, future_t **results);"]]

/-- The name that keeps a header from being read twice. -/
def headerGuard (p : Program) : String := "HANG10_" ++ p.entry.map Char.toUpper ++ "_H"

def header (p : Program) : List Layout :=
  [.line ["#ifndef " ++ headerGuard p], .line ["#define " ++ headerGuard p], .blank,
    .line ["#include <stdbool.h>"], .line ["#include \"hang10_runtime.h\""], .blank] ++
  (p.routines.filter Routine.hasRecord).map
    (fun f => .line ["struct ", Symbol.record f.name, ";"]) ++
  p.routines.flatMap (fun f => .blank :: declarations p f) ++
  [.blank, .line ((starterHead p).followedBy ";"), .blank,
    .line ["#endif /* " ++ headerGuard p ++ " */"]]

def maker (f : Routine) : Layout :=
  .block ((makerHead f).followedBy " \x7b")
    [.line ["struct ", Symbol.record f.name, " *sp = calloc(1, sizeof(struct ", Symbol.record f.name,
        "));"],
      .line ["sp->caller = caller;"], .line (Action.raise Condition.entry).line, .line ["return sp;"]]
    ["\x7d"]

def poller (p : Program) (f : Routine) : Layout :=
  .block ((pollerHead f).followedBy " \x7b")
    [.line ["struct ", Symbol.record f.name, " *sp = state;"], .line ["bool progress;"],
      .block ["do \x7b"]
        (.line ["progress = false;"] :: f.ops.flatMap fun g => (f.block p g).layout)
        ["\x7d while (progress);"]]
    ["\x7d"]

/-- Nothing is started in a program without a main routine. -/
def starter (p : Program) : Layout :=
  let body : List Layout := match p.routine? mainRoutine with
    | none => []
    | some f =>
      .line (Action.create .self mainRoutine .none).line ::
        (List.range f.returnKinds.length).map
          (fun j => .line [s!"sp->result[{j}] = results[{j}];"]) ++
        (List.range f.paramCount).map
          (fun i => .line [s!"sp->r[{i}] = hang10_initial_argument({i});"]) ++
        [.line (Action.schedule .self mainRoutine).line]
  .block ((starterHead p).followedBy " \x7b") body ["\x7d"]

def source (p : Program) : List Layout :=
  [.line ["#include <stdlib.h>"], .line ["#include \"" ++ p.entry ++ ".h\""]] ++
  (p.routines.filter (fun f => !f.isNative)).flatMap
    (fun f => [.blank, maker f, .blank, poller p f]) ++
  [.blank, starter p]

end CSource

structure CFiles where
  header : String
  source : String
  deriving DecidableEq, Repr

def Program.cFiles (p : Program) : CFiles where
  header := CSource.Layout.writeAll 0 (CSource.header p)
  source := CSource.Layout.writeAll 0 (CSource.source p)

end Polled
