import Polled.Lowering.Calls
import Polled.Lowering.Loops
import Polled.Surface.Names

/-!
Lowering of expressions, statements and whole functions.

`Lower.branchOn` and `Lower.loopOver` take the lowerings of their arms and bodies and do not look at the
source again.
-/

namespace Polled

open Lower

mutual
def Expr.lower (f : Frame) : Expr → Lower (List Register)
  | .name span x => do
    let r ← read x (.unknownVariable x) span
    return [r]
  | .truth _ value => do
    let target ← alloc (.owned .boolean)
    push (.loadInteger target (if value then 1 else 0))
    return [target]
  | .integer _ value => do
    let target ← alloc (.owned .integer)
    push (.loadInteger target value)
    return [target]
  | .text _ value => do
    -- Literals live as long as the program and are never freed.
    let target ← alloc (.lent .string)
    push (.loadString target value)
    return [target]
  | .tuple _ items => Expr.lowerItems f items
  | .call span callee args => do
    let sig ← calleeOf f callee args.length span
    let passed ← Arg.lowerAll f sig.name sig.params args
    callWith f sig passed
  | .compare _ op lhs rhs => do
    let left ← single (.leftOf op) lhs.span (lhs.lower f)
    let right ← single (.rightOf op) rhs.span (rhs.lower f)
    ensure ((← kindOf left).convert (.lent .integer)) (.operandKind op) lhs.span
    ensure ((← kindOf right).convert (.lent .integer)) (.operandKind op) rhs.span
    let result ← alloc (.owned .boolean)
    push (.compare op left right result)
    return [result]

def Expr.lowerItems (f : Frame) : List Expr → Lower (List Register)
  | [] => return []
  | e :: es => do
    let r ← single .tupleItem e.span (e.lower f)
    return r :: (← Expr.lowerItems f es)

/-- Arguments in order, each passed on before the next is looked at. -/
def Arg.lowerAll (f : Frame) (function : String) : List (String × Kind) → List Arg → Lower (List Passed)
  | param :: params, .thread x :: args => do
    let r ← read x.node (.unknownVariable x.node) x.span
    let before ← kindOf r
    passTo function param x.span r
    return ⟨r, some (x, before)⟩ :: (← Arg.lowerAll f function params args)
  | param :: params, .value e :: args => do
    let r ← single .argument e.span (e.lower f)
    passTo function param e.span r
    return ⟨r, none⟩ :: (← Arg.lowerAll f function params args)
  | _, _ => return []
end

/-- The kinds of the returned values, counted from `position`. -/
def checkReturns (span : Span) : (position : Nat) → List Register → List Kind → Lower Unit
  | position, r :: rs, k :: ks => do
    ensure ((← kindOf r).convert k) (.returnKind position) span
    checkReturns span (position + 1) rs ks
  | _, _, _ => return ()

/-- No owned value on the heap may be given away twice. -/
def checkReturnedOnce (span : Span) : List Register → List Register → Lower Unit
  | _, [] => return ()
  | seen, r :: rs => do
    let registers := (← get).registers
    if (registers.kind r).ownsHeap then
      if seen.contains (registers.resolve r) then
        refuse .returnedTwice span
      checkReturnedOnce span (registers.resolve r :: seen) rs
    else
      checkReturnedOnce span seen rs

def lowerExit (f : Frame) (span : Span) (value : Option Expr) : Lower Flow := do
  if f.inLoop then
    refuse .returnInLoop span
  let values ← match value with
    | some e => e.lower f
    | none => pure []
  if values.length ≠ f.returnKinds.length then
    refuse (.returnCount f.name f.returnKinds.length values.length) span
  checkReturns span 1 values f.returnKinds
  checkReturnedOnce span [] values
  let garbage ← collectAtExit values
  push (.ret values garbage)
  return .returns

def lowerTest (f : Frame) (place : ValueUse) (cond : Expr) : Lower Register :=
  single place cond.span (cond.lower f)

mutual
def Stmt.lower (f : Frame) : Stmt → Lower Flow
  | .bind span names value => do
    let regs ← value.lower f
    if regs.length ≠ names.length then
      refuse (.bindingCount regs.length names.length) span
    bindNames (names.map (·.node)) regs
    return .continues
  | .ret span value => lowerExit f span value
  | .branch span cond onTrue onFalse => do
    let test ← lowerTest f .ifCondition cond
    checkTruth test cond.span .branch
    branchOn f span test (onTrue.lower f) (onFalse.lower f)
  | .loop _ cond body => do
    loopOver f (loopNames cond body) cond.span body.span
      (fun f => lowerTest f .whileCondition cond) (fun f => body.lower f)
    return .continues
  | .run _ e => do
    let regs ← e.lower f
    if !regs.isEmpty then
      refuse (.unusedValues regs.length) e.span
    return .continues

def Block.lower (f : Frame) : Block → Lower Flow
  | ⟨_, stmts⟩ => Stmt.lowerAll f stmts

/-- Statements one after the other; only the last may return. Behind each of them, values that nobody can
reach are freed. -/
def Stmt.lowerAll (f : Frame) : List Stmt → Lower Flow
  | [] => return .continues
  | s :: ss => do
    match ← placing s.span (s.lower f) with
    | .continues =>
      sweep f
      Stmt.lowerAll f ss
    | .returns =>
      match ss with
      | [] => return .returns
      | next :: _ => refuse .unreachable next.span
end

/-- The last byte of a body, where a missing return is reported. -/
def Block.lastByte (b : Block) : Span := ⟨b.span.stop - 1, b.span.stop, b.span.file⟩

/-- Lowers the body of a function, which has to return on every path. -/
def Block.lowerReturning (f : Frame) (body : Block) : Lower Unit := do
  match ← body.lower f with
  | .returns => return ()
  | .continues => refuse (.missingReturn f.name) body.lastByte

/-- What a lowered function consists of: its routine, and the closures of its loops behind it. -/
structure Lowered where
  routine : Routine
  closures : List Routine
  log : List Event

def lowerFunction (table : SignatureTable) (d : Decl) (body : Block) (log : List Event) :
    Except Halt Lowered :=
  let f : Frame :=
    { table, name := d.name.node, isSync := d.isSync, params := d.typedParams,
      returnKinds := d.returnKinds, inLoop := false }
  match body.lowerReturning f (.start f.params log) with
  | .ok ((), draft) => .ok ⟨draft.routine f, draft.closures, draft.log⟩
  | .error halt => .error halt

end Polled
