import Polled.Proofs.Forest

/-!
Lowering under watch.

A watched draft has a forest of its groups beside it, and every step that has to find a register looks
into the forest first. The work crashes where a register is not allocated, the forest is out of order, or
the body of a loop returns.
-/

namespace Polled

/-- A draft and the forest of its groups. -/
structure Watched where
  draft : Draft
  forest : Forest

/-- The work ends with an error of the source, or it crashes. -/
inductive Stop where
  | halt (h : Halt)
  | crash (c : Crash)

abbrev Watch (α : Type) := StateT Watched (Except Stop) α

namespace Watch

variable {α : Type}

def crash (c : Crash) : Watch α := fun _ => .error (.crash c)

/-- A step that finds no register by itself. -/
def plain (step : Lower α) : Watch α := fun s =>
  match step s.draft with
  | .ok (a, draft) => .ok (a, { s with draft })
  | .error halt => .error (.halt halt)

def look (r : Register) : Watch Unit := fun s =>
  if r < s.forest.parent.length then .ok ((), s) else .error (.crash (.unallocated r))

def lookAll : List Register → Watch Unit
  | [] => return ()
  | r :: rs => do
    look r
    lookAll rs

/-- The group of a register is found in the forest. -/
def resolve (r : Register) : Watch Register := fun s =>
  match s.forest.resolve r with
  | .error c => .error (.crash c)
  | .ok (root, forest) =>
    if root = s.draft.registers.resolve r then .ok (root, { s with forest }) else .error
      (.crash (.astray r))

def resolveAll : List Register → Watch Unit
  | [] => return ()
  | r :: rs => do
    let _ ← resolve r
    resolveAll rs

/-- The group of `r` is looked for among all that is live. -/
def members (r : Register) : Watch Unit := do
  let _ ← resolve r
  let registers := (← plain get).registers
  resolveAll ((List.range registers.size).filter registers.isLive)

/-- The group of `r` is looked for among all that has a name. -/
def aliases (r : Register) : Watch Unit := do
  let _ ← resolve r
  resolveAll (← plain get).scope.registers

/-- All live values on the heap are looked at. -/
def survey : Watch Unit := do
  let registers := (← plain get).registers
  resolveAll ((List.range registers.size).filter fun r => registers.isLive r &&
    (registers.kind r).ownsHeap)

def alloc (k : Kind) : Watch Register := do
  let r ← plain (Lower.alloc k)
  modify fun s => { s with forest := s.forest.grow }
  return r

def allocAll : List Kind → Watch (List Register)
  | [] => return []
  | k :: ks => do
    let r ← alloc k
    return r :: (← allocAll ks)

def kindOf (r : Register) : Watch Kind := do
  look r
  plain (Lower.kindOf r)

def release (r : Register) : Watch Unit := do
  members r
  plain (Lower.release r)

def join (a b : Register) : Watch Register := fun s =>
  match s.forest.join a b with
  | .error c => .error (.crash c)
  | .ok (low, forest) =>
    let (joined, registers) := s.draft.registers.join a b
    if low = joined then .ok (joined, ⟨{ s.draft with registers }, forest⟩) else .error
      (.crash (.astray a))

def bindName (x : String) (r : Register) : Watch Unit := do
  look r
  if ((← plain get).registers.kind r).ownsHeap then
    aliases r
  plain (Lower.bindName x r)

def bindNames : List String → List Register → Watch Unit
  | x :: xs, r :: rs => do
    bindName x r
    bindNames xs rs
  | _, _ => return ()

def handOver (r : Register) : Watch Unit := do
  members r
  aliases r
  plain (Lower.handOver r)

def freeUnder (f : Frame) (c : Condition) (r : Register) : Watch Unit := do
  members r
  plain (Lower.freeUnder f c r)

def freeAllUnder (f : Frame) : List (Register × Condition) → Watch Unit
  | [] => return ()
  | (r, c) :: rest => do
    freeUnder f c r
    freeAllUnder f rest

def sweep (f : Frame) : Watch Unit := do
  let d ← plain get
  resolveAll d.scope.registers
  survey
  let lost := d.registers.unreachable (d.scope.reachable d.registers)
  freeAllUnder f (lost.map fun r => (r, d.current))

def releaseAll : List Register → Watch Unit
  | [] => return ()
  | r :: rs => do
    release r
    releaseAll rs

def collectAtExit (keep : List Register) : Watch (List Register) := do
  let registers := (← plain get).registers
  resolveAll keep
  survey
  let kept := orderedSet (keep.map registers.resolve)
  let garbage := registers.unreachable kept
  releaseAll (garbage ++ kept)
  return garbage

def single (place : ValueUse) (span : Span) (values : Watch (List Register)) : Watch Register := do
  match ← values with
  | [r] => return r
  | rs => plain (Lower.refuse (.valueCount place rs.length) span)

def checkTruth (r : Register) (span : Span) (statement : Conditional) : Watch Unit := do
  let k ← kindOf r
  plain (Lower.ensure (k.convert (.lent .boolean)) (.conditionKind statement) span)

/-! Calls -/

def passTo (function : String) (param : String × Kind) (span : Span) (r : Register) : Watch Unit := do
  let k ← kindOf r
  plain (Lower.ensure (k.convert param.2) (.argumentKind param.1 function) span)
  if !param.2.borrowed then
    handOver r

def rebindThreads (function : String) (results : List Register) :
    (position : Nat) → List Passed → Watch Unit
  | _, [] => return ()
  | position, p :: ps => do
    match p.thread with
    | none => pure ()
    | some (x, before) =>
      match results[position]? with
      | none => plain (Lower.refuse (.nothingToHandBack function (position + 1) x.node) x.span)
      | some r =>
        let k ← kindOf r
        plain (Lower.ensure (k.agree before) (.threadedKind x.node function) x.span)
        bindName x.node r
    rebindThreads function results (position + 1) ps

def callWith (f : Frame) (sig : Signature) (passed : List Passed) : Watch (List Register) := do
  let results ← allocAll sig.returns
  let done ← plain (Lower.doneFlag results)
  plain (Lower.note (.callLowered f.name sig.name sig.strategy))
  let args := passed.map (·.register)
  match sig.strategy with
  | .inPlace => plain (Lower.push (.callSync sig.name args results done))
  | .scheduled =>
    let slot ← plain (Lower.newChild sig.name)
    plain (Lower.push (.callAsync sig.name args results slot done))
  rebindThreads sig.name results 0 passed
  return Lower.leftOver results passed

/-! Branches -/

def secure (arm : Arm) (r : Register) (before : Nat) : Watch (Register × Arm) := do
  let d ← plain get
  let root ← resolve r
  if root < before || arm.secured.contains root then
    look r
    let dest ← alloc (d.registers.kind r)
    plain (Lower.pushUnder arm.condition (.rename r dest))
    let registers := (← plain get).registers
    resolveAll (r :: (List.range arm.live.length).filter fun i => arm.live.getD i false)
    let last ← resolve dest
    return (dest, { arm with live := registers.releaseFlags r arm.live, secured := last :: arm.secured })
  return (r, { arm with secured := root :: arm.secured })

def joinRegisters (t u : Register) (before : Nat) (arms : Arm × Arm) : Watch (Register × Arm × Arm) := do
  let a ← resolve t
  let b ← resolve u
  if a == b then
    return (a, arms)
  let (t, onTrue) ← secure arms.1 t before
  let (u, onFalse) ← secure arms.2 u before
  let joined ← join t u
  return (joined, onTrue, onFalse)

def joinNames (f : Frame) (span : Span) (before : Nat) :
    List String → Arm × Arm → Scope → Watch (Scope × Arm × Arm)
  | [], arms, merged => return (merged, arms)
  | x :: xs, arms, merged => do
    let some t := arms.1.scope.get? x | plain (Lower.refuse (.missingAfterArm x true) span)
    let some u := arms.2.scope.get? x | plain (Lower.refuse (.missingAfterArm x false) span)
    let ku ← kindOf u
    let kt ← kindOf t
    plain (Lower.ensure (ku.agree kt) (.armKinds x) span)
    let (joined, arms) ← joinRegisters t u before arms
    plain (Lower.note (.armsJoined f.name x joined))
    joinNames f span before xs arms (merged.bind x joined)

/-- Liveness is given anew, for every register. -/
def setLive (flags : List Bool) (scope : Scope) : Watch Unit := do
  if flags.length ≠ (← plain get).registers.size then
    crash (.flagCount flags.length)
  plain (modify fun d => { d with registers := d.registers.withLive flags, scope })

def mergeArms (f : Frame) (span : Span) (start : Scope) (before : Nat) (onTrue onFalse : Arm) :
    Watch Unit := do
  let both := onTrue.scope.names.filter onFalse.scope.contains
  let (merged, arms) ← joinNames f span before (orderedSet (start.names ++ both))
    (onTrue, onFalse) .empty
  let registers := (← plain get).registers
  resolveAll merged.registers
  resolveAll (List.range before)
  let reachable := merged.reachable registers
  let flags := (List.range registers.size).map (Lower.joinedFlag registers reachable before arms)
  setLive flags merged
  freeAllUnder f (Lower.orphans registers reachable before arms)

def arm (c : Condition) (body : Watch Flow) : Watch (Flow × Arm) := do
  plain (modify fun d => { d with current := c })
  let flow ← body
  let d ← plain get
  return (flow, ⟨c, d.scope, d.registers.liveness, []⟩)

def branchOn (f : Frame) (span : Span) (test : Register) (onTrue onFalse : Watch Flow) : Watch Flow := do
  let ifTrue ← plain Lower.condition
  let ifFalse ← plain Lower.condition
  plain (Lower.push (.branch test ifTrue ifFalse))
  let start ← plain get
  let (trueFlow, trueArm) ← arm ifTrue onTrue
  plain (Lower.resumeFrom start.scope start.registers.liveness)
  let (falseFlow, falseArm) ← arm ifFalse onFalse
  plain (modify fun d => { d with current := start.current })
  match trueFlow, falseFlow with
  | .returns, .returns => return .returns
  | .returns, .continues => return .continues
  | .continues, .returns =>
    plain (Lower.resumeFrom trueArm.scope trueArm.live)
    return .continues
  | .continues, .continues =>
    mergeArms f span start.scope start.registers.size trueArm falseArm
    return .continues

/-! Loops -/

def capturesOf (names : List String) : Watch (List Capture) := do
  lookAll (names.filterMap (← plain get).scope.get?)
  plain (Lower.capturesOf names)

def nextRound (span : Span) : List (String × Kind) → Watch (List Register)
  | [] => return []
  | (x, k) :: ps => do
    let r ← plain (Lower.read x (.movedInLoop x) span)
    let kind ← kindOf r
    plain (Lower.ensure (kind.agree k) (.loopKind x) span)
    return r :: (← nextRound span ps)

def iteration (f : Frame) (bodySpan condSpan : Span) (test : Watch Register) (body : Watch Flow) :
    Watch Unit := do
  let flow ← body
  if flow = .returns then
    crash .returned
  let t ← test
  checkTruth t condSpan .loop
  let onContinue ← plain Lower.condition
  let onExit ← plain Lower.condition
  let values ← nextRound bodySpan f.params
  let garbage ← collectAtExit values
  plain (Lower.pushUnder .entry (.branch t onContinue onExit))
  plain (Lower.pushUnder onContinue (.restartLoop values garbage))
  plain (Lower.pushUnder onExit (.ret values garbage))

/-- Every register gets its slot. -/
def finish : Watch Unit := do
  resolveAll (List.range (← plain get).registers.size)

def start (params : List (String × Kind)) (log : List Event) : Watched :=
  ⟨.start params log, ⟨List.range params.length⟩⟩

def separately (params : List (String × Kind)) (step : Watch Unit) : Watch Draft := fun s =>
  match (step >>= fun _ => finish) (start params s.draft.log) with
  | .ok ((), inner) => .ok (inner.draft, { s with draft := { s.draft with log := inner.draft.log } })
  | .error stop => .error stop

def skipLoop (skip : Condition) : List (Capture × Register × Register) → Watch Unit
  | [] => return ()
  | (c, source, dest) :: rest => do
    plain (Lower.pushUnder skip (.rename source dest))
    release source
    bindName c.name dest
    skipLoop skip rest

def loopOver (f : Frame) (names : List String) (condSpan bodySpan : Span)
    (test : Frame → Watch Register) (body : Frame → Watch Flow) : Watch Unit := do
  let captures ← capturesOf names
  let params := captures.map fun c => (c.name, c.kind)
  let kinds := captures.map (·.kind)
  let closure ← plain (Lower.closureName f)
  let results ← allocAll kinds
  let inner : Frame :=
    { table := f.table, name := closure, isSync := false, params, returnKinds := kinds, inLoop := true }
  let draft ← separately params (iteration inner bodySpan condSpan (test inner) (body inner))
  plain (Lower.note (.loopLowered f.name closure params.length))
  plain (modify fun d => { d with closures := d.closures ++ draft.routine inner :: draft.closures })
  let start ← plain Lower.condition
  let skip ← plain Lower.condition
  let t ← test f
  checkTruth t condSpan .loop
  plain (Lower.push (.branch t start skip))
  let sources ← plain (Lower.entryValues condSpan captures)
  let slot ← plain (Lower.newChild closure)
  let done ← plain (Lower.doneFlag results)
  plain (Lower.pushUnder start (.callAsync closure sources results slot done))
  skipLoop skip (captures.zip (sources.zip results))

def placing (span : Span) (step : Watch α) : Watch α := fun s =>
  match step s with
  | .error (.halt h) => .error (.halt { h with error := h.error.withPlace span })
  | outcome => outcome

end Watch

open Watch

mutual
def Expr.watch (f : Frame) : Expr → Watch (List Register)
  | .name span x => do
    let r ← plain (Lower.read x (.unknownVariable x) span)
    return [r]
  | .truth _ value => do
    let target ← alloc (.owned .boolean)
    plain (Lower.push (.loadInteger target (if value then 1 else 0)))
    return [target]
  | .integer _ value => do
    let target ← alloc (.owned .integer)
    plain (Lower.push (.loadInteger target value))
    return [target]
  | .text _ value => do
    let target ← alloc (.lent .string)
    plain (Lower.push (.loadString target value))
    return [target]
  | .tuple _ items => Expr.watchItems f items
  | .call span callee args => do
    let sig ← plain (Lower.calleeOf f callee args.length span)
    let passed ← Arg.watchAll f sig.name sig.params args
    callWith f sig passed
  | .compare _ op lhs rhs => do
    let left ← single (.leftOf op) lhs.span (lhs.watch f)
    let right ← single (.rightOf op) rhs.span (rhs.watch f)
    let kindL ← kindOf left
    plain (Lower.ensure (kindL.convert (.lent .integer)) (.operandKind op) lhs.span)
    let kindR ← kindOf right
    plain (Lower.ensure (kindR.convert (.lent .integer)) (.operandKind op) rhs.span)
    let result ← alloc (.owned .boolean)
    plain (Lower.push (.compare op left right result))
    return [result]

def Expr.watchItems (f : Frame) : List Expr → Watch (List Register)
  | [] => return []
  | e :: es => do
    let r ← single .tupleItem e.span (e.watch f)
    return r :: (← Expr.watchItems f es)

def Arg.watchAll (f : Frame) (function : String) : List (String × Kind) → List Arg → Watch (List Passed)
  | param :: params, .thread x :: args => do
    let r ← plain (Lower.read x.node (.unknownVariable x.node) x.span)
    let before ← kindOf r
    passTo function param x.span r
    return ⟨r, some (x, before)⟩ :: (← Arg.watchAll f function params args)
  | param :: params, .value e :: args => do
    let r ← single .argument e.span (e.watch f)
    passTo function param e.span r
    return ⟨r, none⟩ :: (← Arg.watchAll f function params args)
  | _, _ => return []
end

namespace Watch

def checkReturns (span : Span) : (position : Nat) → List Register → List Kind → Watch Unit
  | position, r :: rs, k :: ks => do
    let kind ← kindOf r
    plain (Lower.ensure (kind.convert k) (.returnKind position) span)
    checkReturns span (position + 1) rs ks
  | _, _, _ => return ()

def checkReturnedOnce (span : Span) : List Register → List Register → Watch Unit
  | _, [] => return ()
  | seen, r :: rs => do
    if (← kindOf r).ownsHeap then
      let root ← resolve r
      if seen.contains root then
        plain (Lower.refuse .returnedTwice span)
      checkReturnedOnce span (root :: seen) rs
    else
      checkReturnedOnce span seen rs

def lowerExit (f : Frame) (span : Span) (value : Option Expr) : Watch Flow := do
  if f.inLoop then
    plain (Lower.refuse .returnInLoop span)
  let values ← match value with
    | some e => e.watch f
    | none => pure []
  if values.length ≠ f.returnKinds.length then
    plain (Lower.refuse (.returnCount f.name f.returnKinds.length values.length) span)
  checkReturns span 1 values f.returnKinds
  checkReturnedOnce span [] values
  let garbage ← collectAtExit values
  plain (Lower.push (.ret values garbage))
  return .returns

def lowerTest (f : Frame) (place : ValueUse) (cond : Expr) : Watch Register :=
  single place cond.span (cond.watch f)

end Watch

mutual
def Stmt.watch (f : Frame) : Stmt → Watch Flow
  | .bind span names value => do
    let regs ← value.watch f
    if regs.length ≠ names.length then
      plain (Lower.refuse (.bindingCount regs.length names.length) span)
    bindNames (names.map (·.node)) regs
    return .continues
  | .ret span value => Watch.lowerExit f span value
  | .branch span cond onTrue onFalse => do
    let test ← Watch.lowerTest f .ifCondition cond
    checkTruth test cond.span .branch
    branchOn f span test (onTrue.watch f) (onFalse.watch f)
  | .loop _ cond body => do
    loopOver f (loopNames cond body) cond.span body.span
      (fun f => Watch.lowerTest f .whileCondition cond) (fun f => body.watch f)
    return .continues
  | .run _ e => do
    let regs ← e.watch f
    if !regs.isEmpty then
      plain (Lower.refuse (.unusedValues regs.length) e.span)
    return .continues

def Block.watch (f : Frame) : Block → Watch Flow
  | ⟨_, stmts⟩ => Stmt.watchAll f stmts

def Stmt.watchAll (f : Frame) : List Stmt → Watch Flow
  | [] => return .continues
  | s :: ss => do
    match ← placing s.span (s.watch f) with
    | .continues =>
      sweep f
      Stmt.watchAll f ss
    | .returns =>
      match ss with
      | [] => return .returns
      | next :: _ => plain (Lower.refuse .unreachable next.span)
end

def Block.watchReturning (f : Frame) (body : Block) : Watch Unit := do
  match ← body.watch f with
  | .returns => return ()
  | .continues => plain (Lower.refuse (.missingReturn f.name) body.lastByte)

def watchFunction (table : SignatureTable) (d : Decl) (body : Block) (log : List Event) :
    Except Stop Lowered :=
  let f : Frame :=
    { table, name := d.name.node, isSync := d.isSync, params := d.typedParams,
      returnKinds := d.returnKinds, inLoop := false }
  match (body.watchReturning f >>= fun _ => finish) (Watch.start f.params log) with
  | .ok ((), s) => .ok ⟨s.draft.routine f, s.draft.closures, s.draft.log⟩
  | .error stop => .error stop

end Polled
