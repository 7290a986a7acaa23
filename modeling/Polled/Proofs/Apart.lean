import Polled.Lowering

/-!
Expressions that move no variable which they already hold.

If a later part of an expression moves a variable that an earlier part holds, the operation that uses
what is held comes too late. `Expr.apart` rules that out.
-/

namespace Polled

mutual
/-- The variables that an expression threads through callees, and so binds anew. -/
def Expr.rebinds : Expr → List String
  | .tuple _ items => rebindsOfExprs items
  | .call _ _ args => rebindsOfArgs args
  | .compare _ _ lhs rhs => lhs.rebinds ++ rhs.rebinds
  | _ => []

def rebindsOfExprs : List Expr → List String
  | [] => []
  | e :: es => e.rebinds ++ rebindsOfExprs es

def rebindsOfArgs : List Arg → List String
  | [] => []
  | .thread x :: args => x.node :: rebindsOfArgs args
  | .value e :: args => e.rebinds ++ rebindsOfArgs args
end

mutual
/-- The variable that a single value is, if it is one. -/
def Expr.handed : Expr → List String
  | .name _ x => [x]
  | .tuple _ items => handedOfExprs items
  | _ => []

def handedOfExprs : List Expr → List String
  | [e] => e.handed
  | _ => []
end

def stillHeld (held rebound : List String) : List String := held.filter fun x => !rebound.contains x

mutual
def Expr.apart (table : SignatureTable) (held : List String) : Expr → Bool
  | .tuple _ items => apartExprs table held items
  | .call _ callee args =>
    match table.lookup? callee.node with
    | some sig => apartArgs table held sig.params args
    | none => true
  | .compare _ _ lhs rhs => lhs.apart table held && rhs.apart table (stillHeld held lhs.rebinds)
  | _ => true

def apartExprs (table : SignatureTable) (held : List String) : List Expr → Bool
  | [] => true
  | e :: es => e.apart table held && apartExprs table (e.handed ++ stillHeld held e.rebinds) es

/-- A borrowed argument is held, one on the heap that is given away must not be. -/
def apartArgs (table : SignatureTable) (held : List String) : List (String × Kind) → List Arg → Bool
  | (_, kind) :: params, .thread x :: args =>
    !(kind.ownsHeap && held.contains x.node) &&
      apartArgs table (if kind.borrowed then x.node :: held else held) params args
  | (_, kind) :: params, .value e :: args =>
    e.apart table held &&
      !(kind.ownsHeap && e.handed.any (stillHeld held e.rebinds).contains) &&
        apartArgs table
          (if kind.borrowed then e.handed ++ stillHeld held e.rebinds
            else stillHeld held e.rebinds) params args
  | _, _ => true
end

mutual
def Stmt.apart (table : SignatureTable) : Stmt → Bool
  | .bind _ _ value | .run _ value => value.apart table []
  | .ret _ none => true
  | .ret _ (some value) => value.apart table []
  | .branch _ cond onTrue onFalse => cond.apart table [] && onTrue.apart table && onFalse.apart table
  | .loop _ cond body => cond.apart table [] && body.apart table

/-- No expression of the block moves a variable that it already holds. -/
def Block.apart (table : SignatureTable) : Block → Bool
  | ⟨_, stmts⟩ => apartStmts table stmts

def apartStmts (table : SignatureTable) : List Stmt → Bool
  | [] => true
  | s :: ss => s.apart table && apartStmts table ss
end

end Polled
