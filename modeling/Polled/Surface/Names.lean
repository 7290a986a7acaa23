import Polled.Ordered
import Polled.Surface

/-!
Names and loops inside statements.
-/

namespace Polled

mutual
def Expr.names : Expr → List String
  | .name _ x => [x]
  | .truth _ _ | .integer _ _ | .text _ _ => []
  | .tuple _ items => namesOfExprs items
  | .call _ _ args => namesOfArgs args
  | .compare _ _ lhs rhs => lhs.names ++ rhs.names

def namesOfExprs : List Expr → List String
  | [] => []
  | e :: es => e.names ++ namesOfExprs es

def namesOfArgs : List Arg → List String
  | [] => []
  | .thread x :: as => x.node :: namesOfArgs as
  | .value e :: as => e.names ++ namesOfArgs as
end

mutual
def Stmt.names : Stmt → List String
  | .bind _ names value => value.names ++ names.map (·.node)
  | .ret _ none => []
  | .ret _ (some value) => value.names
  | .branch _ cond t e => cond.names ++ t.names ++ e.names
  | .loop _ cond body => cond.names ++ body.names
  | .run _ e => e.names

def Block.names : Block → List String
  | ⟨_, stmts⟩ => namesOfStmts stmts

def namesOfStmts : List Stmt → List String
  | [] => []
  | s :: ss => s.names ++ namesOfStmts ss
end

/-- The variables that a loop depends on, in order. -/
def loopNames (cond : Expr) (body : Block) : List String := orderedSet (cond.names ++ body.names)

mutual
def Stmt.loops : Stmt → List (Expr × Block)
  | .branch _ _ t e => t.loops ++ e.loops
  | .loop _ cond body => (cond, body) :: body.loops
  | _ => []

/-- The loops of a block, each before those inside it. -/
def Block.loops : Block → List (Expr × Block)
  | ⟨_, stmts⟩ => loopsOfStmts stmts

def loopsOfStmts : List Stmt → List (Expr × Block)
  | [] => []
  | s :: ss => s.loops ++ loopsOfStmts ss
end

end Polled
