import Polled.Comparison
import Polled.Kind
import Polled.Span

/-!
Modules as they are written: imports, function declarations, statements and expressions.

Every part carries the place it was read from.
-/

namespace Polled

mutual
inductive Expr where
  | name (span : Span) (name : String)
  | truth (span : Span) (value : Bool)
  | integer (span : Span) (value : Nat)
  | text (span : Span) (value : String)
  | tuple (span : Span) (items : List Expr)
  | call (span : Span) (callee : Located String) (args : List Arg)
  | compare (span : Span) (op : Comparison) (lhs rhs : Expr)

inductive Arg where
  /-- The variable is threaded through the callee: afterwards it is the result at its own position. -/
  | thread (name : Located String)
  | value (expr : Expr)
end

def Expr.span : Expr → Span
  | .name span _ | .truth span _ | .integer span _ | .text span _ | .tuple span _ | .call span _ _
  | .compare span _ _ _ => span

/-- The same expression read from a larger place, such as one with parentheses. -/
def Expr.placed (span : Span) : Expr → Expr
  | .name _ x => .name span x
  | .truth _ b => .truth span b
  | .integer _ n => .integer span n
  | .text _ s => .text span s
  | .tuple _ items => .tuple span items
  | .call _ callee args => .call span callee args
  | .compare _ op lhs rhs => .compare span op lhs rhs

mutual
inductive Stmt where
  | bind (span : Span) (names : List (Located String)) (value : Expr)
  | ret (span : Span) (value : Option Expr)
  /-- A missing `else` is an empty block. -/
  | branch (span : Span) (cond : Expr) (onTrue onFalse : Block)
  | loop (span : Span) (cond : Expr) (body : Block)
  | run (span : Span) (expr : Expr)

structure Block where
  span : Span
  stmts : List Stmt
end

def Stmt.span : Stmt → Span
  | .bind span _ _ | .ret span _ | .branch span _ _ _ | .loop span _ _ | .run span _ => span

mutual
def Stmt.mustReturn : Stmt → Bool
  | .ret _ _ => true
  | .branch _ _ t e => t.mustReturn && e.mustReturn
  | _ => false

/-- Every path through the block ends in `return`. -/
def Block.mustReturn : Block → Bool
  | ⟨_, stmts⟩ => lastReturns stmts

def lastReturns : List Stmt → Bool
  | [] => false
  | [s] => s.mustReturn
  | _ :: s :: ss => lastReturns (s :: ss)
end

structure Param where
  name : Located String
  kind : Located Kind

structure Decl where
  span : Span
  name : Located String
  isSync : Bool
  isNative : Bool
  params : List Param
  returns : List (Located Kind)
  /-- Native functions have none. -/
  body : Option Block

def Decl.typedParams (d : Decl) : List (String × Kind) :=
  d.params.map fun p => (p.name.node, p.kind.node)

def Decl.returnKinds (d : Decl) : List Kind := d.returns.map (·.node)

structure SourceModule where
  imports : List (Located String)
  functions : List Decl

end Polled
