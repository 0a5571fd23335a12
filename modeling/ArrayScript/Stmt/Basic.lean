import ArrayScript.Expr.Basic

/-!
# `ArrayScript.Stmt.Basic`: statements

The tree of a statement as it is written. A function's body and each arm of a branch are lists of
statements. `alwaysReturns` is the grammar's notion of a body that ends in a value on every path.
-/

set_option autoImplicit false

namespace ArrayScript

/-- The left side of an assignment: a variable, read through any number of indices. -/
structure Target where
  name : String
  indices : List Expr
  span : Span

/-- The expression that reads what a target would overwrite. -/
def Target.read (target : Target) : Expr :=
  .var target.span target.name target.indices

/-- A statement. The arm that is taken when the condition fails may be absent, which differs from
an empty one in how it is written and in whether the branch can return on every path. -/
inductive Stmt where
  | branch (span : Span) (condition : Expr) (pass : List Stmt) (fail : Option (List Stmt))
  | assign (span : Span) (target : Target) (value : Expr)
  | update (span : Span) (op : CompoundOp) (target : Target) (value : Expr)
  | ret (span : Span) (value : Expr)

namespace Stmt

/-- The text that a statement was read from. -/
def span : Stmt → Span
  | branch span _ _ _ | assign span _ _ | update span _ _ _ | ret span _ => span

/-- Where a statement starts. -/
def start (s : Stmt) : Nat :=
  s.span.start

mutual

/-- Whether every path through a statement ends in a return. -/
def alwaysReturns : Stmt → Bool
  | ret _ _ => true
  | branch _ _ pass (some fail) => bodyReturns pass && bodyReturns fail
  | _ => false

/-- Whether every path through a body ends in a return, which only its last statement decides. -/
def bodyReturns : List Stmt → Bool
  | [] => false
  | [s] => alwaysReturns s
  | _ :: rest => bodyReturns rest

end

end Stmt

end ArrayScript
