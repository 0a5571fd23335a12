import ArrayScript.Operator

/-!
# `ArrayScript.Expr.Basic`: expressions

The tree of an expression as it is written. Each node carries the span of the text that it was
read from, so that later stages can say where something went wrong.
-/

set_option autoImplicit false

namespace ArrayScript

/-- An expression. A variable is read through any number of indices, and only a name can be
called. -/
inductive Expr where
  | number (span : Span) (value : Float)
  | newArray (span : Span) (sizes : List Expr)
  | list (span : Span) (items : List Expr)
  | var (span : Span) (name : String) (indices : List Expr)
  | call (span : Span) (name : String) (args : List Expr)
  | unary (span : Span) (op : PrefixOp) (operand : Expr)
  | binary (span : Span) (op : BinaryOp) (left right : Expr)
deriving Inhabited

namespace Expr

/-- The text that an expression was read from. -/
def span : Expr → Span
  | number span _ | newArray span _ | list span _ | var span _ _ | call span _ _
  | unary span _ _ | binary span _ _ _ => span

/-- Where an expression starts. -/
def start (e : Expr) : Nat :=
  e.span.start

end Expr

end ArrayScript
