import ArrayScript.Stmt.Basic

/-!
# `ArrayScript.Decl.Basic`: function declarations

A program text is a list of declarations, each a name, parameters and a body.
-/

set_option autoImplicit false

namespace ArrayScript

/-- A parameter with its dimensions. Without any it is a number; `none` stands for a dimension that
is left open. -/
structure Param where
  name : String
  dims : List (Option Expr)
  span : Span

/-- A function declaration. -/
structure Decl where
  name : String
  params : List Param
  body : List Stmt
  span : Span

end ArrayScript
