import ArrayScript.Scope

/-!
# `ArrayScript.Analysis.Draft`: a function under analysis

What analysis knows while it works through a body. The setting stays the same: the program so far,
and the name and parameters of the function. The draft changes: the variables, the result once a
return has fixed it, and the complexity. A fault ends the analysis.
-/

set_option autoImplicit false

namespace ArrayScript

/-- What does not change while a function is analysed. -/
structure Setting where
  program : Program
  name : String
  params : List Ty

/-- What has been found out about a function so far. -/
structure Draft where
  scope : Scope
  result : Option Ty
  complexity : Complexity

/-- A step of analysis: it may change the draft or end with a fault. -/
abbrev Analysis (α : Type) : Type :=
  StateT Draft (Except Fault) α

namespace Analysis

/-- Ends the analysis. -/
def fail {α : Type} (cause : Cause) (offset : Nat) : Analysis α :=
  throw ⟨cause, offset⟩

/-- Ends the analysis unless a condition holds. -/
def require (condition : Bool) (cause : Cause) (offset : Nat) : Analysis Unit :=
  if condition then return else fail cause offset

/-- Counts something, unless the count would become too large. -/
def count (step : Complexity.Counting) (offset : Nat) : Analysis Unit := do
  match step (← get).complexity with
  | .ok _ complexity => modify fun draft => { draft with complexity }
  | .error cause _ => fail cause offset

/-- Binds a name that has no meaning yet, and gives its slot. -/
def declare (name : String) (ty : Ty) : Analysis Nat := do
  let v := (← get).scope.fresh name ty
  modify fun draft => { draft with scope := draft.scope.declare v }
  return v.slot

end Analysis

/-- The signature of the function under analysis, as far as it is known. -/
def Setting.signature (s : Setting) (draft : Draft) : Signature :=
  ⟨s.params, none, draft.result, none⟩

/-- What a name stands for: a variable, the function itself, or a global. -/
def Setting.resolve (s : Setting) (draft : Draft) (name : String) : Option Binding :=
  match draft.scope.find? name with
  | some v => some (.slot v)
  | none =>
    if name = s.name then some (.function (s.signature draft))
    else draft.scope.resolve s.program name

/-- What a call reaches, and what is known about it from outside. -/
structure CallTarget where
  callee : Callee
  signature : Signature

/-- The target of a call by name. A function can call itself only when a return has fixed its
result. Variables do not hide functions, but a call of one that hides none is an error of its
own. -/
def Setting.target (s : Setting) (draft : Draft) (name : String) : Except Cause CallTarget :=
  if name = s.name then
    if draft.result.isNone then .error (.resultUnknown name)
    else .ok ⟨.self, s.signature draft⟩
  else
    match s.program.entry? name with
    | some (.builtin b) => .ok ⟨.builtin b, b.signature⟩
    | some (.user index f) => .ok ⟨.user index, f.signature⟩
    | none =>
      if (draft.scope.find? name).isSome then .error (.notAFunction name)
      else .error (.undeclaredFunction name)

end ArrayScript
