import ArrayScript.Analysis.Expr

/-!
# `ArrayScript.Analysis.Stmt`: code of statements

A statement is analysed in the order in which it is written, but for an assignment, whose value
comes before its target. A return has to be the last statement of its block; the first return fixes
the result of the function, and later ones have to agree with it.
-/

set_option autoImplicit false

namespace ArrayScript.Setting

open Code (Step)
open Analysis (fail require)

/-- The code of an assignment. A name without a meaning becomes a variable. -/
def assign (s : Setting) (target : Target) (value : Expr) : Analysis Step := do
  let value ← s.term value
  let name := target.name
  let offset := target.span.start
  match s.resolve (← get) name with
  | none =>
    require target.indices.isEmpty (.indexingUndeclared name) offset
    let slot ← Analysis.declare name value.ty
    return .assign offset name slot [] value
  | some (.function _) => fail (.functionNotValue name) offset
  | some (.slot v) =>
    match v.ty with
    | .number =>
      require target.indices.isEmpty (.notAnArray name) offset
      require value.ty.isNumber (.variableMustBeNumber name) offset
      return .assign offset name v.slot [] value
    | .array rank =>
      let indices ← s.terms (indexTest name) 0 target.indices
      require (target.indices.length ≤ rank.length) (.tooManyIndices name rank.length) offset
      match rank.drop target.indices.length with
      | [] => require value.ty.isNumber (.assignmentNotNumber name) offset
      | left =>
        require (value.ty.compatible (.array left)) (.assignmentShape name left.length) offset
      return .assign offset name v.slot indices value
    | .function .. => fail (.functionNotValue name) offset

mutual

/-- The code of a statement; `last` says that its block ends with it. -/
def step (s : Setting) (last : Bool) : Stmt → Analysis Step
  | .branch span condition pass fail => do
    let condition ← s.term condition
    require condition.ty.isNumber .conditionNotNumber span.start
    Analysis.count Complexity.addBranch span.start
    let pass ← s.steps pass
    let fail ← s.stepsOption fail
    return .branch span.start condition pass fail
  | .assign _ target value => s.assign target value
  | .update span op target value =>
    s.assign target (.binary span op.longhand target.read value)
  | .ret span value => do
    require last .returnBeforeEnd span.start
    let value ← s.term value
    match (← get).result with
    | none => modify fun draft => { draft with result := some value.ty }
    | some result => require (value.ty.compatible result) .resultMismatch span.start
    return .ret value

/-- The code of a block. -/
def steps (s : Setting) : List Stmt → Analysis (List Step)
  | [] => return []
  | stmt :: rest => do
    let first ← s.step rest.isEmpty stmt
    let rest ← s.steps rest
    return first :: rest

/-- The code of a block that may be absent, which then does nothing. -/
def stepsOption (s : Setting) : Option (List Stmt) → Analysis (List Step)
  | none => return []
  | some block => s.steps block

end

variable {s : Setting} {d d' : Draft}

/-- A plain assignment is what `assign` makes of it. -/
theorem step_assign_ok {last : Bool} {span : Span} {target : Target} {value : Expr} :
    s.step last (.assign span target value) d = s.assign target value d := by
  rw [step]

/-- A compound assignment is the plain one that it abbreviates. -/
theorem step_update_ok {last : Bool} {span : Span} {op : CompoundOp} {target : Target}
    {value : Expr} :
    s.step last (.update span op target value) d
      = s.assign target (.binary span op.longhand target.read value) d := by
  rw [step]

/-- The empty block has no code. -/
theorem steps_nil_ok {steps : List Step} :
    s.steps [] d = .ok (steps, d') ↔ steps = [] ∧ d' = d := by
  rw [Setting.steps]
  constructor
  · intro h
    cases h
    exact ⟨rfl, rfl⟩
  · rintro ⟨rfl, rfl⟩
    rfl

end ArrayScript.Setting
