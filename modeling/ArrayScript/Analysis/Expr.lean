import ArrayScript.Analysis.Draft

/-!
# `ArrayScript.Analysis.Expr`: types and code of expressions

An expression is analysed from left to right, and the first fault ends the analysis. Conditions,
operands, indices and sizes have to be numbers; the elements of a list have to be compatible with
its first one, and arguments with their parameters.
-/

set_option autoImplicit false

namespace ArrayScript.Setting

open Code (Term)
open Analysis (fail require)

/-- A test on one of several expressions: its index, the expression and its type, and the fault if
the test fails. -/
abbrev Test : Type :=
  Nat → Expr → Ty → Option Fault

/-- Every index of a variable has to be a number. -/
def indexTest (name : String) : Test := fun index e ty =>
  if ty.isNumber then none else some ⟨.indexNotNumber name index, e.start⟩

/-- Every size of a new array has to be a number; `offset` is where the array is made. -/
def sizeTest (offset : Nat) : Test := fun index _ ty =>
  if ty.isNumber then none else some ⟨.dimensionNotNumber index, offset⟩

/-- Every element of a list has to be compatible with the first one. -/
def elementTest (first : Ty) : Test := fun index e ty =>
  if ty.compatible first then none else some ⟨.elementMismatch index, e.start⟩

/-- Every argument has to be compatible with its parameter. -/
def argumentTest (name : String) (signature : Signature) : Test := fun index e ty =>
  if (signature.param? index).any ty.compatible then none
  else some ⟨.argumentMismatch name index, e.start⟩

mutual

/-- The code of an expression, with its type. -/
def term (s : Setting) : Expr → Analysis Term
  | .number _ value => return .number value
  | .newArray span sizes => do
    let sizes ← s.terms (sizeTest span.start) 0 sizes
    return .newArray span.start sizes
  | .list span [] => fail .emptyList span.start
  | .list _ (first :: rest) => do
    let first ← s.term first
    let rest ← s.terms (elementTest first.ty) 1 rest
    return .list (.array (.fixed (rest.length + 1) :: first.ty.rank)) (first :: rest)
  | .var span name indices => do
    match s.resolve (← get) name with
    | none => fail (.undeclaredVariable name) span.start
    | some (.function _) => fail (.functionNotValue name) span.start
    | some (.slot v) =>
      match v.ty with
      | .number =>
        require indices.isEmpty (.notAnArray name) span.start
        return .slot span.start name v.slot .number []
      | .array rank =>
        let terms ← s.terms (indexTest name) 0 indices
        require (indices.length ≤ rank.length) (.tooManyIndices name rank.length) span.start
        return .slot span.start name v.slot (.ofRank (rank.drop indices.length)) terms
      | .function .. => fail (.functionNotValue name) span.start
  | .call span name args => do
    match s.target (← get) name with
    | .error cause => fail cause span.start
    | .ok target =>
      require (target.signature.accepts args.length)
        (.argumentCount name target.signature.params.length args.length) span.start
      let terms ← s.terms (argumentTest name target.signature) 0 args
      match target.signature.score with
      | some score => Analysis.count (Complexity.addCall name score) span.start
      | none => pure ()
      match target.signature.result with
      | some result => return .call span.start name target.callee result terms
      | none => fail (.resultUnknown name) span.start
  | .unary span op operand => do
    let operand ← s.term operand
    require operand.ty.isNumber (.operandNotNumber op.name) span.start
    return .unary span.start op operand
  | .binary span op left right => do
    let left ← s.term left
    require left.ty.isNumber (.leftOperandNotNumber op.name) span.start
    let right ← s.term right
    require right.ty.isNumber (.rightOperandNotNumber op.name) span.start
    return .binary span.start op left right

/-- The code of several expressions, the first of which has the given index. Each one is tested
before the next is looked at. -/
def terms (s : Setting) (test : Test) : Nat → List Expr → Analysis (List Term)
  | _, [] => return []
  | index, e :: es => do
    let t ← s.term e
    match test index e t.ty with
    | some fault => throw fault
    | none =>
      let ts ← s.terms test (index + 1) es
      return t :: ts

end

variable {s : Setting} {d d' : Draft}

/-- A number is its own code. -/
theorem term_number_ok {span : Span} {t : Term} {value : Float} :
    s.term (.number span value) d = .ok (t, d') ↔ t = .number value ∧ d' = d := by
  rw [term]
  constructor
  · intro h
    cases h
    exact ⟨rfl, rfl⟩
  · rintro ⟨rfl, rfl⟩
    rfl

/-- No index at all passes every test. -/
theorem terms_nil_ok {test : Test} {index : Nat} {ts : List Term} :
    s.terms test index [] d = .ok (ts, d') ↔ ts = [] ∧ d' = d := by
  rw [terms]
  constructor
  · intro h
    cases h
    exact ⟨rfl, rfl⟩
  · rintro ⟨rfl, rfl⟩
    rfl

end ArrayScript.Setting
