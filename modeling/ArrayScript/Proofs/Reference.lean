import ArrayScript.Run.Call

/-!
# `ArrayScript.Proofs.Reference`: the meaning of declarations, read off the syntax

A second evaluator, which runs declarations as they are written. It knows nothing of types, slots
and places in a program. The variables of a call are a map from names to values. A compound
assignment combines the old value of its target with the value on its right, by an operation on
numbers that is given here for each of its operators (`CompoundOp.combine`). A callee is looked for
by its name, among the builtins, in the function itself and in the declarations before it. What it
shares with running code is the world outside the syntax: numbers, the heap, the builtins, and the
limit on nested calls.

That a compound assignment means what the plain one means which it abbreviates is a result about
this evaluator (`exec_update`).

`ArrayScript.Proofs.Lowering` proves that analysed code means the same.
-/

set_option autoImplicit false

namespace ArrayScript

/-- What a compound assignment makes of the old value of its target and the value on its right. -/
def CompoundOp.combine : CompoundOp → Float → Float → Float
  | .addition, x, y => x + y
  | .subtraction, x, y => x - y
  | .multiplication, x, y => x * y
  | .division, x, y => x / y
  | .modulo, x, y => Number.remainder x y

/-- The operator that a compound assignment is written out with computes the same. -/
theorem CompoundOp.apply_longhand (op : CompoundOp) (x y : Float) :
    op.longhand.apply x y = op.combine x y := by
  cases op <;> rfl

namespace Reference

/-- The variables of a call that have a value, by name. -/
abbrev Env : Type :=
  String → Option Value

/-- The variables at the beginning of a call: each parameter has its argument. -/
def Env.ofParams (params : List Param) (args : List Value) : Env := fun name =>
  ((params.map Param.name).zip args).lookup name

/-- The variables when one of them is assigned. -/
def Env.set (env : Env) (name : String) (v : Value) : Env := fun other =>
  if other = name then some v else env other

/-- The declaration with a given name and those in front of it, in declarations of which the newest
comes first. -/
def find? : List Decl → String → Option (List Decl × Decl)
  | [], _ => none
  | decl :: earlier, name => if decl.name = name then some (earlier, decl) else find? earlier name

/-- Where evaluation takes place: the file and the name of the declaration that is running, and how
to enter what a name stands for there. -/
structure Site where
  file : String
  name : String
  enter? : String → Option (List Value → Run Value)

namespace Site

/-- An error in the declaration that is running. -/
def error (site : Site) (offset : Nat) (cause : Cause) : Error :=
  ⟨cause, ⟨site.file, offset⟩, some site.name⟩

/-- The outcome of an operation that may fail. -/
def attempt {α : Type} (site : Site) (offset : Nat) : Except Cause α → Run α
  | .ok a => return a
  | .error cause => throw (site.error offset cause)

/-- The value of a variable, which it need not have. -/
def read (site : Site) (env : Env) (offset : Nat) (name : String) : Run Value :=
  match env name with
  | some v => return v
  | none => throw (site.error offset (.uninitialized name))

/-- Calls what a name stands for. -/
def call (site : Site) (offset : Nat) (name : String) (args : List Value) : Run Value :=
  match Builtin.find? name with
  | some b => do
    let x ← site.attempt offset (b.apply (← get) args)
    return .number x
  | none =>
    match site.enter? name with
    | some enter => enter args
    | none => throw (site.error offset (.unknownFunction name))

end Site

/-! ### Expressions -/

mutual

/-- The value of an expression. -/
def eval (site : Site) (env : Env) : Expr → Run Value
  | .number _ value => return .number value
  | .newArray span sizes => do
    let sizes ← evalSizes site env span.start sizes
    modifyGet (Heap.allocate sizes)
  | .list _ items => do
    let values ← evalAll site env items
    modifyGet fun h => h.push values.toArray
  | .var span name indices => do
    let base ← site.read env span.start name
    let path ← evalNumbers site env span.start indices
    site.attempt span.start ((← get).walk base path)
  | .call span name args => do
    let values ← evalAll site env args
    site.call span.start name values
  | .unary span op operand => do
    let v ← eval site env operand
    let x ← site.attempt span.start v.toNumber
    return .number (op.apply x)
  | .binary span op left right => do
    let v ← eval site env left
    let x ← site.attempt span.start v.toNumber
    -- Conjunction and disjunction look at their right operand only if the left one does not settle
    -- the matter.
    if op = .conjunction ∧ Number.truthy x = false then return .number 0
    else if op = .disjunction ∧ Number.truthy x = true then return .number 1
    else
      let w ← eval site env right
      let y ← site.attempt span.start w.toNumber
      return .number (op.apply x y)

/-- The values of several expressions, from left to right. -/
def evalAll (site : Site) (env : Env) : List Expr → Run (List Value)
  | [] => return []
  | e :: es => do
    let v ← eval site env e
    let vs ← evalAll site env es
    return v :: vs

/-- The numbers that several expressions denote. -/
def evalNumbers (site : Site) (env : Env) (offset : Nat) : List Expr → Run (List Float)
  | [] => return []
  | e :: es => do
    let v ← eval site env e
    let x ← site.attempt offset v.toNumber
    let xs ← evalNumbers site env offset es
    return x :: xs

/-- The sizes that several expressions denote. -/
def evalSizes (site : Site) (env : Env) (offset : Nat) : List Expr → Run (List Nat)
  | [] => return []
  | e :: es => do
    let v ← eval site env e
    let x ← site.attempt offset v.toNumber
    let size ← site.attempt offset (Number.toSize x)
    let sizes ← evalSizes site env offset es
    return size :: sizes

end

/-! ### Statements -/

/-- The variables of a call and the heap. -/
structure State where
  env : Env
  heap : Heap

/-- A computation that can assign variables. -/
abbrev Execution (α : Type) : Type :=
  EStateM Error State α

/-- A computation on the heap that reads the variables. -/
def Execution.ofRun {α : Type} (run : Env → Run α) : Execution α := fun state =>
  match run state.env state.heap with
  | .ok a heap => .ok a { state with heap }
  | .error e heap => .error e { state with heap }

/-- Assigns what is computed to a target. The indices of the target are evaluated first, then the
value, and only then is the array looked for that the last index points into. -/
def assign (site : Site) (target : Target) (value : Env → Run Value) : Execution Unit := do
  let offset := target.span.start
  let path ← .ofRun fun env => evalNumbers site env offset target.indices
  let v ← .ofRun value
  match path.getLast? with
  | none => modify fun state => { state with env := state.env.set target.name v }
  | some last =>
    .ofRun fun env => do
      let base ← site.read env offset target.name
      let container ← site.attempt offset ((← get).walk base path.dropLast)
      let cell ← site.attempt offset ((← get).cell container last)
      modify fun heap => heap.write cell v

/-- The new value of the target of a compound assignment. The target is read before the value on the
right is evaluated, and both have to be numbers. -/
def updated (site : Site) (span : Span) (op : CompoundOp) (target : Target) (value : Expr)
    (env : Env) : Run Value := do
  let v ← eval site env target.read
  let x ← site.attempt span.start v.toNumber
  let w ← eval site env value
  let y ← site.attempt span.start w.toNumber
  return .number (op.combine x y)

mutual

/-- Executes a statement; a value is what it returns. -/
def exec (site : Site) : Stmt → Execution (Option Value)
  | .branch span condition pass fail => do
    let v ← .ofRun fun env => eval site env condition
    let x ← .ofRun fun _ => site.attempt span.start v.toNumber
    if Number.truthy x then execAll site pass else execOption site fail
  | .assign _ target value => do
    assign site target fun env => eval site env value
    return none
  | .update span op target value => do
    assign site target (updated site span op target value)
    return none
  | .ret _ value => do
    let v ← .ofRun fun env => eval site env value
    return some v

/-- Executes statements until one of them returns. -/
def execAll (site : Site) : List Stmt → Execution (Option Value)
  | [] => return none
  | s :: rest => do
    match ← exec site s with
    | some v => return some v
    | none => execAll site rest

/-- Executes a block that may be absent. -/
def execOption (site : Site) : Option (List Stmt) → Execution (Option Value)
  | none => return none
  | some block => execAll site block

end

/-- The new value is that of the expression which the compound assignment abbreviates. None of its
operators leaves its right operand out. -/
theorem updated_eq_eval (site : Site) (span : Span) (op : CompoundOp) (target : Target)
    (value : Expr) (env : Env) :
    updated site span op target value env
      = eval site env (.binary span op.longhand target.read value) := by
  rw [eval]
  cases op <;> rfl

/-- A compound assignment means what the plain one means that it abbreviates. -/
theorem exec_update (site : Site) (span : Span) (op : CompoundOp) (target : Target)
    (value : Expr) :
    exec site (.update span op target value)
      = exec site (.assign span target (.binary span op.longhand target.read value)) := by
  have hvalue : updated site span op target value
      = fun env => eval site env (.binary span op.longhand target.read value) :=
    funext (updated_eq_eval site span op target value)
  rw [exec, exec, hvalue]

/-! ### Calls -/

/-- Where a declaration runs, behind the `earlier` ones, of which the newest comes first. What it
can call is found among itself and those, and `enter` runs what is found. -/
def Site.ofDecl (file : String) (enter : List Decl → Decl → List Value → Run Value)
    (earlier : List Decl) (decl : Decl) : Site :=
  ⟨file, decl.name, fun name =>
    (find? (decl :: earlier) name).map fun (earlier, decl) => enter earlier decl⟩

/-- Calls a declaration, when `room` more calls may be nested. -/
def call (file : String) : (room : Nat) → List Decl → Decl → List Value → Run Value
  | 0, _, decl, _ =>
    throw ⟨.callDepthExceeded decl.name maxCallDepth, ⟨file, decl.span.start⟩, some decl.name⟩
  | room + 1, earlier, decl, args => fun heap =>
    let site := Site.ofDecl file (call file room) earlier decl
    match execAll site decl.body ⟨.ofParams decl.params args, heap⟩ with
    | .ok (some v) state => .ok v state.heap
    | .ok none state =>
      .error ⟨.missingReturn, ⟨file, decl.span.start⟩, some decl.name⟩ state.heap
    | .error e state => .error e state.heap

/-- Calls the declaration with a given name, for a host. -/
def invoke (file : String) (decls : List Decl) (name : String) (args : List Value) : Run Value :=
  match find? decls.reverse name with
  | some (earlier, decl) => call file (maxCallDepth + 1) earlier decl args
  | none => throw (Cause.unknownFunction name).atHost

end Reference

end ArrayScript
