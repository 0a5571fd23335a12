import ArrayScript.Run.Call
import Mathlib.Logic.Function.Iterate

/-!
# `ArrayScript.Proofs.Machine`: running code one step at a time

Evaluation is a recursive function. That it ends is part of its definition, and how many calls are
open at some moment does not show in it. This module runs the same code as a machine. One step does
one small thing, and all that is left to do is in the state: for each open call its frame, the
statements it has not reached yet, and the operations that wait for a value.

Nothing in the machine says that it ever halts. It has no measure and no bound on its steps. It
counts the open calls upwards, from the one that a host makes, and compares their number with the
limit at the moment of a call (`Machine.enter`). An error ends all open calls at once, and each of
them attributes it to its function on the way out (`Error.through`).

`Status.framesLE_run` is what the comparison gives: along every run, from whatever call a host
makes, at most `maxCallDepth + 1` calls are open. That the machine halts, with the outcome that
evaluation gives, is proved in `ArrayScript.Proofs.Termination`.
-/

set_option autoImplicit false

namespace ArrayScript

open Code (Term Step)

namespace Error

/-- An error behind several calls that it has left, the innermost first. Each of them attributes it
to its function. -/
def through (functions : List String) (e : Error) : Error :=
  functions.foldl inFunction e

/-- Calls around an error that is attributed already do not change it. -/
theorem through_of_some {e : Error} {inner : String} (h : e.function = some inner) :
    ∀ functions : List String, e.through functions = e
  | [] => rfl
  | outer :: functions => by
    show (e.inFunction outer).through functions = e
    rw [inFunction_of_some h]
    exact through_of_some h functions

/-- Of several calls that an error leaves, the innermost keeps it. -/
theorem through_cons (inner : String) (functions : List String) (e : Error) :
    e.through (inner :: functions) = e.inFunction inner :=
  through_of_some rfl functions

end Error

/-- What goes wrong when a function is entered or left is its own error, whatever is around it. -/
theorem Function.through_error (f : Function) (cause : Cause) (functions : List String) :
    (f.error cause).through functions = f.error cause :=
  Error.through_of_some rfl functions

namespace Machine

/-- What several numbers are for: they lead from a value to one of its elements, or to the place
where the value of a term is assigned. -/
inductive NumbersUse where
  | element (base : Value)
  | target (name : String) (slot : Nat) (value : Term)

/-- What several values are for: they are the elements of a list or the arguments of a call. -/
inductive ValuesUse where
  | list
  | call (offset : Nat) (name : String) (callee : Callee)

/-- An operation that waits for a value. Where it needs several, it holds those that are there and
the terms of the others. -/
inductive Pending where
  | sizes (offset : Nat) (done : List Nat) (left : List Term)
  | numbers (offset : Nat) (use : NumbersUse) (done : List Float) (left : List Term)
  | values (use : ValuesUse) (done : List Value) (left : List Term)
  | operand (offset : Nat) (op : PrefixOp)
  | leftOperand (offset : Nat) (op : BinaryOp) (right : Term)
  | rightOperand (offset : Nat) (op : BinaryOp) (left : Float)
  | condition (offset : Nat) (pass fail : List Step)
  | assignment (offset : Nat) (name : String) (slot : Nat) (path : List Float)

/-- A call that is open: the function, its variables, the statements behind the current one, and
the operations that wait for a value, the innermost first. -/
structure Activation where
  function : Function
  frame : Frame
  steps : List Step
  pending : List Pending

/-- What the next step looks at: the next statement, a term, a value that was asked for, or a call
whose arguments are there. -/
inductive Focus where
  | statement
  | term (t : Term)
  | value (v : Value)
  | call (offset : Nat) (name : String) (callee : Callee) (args : List Value)

end Machine

/-- What a machine holds: the call it is in, the calls around that one, and the heap. -/
structure Machine where
  current : Machine.Activation
  callers : List Machine.Activation
  heap : Heap

/-- A machine that runs, or one that has halted with an outcome. -/
inductive Status where
  | running (focus : Machine.Focus) (m : Machine)
  | halted (outcome : EStateM.Result Error Heap Value)

namespace Machine

/-- How deeply the current call is nested below the one that a host has made. -/
def depth (m : Machine) : Nat :=
  m.callers.length

/-- The number of open calls. -/
def frames (m : Machine) : Nat :=
  (m.current :: m.callers).length

/-- The functions of the calls around the current one, the innermost first. -/
def callerNames (m : Machine) : List String :=
  m.callers.map fun call => call.function.name

/-- The functions of the open calls, the innermost first. -/
def openNames (m : Machine) : List String :=
  m.current.function.name :: m.callerNames

/-! ### Small changes -/

/-- The machine with one more operation that waits for a value. -/
def hold (m : Machine) (use : Pending) : Machine :=
  { m with current := { m.current with pending := use :: m.current.pending } }

/-- The machine with other statements to come. -/
def withSteps (m : Machine) (steps : List Step) : Machine :=
  { m with current := { m.current with steps } }

/-- The machine in which a variable is assigned. -/
def assign (m : Machine) (slot : Nat) (v : Value) : Machine :=
  { m with current := { m.current with frame := m.current.frame.setIfInBounds slot (some v) } }

/-- Asks for the value of a term, for an operation that waits. -/
def ask (m : Machine) (t : Term) (use : Pending) : Status :=
  .running (.term t) (m.hold use)

/-- Hands a value to the operation that waits for it. -/
def give (m : Machine) (v : Value) : Status :=
  .running (.value v) m

/-- Hands over a value that came with a change of the heap. -/
def giveNew (m : Machine) (made : Value × Heap) : Status :=
  .running (.value made.1) { m with heap := made.2 }

/-- Halts with an error in the current call, which leaves all open calls. -/
def fail (m : Machine) (offset : Nat) (cause : Cause) : Status :=
  .halted (.error ((Fault.inFile ⟨cause, offset⟩ m.current.function.file).through m.openNames)
    m.heap)

/-- Goes on with the result of an operation, if it does not fail. -/
def attempt {α : Type} (m : Machine) (offset : Nat) (r : Except Cause α) (next : α → Status) :
    Status :=
  match r with
  | .ok a => next a
  | .error cause => m.fail offset cause

/-- The value of a variable, which need not have one. -/
def read (m : Machine) (name : String) (slot : Nat) : Except Cause Value :=
  match m.current.frame[slot]? with
  | some (some v) => .ok v
  | _ => .error (.uninitialized name)

/-- The cell that a path leads to from a variable. -/
def locate (m : Machine) (name : String) (slot : Nat) (path : List Float) (last : Float) :
    Except Cause Heap.Cell := do
  let base ← m.read name slot
  let container ← m.heap.walk base path
  m.heap.cell container last

/-! ### Operations with several operands -/

/-- Asks for the next size of a new array, or makes the array. -/
def forSizes (m : Machine) (offset : Nat) (done : List Nat) : List Term → Status
  | t :: left => m.ask t (.sizes offset done left)
  | [] => m.giveNew (m.heap.allocate done)

/-- Asks for the next of several numbers, or uses them. -/
def forNumbers (m : Machine) (offset : Nat) (use : NumbersUse) (done : List Float) :
    List Term → Status
  | t :: left => m.ask t (.numbers offset use done left)
  | [] =>
    match use with
    | .element base => m.attempt offset (m.heap.walk base done) m.give
    | .target name slot value => m.ask value (.assignment offset name slot done)

/-- Asks for the next of several values, or uses them. -/
def forValues (m : Machine) (use : ValuesUse) (done : List Value) : List Term → Status
  | t :: left => m.ask t (.values use done left)
  | [] =>
    match use with
    | .list => m.giveNew (m.heap.push done.toArray)
    | .call offset name callee => .running (.call offset name callee done) m

/-! ### Calls -/

/-- The function of a program that a callee stands for. A builtin is none. -/
def callee? (p : Program) (m : Machine) : Callee → Option Function
  | .builtin _ => none
  | .self => some m.current.function
  | .user index => p.functions[index]?

/-- The beginning of a call: the arguments in the first slots, and the whole body to come. -/
def Activation.ofCall (f : Function) (args : List Value) : Activation :=
  { function := f, frame := f.frame args, steps := f.body, pending := [] }

/-- Opens a call, unless it would be nested too deeply. Then the function that is not entered has
an error, which leaves the calls that are open. -/
def enter (m : Machine) (f : Function) (args : List Value) : Status :=
  if maxCallDepth < m.depth + 1 then
    .halted (.error ((f.error (.callDepthExceeded f.name maxCallDepth)).through m.openNames)
      m.heap)
  else
    .running .statement
      { current := .ofCall f args, callers := m.current :: m.callers, heap := m.heap }

/-- Makes a call whose arguments are there. A builtin answers at once. -/
def call (p : Program) (m : Machine) (offset : Nat) (name : String) (args : List Value) :
    Callee → Status
  | .builtin b => m.attempt offset (b.apply m.heap args) fun x => m.give (.number x)
  | .self => m.enter m.current.function args
  | .user index =>
    match p.functions[index]? with
    | some f => m.enter f args
    | none => m.fail offset (.unknownFunction name)

/-- A call of a function enters it. -/
theorem call_eq_enter {p : Program} {m : Machine} {callee : Callee} {f : Function}
    (h : m.callee? p callee = some f) (offset : Nat) (name : String) (args : List Value) :
    m.call p offset name args callee = m.enter f args := by
  cases callee with
  | builtin b => cases h
  | self =>
    cases h
    rfl
  | user index =>
    have hf : p.functions[index]? = some f := h
    rw [call, hf]

/-- Ends the current call with a value, which its caller has waited for. -/
def leave (m : Machine) (v : Value) : Status :=
  match m.callers with
  | [] => .halted (.ok v m.heap)
  | caller :: callers => .running (.value v) { current := caller, callers, heap := m.heap }

/-! ### Steps -/

/-- Begins the next statement. A function whose statements are used up has not returned. -/
def execute (m : Machine) : Status :=
  match m.current.steps with
  | [] => .halted (.error ((m.current.function.error .missingReturn).through m.callerNames) m.heap)
  | .branch offset condition pass fail :: rest =>
    (m.withSteps rest).ask condition (.condition offset pass fail)
  | .assign offset name slot indices value :: rest =>
    (m.withSteps rest).forNumbers offset (.target name slot value) [] indices
  -- Nothing waits for the value of a return but the caller.
  | .ret value :: _ => .running (.term value) (m.withSteps [])

/-- Begins a term. -/
def evaluate (m : Machine) : Term → Status
  | .number value => m.give (.number value)
  | .newArray offset sizes => m.forSizes offset [] sizes
  | .list _ items => m.forValues .list [] items
  | .slot offset name slot _ indices =>
    m.attempt offset (m.read name slot) fun base => m.forNumbers offset (.element base) [] indices
  | .call offset name callee _ args => m.forValues (.call offset name callee) [] args
  | .unary offset op operand => m.ask operand (.operand offset op)
  | .binary offset op left right => m.ask left (.leftOperand offset op right)

/-- Goes on with an operation that has waited for a value. -/
def receive (m : Machine) (v : Value) : Pending → Status
  | .sizes offset done left =>
    m.attempt offset (v.toNumber >>= Number.toSize) fun size =>
      m.forSizes offset (done ++ [size]) left
  | .numbers offset use done left =>
    m.attempt offset v.toNumber fun x => m.forNumbers offset use (done ++ [x]) left
  | .values use done left => m.forValues use (done ++ [v]) left
  | .operand offset op => m.attempt offset v.toNumber fun x => m.give (.number (op.apply x))
  | .leftOperand offset op right =>
    m.attempt offset v.toNumber fun x =>
      match op.shortcut? x with
      | some result => m.give (.number result)
      | none => m.ask right (.rightOperand offset op x)
  | .rightOperand offset op x =>
    m.attempt offset v.toNumber fun y => m.give (.number (op.apply x y))
  | .condition offset pass fail =>
    m.attempt offset v.toNumber fun x =>
      let arm := if Number.truthy x then pass else fail
      .running .statement (m.withSteps (arm ++ m.current.steps))
  | .assignment offset name slot path =>
    match path.getLast? with
    | none => .running .statement (m.assign slot v)
    | some last =>
      m.attempt offset (m.locate name slot path.dropLast last) fun cell =>
        .running .statement { m with heap := m.heap.write cell v }

/-- One step. -/
def step (p : Program) (m : Machine) : Focus → Status
  | .statement => m.execute
  | .term t => m.evaluate t
  | .call offset name callee args => m.call p offset name args callee
  | .value v =>
    match m.current.pending with
    | use :: pending => { m with current := { m.current with pending } }.receive v use
    | [] => m.leave v

end Machine

namespace Status

/-- One step, if the machine has not halted. -/
def next (p : Program) : Status → Status
  | running focus m => m.step p focus
  | halted outcome => halted outcome

/-- Several steps. -/
def run (p : Program) (count : Nat) (s : Status) : Status :=
  (next p)^[count] s

/-- The machine when a host calls a function: it refuses arguments that do not fit, and otherwise
runs the body of the function with no call around it. -/
def start (f : Function) (args : List Value) (heap : Heap) : Status :=
  let refuse (cause : Cause) : Status := halted (.error ⟨cause, f.position, none⟩ heap)
  if args.length ≠ f.params.length then
    refuse (.hostArgumentCount f.name f.params.length args.length)
  else match Program.misfit? heap f.signature args with
    | some index => refuse (.hostArgumentType f.name index)
    | none => running .statement { current := .ofCall f args, callers := [], heap }

/-! ### Open calls -/

/-- Whether at most so many calls are open. In a machine that has halted none is. -/
def FramesLE (limit : Nat) : Status → Prop
  | running _ m => m.frames ≤ limit
  | halted _ => True

end Status

namespace Machine

variable {m : Machine} {limit : Nat}

/-- An operation that may fail opens no call. -/
theorem framesLE_attempt {α : Type} {offset : Nat} {r : Except Cause α} {next : α → Status}
    (h : ∀ a, (next a).FramesLE limit) : (m.attempt offset r next).FramesLE limit := by
  cases r with
  | ok a => exact h a
  | error cause => trivial

/-- Sizes open no call. -/
theorem framesLE_forSizes (h : m.frames ≤ limit) (offset : Nat) (done : List Nat)
    (left : List Term) : (m.forSizes offset done left).FramesLE limit := by
  cases left <;> exact h

/-- Numbers open no call. -/
theorem framesLE_forNumbers (h : m.frames ≤ limit) (offset : Nat) (use : NumbersUse)
    (done : List Float) (left : List Term) :
    (m.forNumbers offset use done left).FramesLE limit := by
  cases left with
  | cons t left => exact h
  | nil =>
    cases use with
    | element base => exact framesLE_attempt fun _ => h
    | target name slot value => exact h

/-- Values open no call, also where they are the arguments of one. -/
theorem framesLE_forValues (h : m.frames ≤ limit) (use : ValuesUse) (done : List Value)
    (left : List Term) : (m.forValues use done left).FramesLE limit := by
  cases left with
  | cons t left => exact h
  | nil => cases use <;> exact h

/-- A statement opens no call before its terms are evaluated. -/
theorem framesLE_execute (h : m.frames ≤ limit) : m.execute.FramesLE limit := by
  unfold execute
  split
  · trivial
  · exact h
  next rest _ => exact framesLE_forNumbers (m := m.withSteps rest) h _ _ _ _
  · exact h

/-- A term opens no call before its arguments are there. -/
theorem framesLE_evaluate (h : m.frames ≤ limit) (t : Term) : (m.evaluate t).FramesLE limit := by
  cases t with
  | number value => exact h
  | newArray offset sizes => exact framesLE_forSizes h _ _ _
  | list ty items => exact framesLE_forValues h _ _ _
  | slot offset name slot ty indices =>
    exact framesLE_attempt fun _ => framesLE_forNumbers h _ _ _ _
  | call offset name callee ty args => exact framesLE_forValues h _ _ _
  | unary offset op operand => exact h
  | binary offset op left right => exact h

/-- An operation that goes on opens no call. -/
theorem framesLE_receive (h : m.frames ≤ limit) (v : Value) (use : Pending) :
    (m.receive v use).FramesLE limit := by
  cases use with
  | sizes offset done left => exact framesLE_attempt fun _ => framesLE_forSizes h _ _ _
  | numbers offset use done left => exact framesLE_attempt fun _ => framesLE_forNumbers h _ _ _ _
  | values use done left => exact framesLE_forValues h _ _ _
  | operand offset op => exact framesLE_attempt fun _ => h
  | leftOperand offset op right =>
    refine framesLE_attempt fun x => ?_
    split <;> exact h
  | rightOperand offset op x => exact framesLE_attempt fun _ => h
  | condition offset pass fail => exact framesLE_attempt fun _ => h
  | assignment offset name slot path =>
    unfold receive
    dsimp only
    split
    · exact h
    · exact framesLE_attempt fun _ => h

/-- The one step that opens a call compares their number with the limit first. -/
theorem framesLE_enter (f : Function) (args : List Value) :
    (m.enter f args).FramesLE (maxCallDepth + 1) := by
  unfold enter
  by_cases hroom : maxCallDepth < m.depth + 1
  · rw [if_pos hroom]
    trivial
  · rw [if_neg hroom]
    show (m.current :: m.callers).length + 1 ≤ maxCallDepth + 1
    simp only [depth, List.length_cons] at hroom ⊢
    omega

/-- A call opens at most one frame, and not above the limit. -/
theorem framesLE_call (h : m.frames ≤ maxCallDepth + 1) (p : Program) (offset : Nat)
    (name : String) (args : List Value) (callee : Callee) :
    (m.call p offset name args callee).FramesLE (maxCallDepth + 1) := by
  cases callee with
  | builtin b => exact framesLE_attempt fun _ => h
  | self => exact framesLE_enter _ _
  | user index =>
    unfold call
    dsimp only
    split
    · exact framesLE_enter _ _
    · trivial

/-- The end of a call closes a frame. -/
theorem framesLE_leave (h : m.frames ≤ limit) (v : Value) : (m.leave v).FramesLE limit := by
  unfold leave
  split
  · trivial
  next caller callers hcallers =>
    simp only [frames, hcallers, List.length_cons] at h
    show callers.length + 1 ≤ limit
    omega

/-- No step opens a call above the limit. -/
theorem framesLE_step (h : m.frames ≤ maxCallDepth + 1) (p : Program) (focus : Focus) :
    (m.step p focus).FramesLE (maxCallDepth + 1) := by
  cases focus with
  | statement => exact framesLE_execute h
  | term t => exact framesLE_evaluate h t
  | call offset name callee args => exact framesLE_call h p offset name args callee
  | value v =>
    unfold step
    dsimp only
    split
    next use pending _ =>
      exact framesLE_receive (m := { m with current := { m.current with pending } }) h v use
    · exact framesLE_leave h v

end Machine

namespace Status

/-- A host opens one call. -/
theorem framesLE_start (f : Function) (args : List Value) (heap : Heap) :
    (start f args heap).FramesLE (maxCallDepth + 1) := by
  unfold start
  dsimp only
  split
  · trivial
  · split
    · trivial
    · show 1 ≤ maxCallDepth + 1
      omega

/-- Along every run the number of open calls stays within the limit. -/
theorem framesLE_run (p : Program) {s : Status} (h : s.FramesLE (maxCallDepth + 1)) (count : Nat) :
    (s.run p count).FramesLE (maxCallDepth + 1) := by
  induction count with
  | zero => exact h
  | succ count ih =>
    rw [run, Function.iterate_succ_apply', ← run]
    cases hs : s.run p count with
    | halted outcome => trivial
    | running focus m =>
      rw [hs] at ih
      exact Machine.framesLE_step ih p focus

end Status

end ArrayScript
