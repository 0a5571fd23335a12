import ArrayScript.Run.Term

/-!
# `ArrayScript.Run.Step`: executing statements

Statements run one after the other until one of them returns. An assignment to an element evaluates
its indices first and its value next, and only then looks for the array that it writes to.
-/

set_option autoImplicit false

namespace ArrayScript.Code

/-- The frame of a call and the heap. -/
structure State where
  frame : Frame
  heap : Heap

/-- A computation that can also assign variables of the frame. -/
abbrev Execution (α : Type) : Type :=
  EStateM Error State α

/-- Where execution goes on behind a statement. -/
inductive Flow where
  | next
  | returned (v : Value)

/-- A computation on the heap that reads the frame. -/
def Execution.ofRun {α : Type} (run : Frame → Run α) : Execution α := fun state =>
  match state with
  | ⟨frame, heap⟩ =>
    match run frame heap with
    | .ok a heap => .ok a ⟨frame, heap⟩
    | .error e heap => .error e ⟨frame, heap⟩

/-- Assigns a variable. -/
def Execution.assign (slot : Nat) (v : Value) : Execution Unit :=
  modify fun state => { state with frame := state.frame.setIfInBounds slot (some v) }

/-- Writes a value to the element of a variable's array that a path leads to. -/
def writeElement (site : Site) (frame : Frame) (offset : Nat) (name : String) (slot : Nat)
    (path : List Float) (last : Float) (v : Value) : Run Unit := do
  let base ← site.read frame offset name slot
  let container ← site.attempt offset ((← get).walk base path)
  let cell ← site.attempt offset ((← get).cell container last)
  modify fun heap => heap.write cell v

mutual

/-- Executes a statement. -/
def Step.exec (site : Site) : Step → Execution Flow
  | .branch offset condition pass fail => do
    let v ← .ofRun fun frame => condition.eval site frame
    let x ← .ofRun fun _ => site.attempt offset v.toNumber
    if Number.truthy x then execAll site pass else execAll site fail
  | .assign offset name slot indices value => do
    let path ← .ofRun fun frame => evalNumbers site frame offset indices
    let v ← .ofRun fun frame => value.eval site frame
    match path.getLast? with
    | none => .assign slot v
    | some last =>
      .ofRun fun frame => writeElement site frame offset name slot path.dropLast last v
    return .next
  | .ret value => do
    let v ← .ofRun fun frame => value.eval site frame
    return .returned v

/-- Executes statements until one of them returns. -/
def execAll (site : Site) : List Step → Execution Flow
  | [] => return .next
  | s :: rest => do
    match ← s.exec site with
    | .returned v => return .returned v
    | .next => execAll site rest

end

end ArrayScript.Code
