import ArrayScript.Run.Site

/-!
# `ArrayScript.Run.Term`: evaluating expressions

Operands, elements, indices and arguments are evaluated from left to right. An expression never
assigns a variable of its own frame; it can change the heap through the functions that it calls.
-/

set_option autoImplicit false

namespace ArrayScript.Code

mutual

/-- The value of a term in a frame. A variable is read before its indices are evaluated, and only
then are the indices followed. -/
def Term.eval (site : Site) (frame : Frame) : Term → Run Value
  | .number value => return .number value
  | .newArray offset sizes => do
    let sizes ← evalSizes site frame offset sizes
    modifyGet (Heap.allocate sizes)
  | .list _ items => do
    let values ← evalAll site frame items
    modifyGet fun h => h.push values.toArray
  | .slot offset name slot _ indices => do
    let base ← site.read frame offset name slot
    let path ← evalNumbers site frame offset indices
    site.attempt offset ((← get).walk base path)
  | .call offset name callee _ args => do
    let values ← evalAll site frame args
    match callee with
    | .builtin b =>
      let x ← site.attempt offset (b.apply (← get) values)
      return .number x
    -- A function cannot be missing while its own code runs, so unlike the call of another one
    -- this has no branch for an unknown function.
    | .self => site.enter site.current values
    | .user index =>
      match site.program.functions[index]? with
      | some f => site.enter f values
      | none => throw (site.error offset (.unknownFunction name))
  | .unary offset op operand => do
    let v ← operand.eval site frame
    let x ← site.attempt offset v.toNumber
    return .number (op.apply x)
  | .binary offset op left right => do
    let v ← left.eval site frame
    let x ← site.attempt offset v.toNumber
    match op.shortcut? x with
    | some result => return .number result
    | none =>
      let w ← right.eval site frame
      let y ← site.attempt offset w.toNumber
      return .number (op.apply x y)

/-- The values of several terms. -/
def evalAll (site : Site) (frame : Frame) : List Term → Run (List Value)
  | [] => return []
  | t :: ts => do
    let v ← t.eval site frame
    let vs ← evalAll site frame ts
    return v :: vs

/-- The numbers that several terms denote. -/
def evalNumbers (site : Site) (frame : Frame) (offset : Nat) : List Term → Run (List Float)
  | [] => return []
  | t :: ts => do
    let v ← t.eval site frame
    let x ← site.attempt offset v.toNumber
    let xs ← evalNumbers site frame offset ts
    return x :: xs

/-- The sizes that several terms denote. -/
def evalSizes (site : Site) (frame : Frame) (offset : Nat) : List Term → Run (List Nat)
  | [] => return []
  | t :: ts => do
    let v ← t.eval site frame
    let size ← site.attempt offset (v.toNumber >>= Number.toSize)
    let sizes ← evalSizes site frame offset ts
    return size :: sizes

end

end ArrayScript.Code
