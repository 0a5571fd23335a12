import ArrayScript.Program

/-!
# `ArrayScript.Run.Site`: the surroundings of running code

Code runs in a frame, on a heap that outlives it. A run that fails keeps the heap as it is at that
moment, so what it has already written stays written. The site says which function is running, in
which program, and how it enters other functions. Code raises an error at a position and does not
say whose it is: a call attributes the errors that leave it (`ArrayScript.Run.Call`).
-/

set_option autoImplicit false

namespace ArrayScript

/-- The variables of one call: an argument or a value, or nothing yet. -/
abbrev Frame : Type :=
  Array (Option Value)

/-- A computation on the heap. It ends in a value or an error, and leaves a heap in either case. -/
abbrev Run (α : Type) : Type :=
  EStateM Error Heap α

/-- The function that is running, its program, and how it calls another function. -/
structure Site where
  program : Program
  current : Function
  enter : Function → List Value → Run Value

namespace Site

/-- An error at an offset of the function that is running, not yet attributed to it. -/
def error (site : Site) (offset : Nat) (cause : Cause) : Error :=
  Fault.inFile ⟨cause, offset⟩ site.current.file

/-- The outcome of an operation that may fail, at an offset of the function that is running. -/
def attempt {α : Type} (site : Site) (offset : Nat) : Except Cause α → Run α
  | .ok a => return a
  | .error cause => throw (site.error offset cause)

/-- The value of a variable. Until it is assigned on the path that was taken, it has none. -/
def read (site : Site) (frame : Frame) (offset : Nat) (name : String) (slot : Nat) : Run Value :=
  match frame[slot]? with
  | some (some v) => return v
  | _ => throw (site.error offset (.uninitialized name))

end Site

/-- What a prefix operator computes. -/
def PrefixOp.apply : PrefixOp → Float → Float
  | negation, x => -x
  | inversion, x => Number.ofBool !(Number.truthy x)

namespace BinaryOp

/-- What a binary operator computes. -/
def apply : BinaryOp → Float → Float → Float
  | sum, x, y => x + y
  | difference, x, y => x - y
  | product, x, y => x * y
  | quotient, x, y => x / y
  | remainder, x, y => Number.remainder x y
  | conjunction, x, y => Number.ofBool (Number.truthy x && Number.truthy y)
  | disjunction, x, y => Number.ofBool (Number.truthy x || Number.truthy y)
  | lesser, x, y => Number.ofBool (x < y)
  | greater, x, y => Number.ofBool (x > y)
  | noGreater, x, y => Number.ofBool (x ≤ y)
  | noLesser, x, y => Number.ofBool (x ≥ y)
  | equal, x, y => Number.ofBool (x == y)
  | inequal, x, y => Number.ofBool (x != y)

/-- The result that a left operand settles alone, so that the right one is not evaluated. -/
def shortcut? : BinaryOp → Float → Option Float
  | conjunction, x => if Number.truthy x then none else some 0
  | disjunction, x => if Number.truthy x then some 1 else none
  | _, _ => none

end BinaryOp

end ArrayScript
