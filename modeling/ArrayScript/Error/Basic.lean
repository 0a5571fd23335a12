import ArrayScript.Error.Cause
import ArrayScript.Text.Excerpt

/-!
# `ArrayScript.Error.Basic`: causes with a place

A `Fault` is a cause at an offset of the text that is being worked on. An `Error` is what leaves
the library: the cause, the position with its file, and the function that it belongs to. Work on
one text raises faults; only where a text or a function is entered from outside do they become
errors (`Fault.inFile`, `Error.inFunction`).
-/

set_option autoImplicit false

namespace ArrayScript

/-- A cause at a byte offset of the text at hand. -/
structure Fault where
  cause : Cause
  offset : Nat

/-- A cause with its position, and the function it is attributed to. -/
structure Error where
  cause : Cause
  position : Position
  function : Option String

/-- The error of a fault in the text of `file`, not yet attributed to a function. -/
def Fault.inFile (fault : Fault) (file : String) : Error :=
  ⟨fault.cause, ⟨file, fault.offset⟩, none⟩

/-- A fault keeps its cause when it becomes an error. -/
@[simp] theorem Fault.cause_inFile (fault : Fault) (file : String) :
    (fault.inFile file).cause = fault.cause :=
  rfl

/-- An error that a host's own request causes. -/
def Cause.atHost (cause : Cause) : Error :=
  ⟨cause, .host, none⟩

namespace Error

/-- Attributes an error to a function, unless an inner function already claimed it. -/
def inFunction (error : Error) (function : String) : Error :=
  { error with function := some (error.function.getD function) }

/-- Attribution leaves the cause alone. -/
@[simp] theorem cause_inFunction (error : Error) (function : String) :
    (error.inFunction function).cause = error.cause :=
  rfl

/-- An error that is attributed already passes through further functions as it is: the innermost
function keeps it. -/
theorem inFunction_of_some {error : Error} {inner : String} (h : error.function = some inner)
    (outer : String) : error.inFunction outer = error := by
  obtain ⟨cause, position, function⟩ := error
  obtain rfl : function = some inner := h
  rfl

/-- The line above the message: whose error it is. -/
def headline (error : Error) : String :=
  match error.cause, error.function with
  | .unrecognised _, _ => "Lexical Error:"
  | _, some function => s!"Error in function '{function}':"
  | _, none => "Error:"

/-- The headline and the indented message below it. -/
def report (error : Error) : String :=
  s!"{error.headline}\n    {error.cause.message}"

/-- The excerpt of the program text around an error. -/
def excerpt? (error : Error) (text path : String) : Option String :=
  Text.excerpt? text error.position.offset path

end Error

end ArrayScript
