import ArrayScript.Run.Step

/-!
# `ArrayScript.Run.Call`: calling functions

A call runs a function's body in a frame of its own. Calls nest up to a limit, so every run ends:
`Program.call` is given the number of frames that may still be opened, and hands one less to the
calls inside. An error that leaves a body is attributed to its function on the way out, and so on
through every call around it, where the innermost function keeps it (`Error.inFunction`). A host
calls by name and may bring anything, so `Program.invoke` first checks that the arguments fit.
-/

set_option autoImplicit false

namespace ArrayScript

/-- How deeply calls can be nested below the one that a host makes. -/
def maxCallDepth : Nat := 256

namespace Function

/-- The frame of a call: the arguments in the first slots, and nothing in the others. -/
def frame (f : Function) (args : List Value) : Frame :=
  ((args.map some ++ List.replicate (f.slots - args.length) none).take f.slots).toArray

/-- An error that arises when a function is entered or left. -/
def error (f : Function) (cause : Cause) : Error :=
  Error.inFunction ⟨cause, f.position, none⟩ f.name

end Function

namespace Program

/-- Calls a function with arguments that fit, when `room` more frames may be opened. -/
def call (p : Program) : (room : Nat) → Function → List Value → Run Value
  | 0, f, _ => throw (f.error (.callDepthExceeded f.name maxCallDepth))
  | room + 1, f, args => fun heap =>
    match Code.execAll ⟨p, f, p.call room⟩ f.body ⟨f.frame args, heap⟩ with
    | .ok (.returned v) state => .ok v state.heap
    | .ok .next state => .error (f.error .missingReturn) state.heap
    | .error e state => .error (e.inFunction f.name) state.heap

/-- The index of the first argument that does not have the shape that its parameter asks for. -/
def misfit? (h : Heap) (signature : Signature) (args : List Value) : Option Nat :=
  args.zipIdx.findSome? fun (v, index) =>
    if (signature.param? index).any (h.conforms v) then none else some index

/-- Calls a function for a host. -/
def invokeFunction (p : Program) (f : Function) (args : List Value) : Run Value := do
  let refuse (cause : Cause) : Run Value := throw ⟨cause, f.position, none⟩
  if args.length ≠ f.params.length then
    refuse (.hostArgumentCount f.name f.params.length args.length)
  else match misfit? (← get) f.signature args with
    | some index => refuse (.hostArgumentType f.name index)
    | none => p.call (maxCallDepth + 1) f args

/-- Calls a builtin for a host. -/
def invokeBuiltin (b : Builtin) (args : List Value) : Run Value := do
  let signature := b.signature
  if !signature.accepts args.length then
    throw (Cause.hostArgumentCount b.name signature.params.length args.length).atHost
  else match misfit? (← get) signature args with
    | some index => throw (Cause.hostArgumentType b.name index).atHost
    | none =>
      match b.apply (← get) args with
      | .ok x => return .number x
      | .error cause => throw cause.atHost

/-- Calls a builtin or a function of the program by name. -/
def invoke (p : Program) (name : String) (args : List Value) : Run Value :=
  match p.entry? name with
  | some (.user _ f) => p.invokeFunction f args
  | some (.builtin b) => invokeBuiltin b args
  | none => throw (Cause.unknownFunction name).atHost

end Program

end ArrayScript
