import ArrayScript.Builtin
import ArrayScript.Operator

/-!
# `ArrayScript.Code`: analysed function bodies

Analysis turns the body of a function into code, in which no name has to be looked up any more: a
variable is a slot of the frame, a callee is a builtin, a place in the program or the function
itself, and a compound assignment is written out. Terms carry the type that analysis gave them, and
the offset that an error in them is reported at.
-/

set_option autoImplicit false

namespace ArrayScript

/-- What a call reaches: a builtin, a function that the program already has, by its place there, or
the function that the call stands in. -/
inductive Callee where
  | builtin (b : Builtin)
  | user (index : Nat)
  | self
deriving DecidableEq, Repr

namespace Code

/-- An analysed expression. -/
inductive Term where
  | number (value : Float)
  | newArray (offset : Nat) (sizes : List Term)
  | list (ty : Ty) (items : List Term)
  | slot (offset : Nat) (name : String) (slot : Nat) (ty : Ty) (indices : List Term)
  | call (offset : Nat) (name : String) (callee : Callee) (ty : Ty) (args : List Term)
  | unary (offset : Nat) (op : PrefixOp) (operand : Term)
  | binary (offset : Nat) (op : BinaryOp) (left right : Term)

/-- The type that analysis gave an expression. -/
def Term.ty : Term → Ty
  | number _ | unary .. | binary .. => .number
  | newArray _ sizes => .dynamicArray sizes.length
  | list ty _ | slot _ _ _ ty _ | call _ _ _ ty _ => ty

/-- An analysed statement. -/
inductive Step where
  | branch (offset : Nat) (condition : Term) (pass fail : List Step)
  | assign (offset : Nat) (name : String) (slot : Nat) (indices : List Term) (value : Term)
  | ret (value : Term)

end Code

end ArrayScript
