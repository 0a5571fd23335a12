import ArrayScript.Heap

/-!
# `ArrayScript.Builtin`: functions that every program has

All builtins take numbers to a number, but for `sizeof`, which takes an array of any depth. Their
names cannot be declared again.
-/

set_option autoImplicit false

namespace ArrayScript

/-- The builtin functions. -/
inductive Builtin where
  | abs
  | acos
  | asin
  | atan
  | atan2
  | ceil
  | cos
  | exp
  | floor
  | log
  | max
  | min
  | pow
  | round
  | sin
  | sqrt
  | tan
  | sizeof
deriving DecidableEq, Repr

namespace Builtin

/-- Every builtin. -/
def all : List Builtin :=
  [ abs, acos, asin, atan, atan2, ceil, cos, exp, floor, log, max, min, pow, round, sin, sqrt, tan,
    sizeof ]

theorem mem_all (b : Builtin) : b ∈ all := by
  cases b <;> decide

/-- The name by which programs call a builtin. -/
def name : Builtin → String
  | abs => "abs"
  | acos => "acos"
  | asin => "asin"
  | atan => "atan"
  | atan2 => "atan2"
  | ceil => "ceil"
  | cos => "cos"
  | exp => "exp"
  | floor => "floor"
  | log => "log"
  | max => "max"
  | min => "min"
  | pow => "pow"
  | round => "round"
  | sin => "sin"
  | sqrt => "sqrt"
  | tan => "tan"
  | sizeof => "sizeof"

/-- The builtin with a given name. -/
def find? (name : String) : Option Builtin :=
  all.find? fun b => b.name == name

/-- How a builtin uses its arguments. -/
inductive Form where
  | unary (f : Float → Float)
  | binary (f : Float → Float → Float)
  /-- At least one number; the function joins them from left to right. -/
  | fold (f : Float → Float → Float)
  /-- The length of an array. -/
  | size

/-- The greater of two numbers, unless one of them is not a number. -/
def greater (a b : Float) : Float :=
  if a.isNaN || b.isNaN then 0 / 0 else if a < b then b else a

/-- The lesser of two numbers, unless one of them is not a number. -/
def lesser (a b : Float) : Float :=
  if a.isNaN || b.isNaN then 0 / 0 else if b < a then b else a

/-- What each builtin computes. Rounding takes a half to the whole number above it. -/
def form : Builtin → Form
  | abs => .unary Float.abs
  | acos => .unary Float.acos
  | asin => .unary Float.asin
  | atan => .unary Float.atan
  | atan2 => .binary Float.atan2
  | ceil => .unary Float.ceil
  | cos => .unary Float.cos
  | exp => .unary Float.exp
  | floor => .unary Float.floor
  | log => .unary Float.log
  | max => .fold greater
  | min => .fold lesser
  | pow => .binary Float.pow
  | round => .unary fun x => (x + 0.5).floor
  | sin => .unary Float.sin
  | sqrt => .unary Float.sqrt
  | tan => .unary Float.tan
  | sizeof => .size

/-- The types of the parameters, and of further arguments where a form takes any. -/
def Form.params : Form → List Ty × Option Ty
  | unary _ => ([.number], none)
  | binary _ => ([.number, .number], none)
  | fold _ => ([.number], some .number)
  | size => ([.anyArray], none)

/-- What a call of a builtin has to look like. Builtins have no complexity. -/
def signature (b : Builtin) : Signature :=
  let (params, rest) := b.form.params
  ⟨params, rest, some .number, none⟩

/-- The argument at an index, as a number. -/
def argument (b : Builtin) (args : List Value) (index : Nat) : Except Cause Float :=
  match args[index]? with
  | some v => v.toNumber
  | none => .error (.hostArgumentCount b.name b.signature.params.length args.length)

/-- The result of a builtin. Calls from analysed programs always have arguments that fit; a host
may bring others. Arguments that a form has no use for are ignored. -/
def apply (b : Builtin) (h : Heap) (args : List Value) : Except Cause Float :=
  match b.form with
  | .unary f => do
    let x ← b.argument args 0
    return f x
  | .binary f => do
    let x ← b.argument args 0
    let y ← b.argument args 1
    return f x y
  | .fold f => do
    let first ← b.argument args 0
    args.tail.foldlM (fun x v => return f x (← v.toNumber)) first
  | .size =>
    match args.head?.bind h.length? with
    | some length => .ok (Float.ofNat length)
    | none => .error .notIndexable

end Builtin

end ArrayScript
