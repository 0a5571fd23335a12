import ArrayScript.Decl.Basic
import ArrayScript.Number

/-!
# `ArrayScript.Ty`: types and signatures

A value is a number or an array. The type of an array lists a marker for each of its dimensions: a
size that is known before the program runs, or only the fact that the dimension exists. The empty
list of markers stands for an array of any depth. Functions have types too, which no value has.

`compatible` is the one relation between types that analysis asks for: in assignments, arguments,
list elements and results.
-/

set_option autoImplicit false

namespace ArrayScript

/-- What is known about one dimension of an array before the program runs. -/
inductive Dim where
  | fixed (size : Nat)
  | dynamic
deriving DecidableEq, Repr

namespace Dim

/-- Two markers contradict each other only if both give a size and the sizes differ. -/
def compatible : Dim → Dim → Bool
  | fixed m, fixed n => m == n
  | _, _ => true

/-- A marker as it is written behind `number`. -/
def text : Dim → String
  | fixed size => s!"[{size}]"
  | dynamic => "[]"

/-- The marker that a parameter's dimension stands for. Only a whole number that is written out
gives a size. -/
def ofParam : Option Expr → Dim
  | some (.number _ value) => ((Number.whole? value).map fixed).getD dynamic
  | _ => dynamic

end Dim

/-- A type. The type of a function holds its parameters, the type of any further arguments, its
result once that is known, and its complexity once its body is analysed. -/
inductive Ty where
  | number
  | array (rank : List Dim)
  | function (params : List Ty) (rest : Option Ty) (result : Option Ty) (score : Option Nat)

/-- What is known about a function from outside. -/
structure Signature where
  params : List Ty
  rest : Option Ty
  result : Option Ty
  score : Option Nat

/-- The type of a function with the given signature. -/
def Signature.ty (s : Signature) : Ty :=
  .function s.params s.rest s.result s.score

/-- The type that the argument at an index must be compatible with. -/
def Signature.param? (s : Signature) (index : Nat) : Option Ty :=
  s.params[index]?.or s.rest

/-- Whether a call may have this many arguments. -/
def Signature.accepts (s : Signature) (count : Nat) : Bool :=
  count == s.params.length || (s.params.length < count && s.rest.isSome)

namespace Ty

/-! ### Equality -/

mutual

/-- Equality of types is decided part by part. -/
def decEq : (a b : Ty) → Decidable (a = b)
  | number, number => .isTrue rfl
  | array r, array s =>
    if h : r = s then .isTrue (by rw [h]) else .isFalse (by simpa using h)
  | function ps r q n, function ps' r' q' n' =>
    match decEqList ps ps', decEqOption r r', decEqOption q q',
      (inferInstance : Decidable (n = n')) with
    | .isTrue h₁, .isTrue h₂, .isTrue h₃, .isTrue h₄ => .isTrue (by rw [h₁, h₂, h₃, h₄])
    | .isFalse h, _, _, _ => .isFalse (by simp [h])
    | _, .isFalse h, _, _ => .isFalse (by simp [h])
    | _, _, .isFalse h, _ => .isFalse (by simp [h])
    | _, _, _, .isFalse h => .isFalse (by simp [h])
  | number, array _ | number, function .. | array _, number | array _, function ..
  | function .., number | function .., array _ => .isFalse (by simp)

/-- Equality of lists of types. -/
def decEqList : (as bs : List Ty) → Decidable (as = bs)
  | [], [] => .isTrue rfl
  | a :: as, b :: bs =>
    match decEq a b, decEqList as bs with
    | .isTrue h₁, .isTrue h₂ => .isTrue (by rw [h₁, h₂])
    | .isFalse h, _ => .isFalse (by simp [h])
    | _, .isFalse h => .isFalse (by simp [h])
  | [], _ :: _ | _ :: _, [] => .isFalse (by simp)

/-- Equality of types that may be absent. -/
def decEqOption : (a b : Option Ty) → Decidable (a = b)
  | none, none => .isTrue rfl
  | some a, some b =>
    match decEq a b with
    | .isTrue h => .isTrue (by rw [h])
    | .isFalse h => .isFalse (by simpa using h)
  | none, some _ | some _, none => .isFalse (by simp)

end

instance : DecidableEq Ty := decEq

/-! ### Types of values -/

/-- The type of an array of which only the number of dimensions is known. -/
def dynamicArray (rank : Nat) : Ty :=
  array (List.replicate rank .dynamic)

/-- The type of all arrays. -/
def anyArray : Ty :=
  array []

/-- Whether a type is that of numbers. -/
def isNumber : Ty → Bool
  | number => true
  | _ => false

/-- The markers of an array's dimensions. Other types have none. -/
def rank : Ty → List Dim
  | array rank => rank
  | _ => []

/-- The type of what is left of an array when its first dimensions are given. -/
def ofRank : List Dim → Ty
  | [] => number
  | dim :: dims => array (dim :: dims)

/-- The type that a parameter is declared with. -/
def ofParam (param : Param) : Ty :=
  ofRank (param.dims.map Dim.ofParam)

/-- Whether a value of type `actual` may stand where `expected` is asked for. -/
def compatible : (actual expected : Ty) → Bool
  | number, number => true
  | array _, array [] => true
  | array actual, array expected =>
    actual.length == expected.length &&
      (actual.zip expected).all fun (a, e) => a.compatible e
  | _, _ => false

/-! ### Text -/

mutual

/-- A type as it is written. -/
def text : Ty → String
  | number => "number"
  | array [] => "number[..]"
  | array rank => rank.foldl (fun written dim => written ++ dim.text) "number"
  | function params rest result _ =>
    let arguments := ", ".intercalate (textAll params ++ textRest rest)
    "(" ++ arguments ++ ") -> " ++ textResult result

/-- The types of parameters as they are written. -/
def textAll : List Ty → List String
  | [] => []
  | ty :: tys => text ty :: textAll tys

/-- The type of further arguments, if there may be any. -/
def textRest : Option Ty → List String
  | none => []
  | some ty => ["..." ++ text ty]

/-- The type of a result, which need not be known. -/
def textResult : Option Ty → String
  | none => "?"
  | some ty => text ty

end

end Ty

/-- A signature as it is written. -/
def Signature.text (s : Signature) : String :=
  s.ty.text

end ArrayScript
