import ArrayScript.Expr.Parse
import ArrayScript.Heap
import ArrayScript.Token.Scan

/-!
# `ArrayScript.Datum`: values as data

A datum is a number or a list of data: what a value looks like when nothing is shared. Hosts pass
data in (`Heap.store`), results are shown as data (`Heap.view`), and both have the same text, which
can be read again (`Datum.text`, `Datum.read`).
-/

set_option autoImplicit false

namespace ArrayScript

/-- A number or a list of data. -/
inductive Datum where
  | number (value : Float)
  | array (items : List Datum)

namespace Datum

/-! ### Text -/

mutual

/-- A datum as it is written. -/
def text : Datum → String
  | number value => Decimal.write value
  | array items => "[" ++ ", ".intercalate (textAll items) ++ "]"

/-- Data as they are written. -/
def textAll : List Datum → List String
  | [] => []
  | d :: ds => text d :: textAll ds

end

mutual

/-- The datum that an expression denotes by itself: a number, a negated number, or a list of
such. -/
def ofExpr? : Expr → Option Datum
  | .number _ value => some (number value)
  | .unary _ .negation operand =>
    match ofExpr? operand with
    | some (number value) => some (number (-value))
    | _ => none
  | .list _ items => (ofExprs? items).map array
  | _ => none

/-- The data that expressions denote by themselves. -/
def ofExprs? : List Expr → Option (List Datum)
  | [] => some []
  | e :: es => do
    let d ← ofExpr? e
    let ds ← ofExprs? es
    return d :: ds

end

/-- The datum that a text holds, or why it holds none. -/
def read (text : String) : Except String Datum :=
  match Token.scan text >>= Expr.parse with
  | .error fault => .error fault.cause.message
  | .ok e =>
    match ofExpr? e with
    | some d => .ok d
    | none => .error s!"`{text}' is not a literal"

/-! ### Equality -/

mutual

/-- Whether two data have the same structure and equal numbers. As numbers do, a datum with a NaN
inside differs from itself, and the two zeros are equal. -/
def same : Datum → Datum → Bool
  | number a, number b => a == b
  | array as, array bs => sameAll as bs
  | _, _ => false

/-- Whether two lists of data are the same, item by item. -/
def sameAll : List Datum → List Datum → Bool
  | [], [] => true
  | a :: as, b :: bs => same a b && sameAll as bs
  | _, _ => false

end

end Datum

namespace Heap

mutual

/-- Puts a datum into the heap. No two of its lists become the same array. -/
def store (h : Heap) : Datum → Value × Heap
  | .number value => (.number value, h)
  | .array items =>
    let (values, h) := h.storeAll items
    h.push values.toArray

/-- Puts data into the heap, one after the other. -/
def storeAll (h : Heap) : List Datum → List Value × Heap
  | [] => ([], h)
  | d :: ds =>
    let (v, h) := h.store d
    let (vs, h) := h.storeAll ds
    (v :: vs, h)

end

/-- A value as a datum, as far as `depth` arrays deep. -/
def viewTo (h : Heap) : (depth : Nat) → Value → Datum
  | _, .number value => .number value
  | 0, .array _ => .array []
  | depth + 1, .array ref =>
    .array (((h.arrays[ref]?.getD #[]).map (h.viewTo depth)).toList)

/-- A value as a datum. Arrays that do not contain themselves are never nested more deeply than
there are arrays. -/
def view (h : Heap) (v : Value) : Datum :=
  h.viewTo h.arrays.size v

end Heap

end ArrayScript
