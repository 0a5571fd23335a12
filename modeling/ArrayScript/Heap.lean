import ArrayScript.Ty

/-!
# `ArrayScript.Heap`: values and shared arrays

A value is a number or a reference to an array. Arrays live in a heap and are shared: assigning one
or passing it to a function copies the reference. The heap only grows; an array keeps its reference
and its length for ever, and its elements can be overwritten.
-/

set_option autoImplicit false

namespace ArrayScript

/-- A number or a reference to an array. -/
inductive Value where
  | number (value : Float)
  | array (ref : Nat)

namespace Value

/-- The number that a value is. -/
def toNumber : Value → Except Cause Float
  | number value => .ok value
  | array _ => .error .numberExpected

/-- The number zero, which new arrays are filled with. -/
def zero : Value :=
  number 0

end Value

/-- The arrays of a program, each at its reference. -/
structure Heap where
  arrays : Array (Array Value)

namespace Heap

/-- A heap without arrays. -/
def empty : Heap :=
  ⟨#[]⟩

/-- The elements of the array that a value refers to. -/
def items? (h : Heap) : Value → Option (Array Value)
  | .number _ => none
  | .array ref => h.arrays[ref]?

/-- The length of the array that a value refers to. -/
def length? (h : Heap) (v : Value) : Option Nat :=
  (h.items? v).map Array.size

/-! ### Making arrays -/

/-- A new array with the given elements. -/
def push (h : Heap) (items : Array Value) : Value × Heap :=
  (.array h.arrays.size, ⟨h.arrays.push items⟩)

/-- Makes the same thing several times, one after the other, and adds it to `items` each time. -/
def pushMany (make : Heap → Value × Heap) :
    (count : Nat) → (items : Array Value) → Heap → Array Value × Heap
  | 0, items, h => (items, h)
  | count + 1, items, h =>
    let (item, h) := make h
    pushMany make count (items.push item) h

/-- A new array of zeros with the given sizes. The rows of an array of arrays are made one by one,
so that no two of them are the same array. Without any size it is a single zero. Memory is taken to
be unbounded: an array is made whatever its sizes are, also one that no machine has room for. -/
def allocate : (sizes : List Nat) → Heap → Value × Heap
  | [], h => (.zero, h)
  | [size], h => h.push (Array.replicate size .zero)
  | size :: sizes, h =>
    let (rows, h) := pushMany (allocate sizes) size #[] h
    h.push rows

/-! ### Elements -/

/-- The element of an array at an index. -/
def element (h : Heap) (v : Value) (index : Float) : Except Cause Value :=
  match h.items? v with
  | none => .error .notIndexable
  | some items => do
    let i ← Number.toIndex index items.size
    return items[i]

/-- A place in the heap: an array and a position in it. -/
structure Cell where
  ref : Nat
  index : Nat
deriving DecidableEq, Repr

/-- The cell of an array at an index. -/
def cell (h : Heap) (v : Value) (index : Float) : Except Cause Cell :=
  match v with
  | .number _ => .error .notIndexable
  | .array ref =>
    match h.arrays[ref]? with
    | none => .error .notIndexable
    | some items => do
      let i ← Number.toIndex index items.size
      return ⟨ref, i⟩

/-- The heap in which a cell is overwritten. -/
def write (h : Heap) (cell : Cell) (item : Value) : Heap :=
  ⟨h.arrays.modify cell.ref fun items => items.setIfInBounds cell.index item⟩

/-- The value that a path of indices leads to. -/
def walk (h : Heap) (v : Value) (path : List Float) : Except Cause Value :=
  path.foldlM h.element v

/-! ### Shapes -/

/-- Whether a value is nested as deeply as there are markers and has each size that they give. -/
def conformsToRank (h : Heap) : (rank : List Dim) → Value → Bool
  | [], .number _ => true
  | dim :: dims, v =>
    match h.items? v with
    | some items => (Dim.fixed items.size).compatible dim && items.all (h.conformsToRank dims)
    | none => false
  | _, _ => false

/-- Whether a value has the shape that a type asks for. -/
def conforms (h : Heap) (v : Value) : Ty → Bool
  | .number => h.conformsToRank [] v
  | .array [] => (h.items? v).isSome
  | .array rank => h.conformsToRank rank v
  | .function .. => false

end Heap

end ArrayScript
