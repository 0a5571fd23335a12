import ArrayScript.Decimal.Binary
import ArrayScript.Error.Cause

/-!
# `ArrayScript.Number`: what programs do with numbers

Every scalar is a double. This module holds the readings of a double that are not plain
arithmetic: as a truth value, as an index or an array size, and the remainder of a division. The
last three are computed exactly on the parts of the double.
-/

set_option autoImplicit false

namespace ArrayScript.Number

open Decimal

/-! ### Truth values -/

/-- A number counts as true unless it is zero or not a number. -/
def truthy (x : Float) : Bool :=
  x != 0 && !x.isNaN

/-- The number that stands for a truth value. -/
def ofBool (b : Bool) : Float :=
  if b then 1 else 0

/-! ### Sizes and indices -/

/-- The greatest size that an array can be given. Larger whole numbers count as this one. It is a
bound on the number itself and not on memory, which is taken to be unbounded. A machine runs out of
it long before: from `2 ^ 59` elements on there are more bytes than it can address. -/
def greatestSize : Nat := 0xFFFFFFFFFFFFFFFF

/-- A finite value without a fraction part, as a natural number, whatever its sign. -/
def magnitude? (b : Binary) : Option Nat :=
  if 0 ≤ b.exponent then some (b.mantissa <<< b.exponent.toNat)
  else
    let unit : Nat := 1 <<< (-b.exponent).toNat
    if b.mantissa % unit = 0 then some (b.mantissa / unit) else none

/-- A non-negative whole number as a size. Negative zero is zero. -/
def whole? (x : Float) : Option Nat :=
  if x ≥ 0 && x.isFinite then (magnitude? (Binary.ofFloat x)).map (min greatestSize) else none

/-- A number as an index into an array of the given length. -/
def toIndex (x : Float) (length : Nat) : Except Cause (Fin length) :=
  match whole? x with
  | none => .error (.invalidIndex x)
  | some index =>
    if h : index < length then .ok ⟨index, h⟩ else .error (.indexOutOfBounds index length)

/-- A number as the size of one dimension of a new array. -/
def toSize (x : Float) : Except Cause Nat :=
  match whole? x with
  | none => .error (.invalidDimension x)
  | some size => .ok size

/-! ### Remainder -/

/-- The remainder of two finite values, the second not zero. It has the sign of the first. -/
def remainderBinary (a b : Binary) : Binary :=
  let exponent := min a.exponent b.exponent
  let scaled (x : Binary) : Nat := x.mantissa <<< (x.exponent - exponent).toNat
  ⟨a.negative, scaled a % scaled b, exponent⟩

/-- The remainder of a division that is cut toward zero. An infinite or absent dividend and a zero
divisor have none; an infinite divisor leaves the dividend as it is. -/
def remainder (a b : Float) : Float :=
  if a.isNaN || b.isNaN || a.isInf || b == 0 then 0 / 0
  else if b.isInf then a
  else (remainderBinary (Binary.ofFloat a) (Binary.ofFloat b)).toFloat

end ArrayScript.Number
