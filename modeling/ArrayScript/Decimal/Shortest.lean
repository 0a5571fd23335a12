import ArrayScript.Decimal.Binary

/-!
# `ArrayScript.Decimal.Shortest`: the fewest digits that identify a double

The reals that round to a given double form an interval around it. Every end of such an interval
is a finite decimal, so after one common scaling the value and both ends are natural numbers
(`Interval`), and "reads back to the same double" is a comparison of naturals
(`Interval.Contains`). `Interval.shortest` keeps as few leading digits of the value as it can,
rounded down or up, that still lie in the interval. Of two such numbers it takes the nearer one,
and the upper one if both are equally near.
-/

set_option autoImplicit false

namespace ArrayScript.Decimal

/-- The value `digits · 10 ^ scale`. -/
structure Digits where
  digits : Nat
  scale : Int
deriving DecidableEq, Repr

/-- The reals that round to `value · 10 ^ scale`, from `low` to `high` in the same units. The ends
belong to it when `closed` is set. -/
structure Interval where
  low : Nat
  value : Nat
  high : Nat
  scale : Int
  closed : Bool
deriving DecidableEq, Repr

/-- The interval of a positive double. In quarters of the mantissa's unit the ends lie two away
from the value, and only one below it where the double below is nearer. A tie between two doubles
goes to the even mantissa, so the ends are included exactly for an even one. -/
def Interval.ofBinary (b : Binary) : Interval :=
  let quarter := b.exponent - 2
  let unit := Nat.pow 5 (-quarter).toNat <<< quarter.toNat
  let below := if b.narrowBelow then 1 else 2
  { low := (4 * b.mantissa - below) * unit
    value := 4 * b.mantissa * unit
    high := (4 * b.mantissa + 2) * unit
    scale := min quarter 0
    closed := b.mantissa % 2 == 0 }

/-- Whether a number, in the interval's units, rounds to the interval's value. -/
def Interval.Contains (i : Interval) (n : Nat) : Prop :=
  if i.closed then i.low ≤ n ∧ n ≤ i.high else i.low < n ∧ n < i.high

instance (i : Interval) (n : Nat) : Decidable (i.Contains n) := by
  unfold Interval.Contains; infer_instance

/-- The nearer of the two neighbours of the value among the multiples of `unit` that lie in the
interval; the upper one of two equally near. -/
def Interval.neighbour? (i : Interval) (unit : Nat) : Option Nat :=
  let below := i.value / unit
  let above := below + 1
  let distance := i.value - below * unit
  if i.Contains (above * unit) ∧ (unit ≤ 2 * distance ∨ ¬ i.Contains (below * unit)) then
    some above
  else if i.Contains (below * unit) then some below
  else none

/-- The coarsest neighbour of the value in the interval when at most `dropped` digits are dropped.
When none is dropped the value is its own neighbour. -/
def Interval.coarsest (i : Interval) : (dropped : Nat) → Digits
  | 0 => ⟨i.value, i.scale⟩
  | dropped + 1 =>
    match i.neighbour? (Nat.pow 10 (dropped + 1)) with
    | some digits => ⟨digits, i.scale + (dropped + 1)⟩
    | none => i.coarsest dropped

/-- The number of decimal digits of a natural number. -/
def digitCount (n : Nat) : Nat :=
  (Nat.toDigits 10 n).length

/-- The number with the fewest digits in the interval that is nearest to the value. -/
def Interval.shortest (i : Interval) : Digits :=
  i.coarsest (digitCount i.value - 1)

end ArrayScript.Decimal
