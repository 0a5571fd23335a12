/-!
# `ArrayScript.Decimal.Binary`: finite doubles as exact binary fractions

A finite double is a sign, a mantissa and a power of two. `Binary.ofFloat` takes one apart and
`Binary.toFloat` puts a value with at most fifty-three significant bits together again. Between
the two all arithmetic is exact, on natural numbers.
-/

set_option autoImplicit false

namespace ArrayScript.Decimal

/-- The value `mantissa · 2 ^ exponent`, with a sign that also zero carries. -/
structure Binary where
  negative : Bool
  mantissa : Nat
  exponent : Int
deriving DecidableEq, Repr

/-- The exponent of the smallest positive double, `2 ^ -1074`. -/
def Binary.leastExponent : Int := -1074

/-- The least mantissa of a normal double, `2 ^ 52`. -/
def Binary.leastNormal : Nat := 1 <<< 52

/-- The parts of a finite double. Neither a NaN nor an infinity is one. -/
def Binary.ofFloat (x : Float) : Binary :=
  let bits := x.toBits
  let field := ((bits >>> 52) &&& 0x7FF).toNat
  let fraction := (bits &&& 0xFFFFFFFFFFFFF).toNat
  let negative := bits >>> 63 == 1
  if field = 0 then ⟨negative, fraction, leastExponent⟩
  else ⟨negative, leastNormal + fraction, (field : Int) - 1075⟩

/-- The least double above the value is twice as far away as the greatest one below it. -/
def Binary.narrowBelow (b : Binary) : Bool :=
  b.mantissa == leastNormal && leastExponent < b.exponent

/-- The double with this value. The mantissa has at most fifty-three bits and the exponent is not
below the least one; the mantissa is shifted left until it is normal or the exponent is least. -/
def Binary.toFloat (b : Binary) : Float :=
  let shift := min (52 - b.mantissa.log2) (b.exponent - leastExponent).toNat
  let mantissa := b.mantissa <<< shift
  let field := if mantissa < leastNormal then 0 else (b.exponent - shift + 1075).toNat
  let fraction := mantissa % leastNormal
  let sign : Nat := if b.negative then 1 <<< 63 else 0
  Float.ofBits (UInt64.ofNat (sign + field <<< 52 + fraction))

end ArrayScript.Decimal
