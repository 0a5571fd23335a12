import ArrayScript.Decimal.Shortest

/-!
# `ArrayScript.Decimal.Notation`: writing and reading numbers

Numbers are written with the fewest digits that identify them and always positionally: no
exponent, no point for a whole number, a sign for negative zero, and the words `NaN`, `inf` and
`-inf` for what has no digits (`write`).

Reading accepts more (`read?`): an optional sign, digits with an optional point on either side of
which digits may be missing but not on both, an optional decimal exponent, and the words `inf`,
`infinity` and `nan` in any case. The result is the nearest double.
-/

set_option autoImplicit false

namespace ArrayScript.Decimal

/-! ### Writing -/

/-- The digits without zeros behind the last digit that counts after the point. -/
def trimZeros (digits : List Char) : List Char :=
  (digits.reverse.dropWhile (· = '0')).reverse

/-- A decimal laid out positionally: `whole` digits stand in front of the point. -/
def layout (digits : List Char) (whole : Int) : List Char :=
  if whole ≤ 0 then '0' :: '.' :: (List.replicate (-whole).toNat '0' ++ digits)
  else if digits.length ≤ whole then
    digits ++ List.replicate (whole.toNat - digits.length) '0'
  else digits.take whole.toNat ++ '.' :: digits.drop whole.toNat

/-- A positive decimal in positional notation. -/
def Digits.write (d : Digits) : List Char :=
  let digits := Nat.toDigits 10 d.digits
  layout (trimZeros digits) (digits.length + d.scale)

/-- The text of a finite number. -/
def Binary.write (b : Binary) : List Char :=
  let magnitude := if b.mantissa = 0 then ['0'] else (Interval.ofBinary b).shortest.write
  if b.negative then '-' :: magnitude else magnitude

/-- The text of a number. -/
def write (x : Float) : String :=
  if x.isNaN then "NaN"
  else if x.isInf then if x < 0 then "-inf" else "inf"
  else String.ofList (Binary.ofFloat x).write

/-! ### Reading -/

/-- The natural number that a run of digits denotes. -/
def ofDigits (digits : List Char) : Nat :=
  digits.foldl (fun n c => 10 * n + (c.toNat - '0'.toNat)) 0

/-- The double nearest to `mantissa · 10 ^ exponent`. A number of more than 310 digits lies above
all doubles and one below `10 ^ -330` rounds to zero, so no larger power of ten is ever formed. -/
def nearest (mantissa : Nat) (exponent : Int) : Float :=
  let magnitude := (digitCount mantissa : Int) + exponent
  if mantissa = 0 ∨ magnitude < -330 then 0
  else if 310 < magnitude then 1 / 0
  else match exponent with
    | .ofNat e => Float.ofScientific mantissa false e
    | .negSucc e => Float.ofScientific mantissa true (e + 1)

/-- The exponent part of a number, or zero when there is none. -/
def readExponent? : List Char → Option Int
  | [] => some 0
  | mark :: rest =>
    if mark ≠ 'e' ∧ mark ≠ 'E' then none
    else
      let (negative, digits) := match rest with
        | '-' :: digits => (true, digits)
        | '+' :: digits => (false, digits)
        | digits => (false, digits)
      if digits.isEmpty || !digits.all Char.isDigit then none
      else if negative then some (-(ofDigits digits : Int))
      else some (ofDigits digits)

/-- A number without a sign. -/
def readMagnitude? (text : List Char) : Option Float :=
  let word := text.map Char.toLower
  if word = "inf".toList ∨ word = "infinity".toList then some (1 / 0)
  else if word = "nan".toList then some (0 / 0)
  else
    let whole := text.takeWhile Char.isDigit
    let (fraction, rest) := match text.dropWhile Char.isDigit with
      | '.' :: rest => (rest.takeWhile Char.isDigit, rest.dropWhile Char.isDigit)
      | rest => ([], rest)
    if whole.isEmpty && fraction.isEmpty then none
    else (readExponent? rest).map fun exponent =>
      nearest (ofDigits (whole ++ fraction)) (exponent - fraction.length)

/-- The number that a text denotes, if it denotes one. -/
def read? (text : String) : Option Float :=
  match text.toList with
  | '-' :: rest => (readMagnitude? rest).map fun x => -x
  | '+' :: rest => readMagnitude? rest
  | rest => readMagnitude? rest

end ArrayScript.Decimal
