import ArrayScript.Decimal.Notation
import ArrayScript.Proofs.Rounding
import Mathlib.Tactic.Ring

/-!
# `ArrayScript.Proofs.Nearest`: reading yields the nearest double

A number in scientific notation is read by one exact product or quotient, which is rounded once. If
its digits and its power of ten are small, both are doubles themselves (`Exactly`).

* `Binary.nearest_toFloat`: if `n · 10 ^ e` rounds to a positive double, then it is read as that
  double.
-/

set_option autoImplicit false

namespace ArrayScript.Decimal.Binary

open Float.Model Float.Model.UnpackedFloat

/-- The unpacked form of a positive number, without the case distinction between zero and the rest.
The results of the arithmetic below are compared with it, and they come as finite numbers with a
proof that they are positive. -/
theorem unpacked_of_pos {b : Binary} (hpos : 0 < b.mantissa) (hsign : b.negative = false) :
    b.unpacked = .finite .positive b.mantissa b.exponent hpos := by
  unfold unpacked sign
  rw [dif_neg hpos.ne', hsign]
  rfl

/-! ### Normal doubles -/

/-- The number `n · 2 ^ e` with its mantissa shifted up to fifty-three bits. Conversions from whole
numbers and the table of powers of ten both yield numbers in this form. -/
def normalized (n : Nat) (e : Int) : Binary :=
  ⟨false, n <<< (52 - n.log2), e - (52 - n.log2 : Nat)⟩

/-- Shifting the mantissa up and lowering the exponent by as much leaves the value as it is. Hence
the normal form of a small whole number stands for that very number. -/
theorem value_normalized (n : Nat) (e : Int) : (normalized n e).value = n * 2 ^ e := by
  unfold value normalized
  dsimp only
  rw [Nat.shiftLeft_eq, zpow_sub₀ (by norm_num), zpow_natCast]
  push_cast
  field_simp

section

variable {n : Nat} (hpos : 0 < n)
include hpos

/-- The mantissa of a normal form has its leading bit in place, whatever the number was.
Multiplication rounds right only if it is given enough bits, and this is where they come from. -/
theorem normal_normalized (e : Int) : 2 ^ 52 ≤ (normalized n e).mantissa := by
  unfold normalized
  dsimp only
  rw [Nat.shiftLeft_eq]
  calc 2 ^ 52 ≤ 2 ^ (n.log2 + (52 - n.log2)) := Nat.pow_le_pow_right (by decide) (by omega)
    _ = 2 ^ n.log2 * 2 ^ (52 - n.log2) := Nat.pow_add ..
    _ ≤ n * 2 ^ (52 - n.log2) := Nat.mul_le_mul_right _ (Nat.log2_self_le hpos.ne')

variable (hlt : n < 2 ^ 53)
include hlt

/-- The normal form of a number that fits into the mantissa has the parts of a double, if its
exponent is in range. The range allows for the shift, which lowers the exponent by up to fifty-two.
-/
theorem canonical_normalized {e : Int} (hleast : -1022 ≤ e) (hgreatest : e ≤ 971) :
    (normalized n e).Canonical := by
  have hlog := (Nat.log2_lt hpos.ne').2 hlt
  refine ⟨?_, ?_, ?_, .inl (normal_normalized hpos e)⟩ <;> unfold normalized <;> dsimp only
  · rw [Nat.shiftLeft_eq]
    calc n * 2 ^ (52 - n.log2) < 2 ^ (n.log2 + 1) * 2 ^ (52 - n.log2) :=
          Nat.mul_lt_mul_of_pos_right Nat.lt_log2_self (Nat.two_pow_pos _)
      _ = 2 ^ 53 := by rw [← Nat.pow_add]; congr 1; omega
  · omega
  · omega

/-- A natural number that fits into the mantissa is converted to its normal form. The conversion
rounds like everything else, but here there is nothing to round away, so it is exact. -/
theorem ofNat_unpacked : UnpackedFloat.ofNat Format.binary64 n = (normalized n 0).unpacked := by
  have hcanonical := canonical_normalized (e := 0) hpos hlt (by decide) (by decide)
  have hnormal := normal_normalized hpos 0
  have hlog := (Nat.log2_lt hpos.ne').2 hlt
  have hshift : (0 - target n 0).toNat = 52 - n.log2 := by
    unfold target
    omega
  have hgt : compare (n : Int) 0 = .gt := Int.compare_eq_gt.2 (by omega)
  have hexact : Accurate (normalized n 0).mantissa .exact
      ((normalized n 0).value / 2 ^ (normalized n 0).exponent) := value_div _
  unfold UnpackedFloat.ofNat UnpackedFloat.ofInt UnpackedFloat.normalize
  rw [hgt, unpacked_of_pos (by omega) rfl]
  show UnpackedFloat.round Format.binary64 .positive n 0 = _
  unfold UnpackedFloat.round decreaseExponent
  rw [targetExponent_totalExponent]
  show roundWithAccuracy Format.binary64 .positive (n <<< (0 - target n 0).toNat)
    (0 - ((0 - target n 0).toNat : Int)) .exact = _
  rw [hshift]
  exact roundWithAccuracy_eq hcanonical (by omega) (rounds_value _) hexact (.inl hnormal)

end

/-! ### Exact operands -/

/-- A double is normal, and its value is exactly a given one. Products and quotients of such
operands are rounded once, so their result is known as soon as it is known what the exact value
rounds to. -/
def Exactly (x : Float) (v : ℚ) : Prop :=
  ∃ (m : Nat) (e : Int) (h : 0 < m),
    x.toModel.unpack = .finite .positive m e h ∧ 2 ^ 52 ≤ m ∧ v = m * 2 ^ e

/-- A normal form has exactly the value that it was made from. Both kinds of exact operand below,
the digits and the power of ten, are instances of it. -/
theorem exactly_normalized {n : Nat} {e : Int} (hpos : 0 < n) (hlt : n < 2 ^ 53)
    (hleast : -1022 ≤ e) (hgreatest : e ≤ 971) :
    Exactly (normalized n e).toFloat (n * 2 ^ e) := by
  have hnormal := normal_normalized hpos e
  refine ⟨_, _, by omega, ?_, hnormal, (value_normalized n e).symm⟩
  rw [unpack_toFloat (canonical_normalized hpos hlt hleast hgreatest),
    unpacked_of_pos (by omega) rfl]

/-- A whole number below 2 ^ 53 is converted exactly. It is what the digits of a number are when the
fast way of reading applies. -/
theorem exactly_natural {n : Nat} (hpos : 0 < n) (hlt : n < 2 ^ 53) :
    Exactly n.toUInt64.toFloat n := by
  have hfloat : n.toUInt64.toFloat = (normalized n 0).toFloat := by
    rw [toFloat_eq (canonical_normalized hpos hlt (by decide) (by decide)),
      ← ofNat_unpacked hpos hlt]
    show Float.ofModel (Float.Model.pack (UnpackedFloat.ofNat _ n.toUInt64.toNat)) = _
    rw [show n.toUInt64.toNat = n from UInt64.toNat_ofNat_of_lt (hlt.trans (by decide))]
  have hexact := exactly_normalized (e := 0) hpos hlt (by decide) (by decide)
  rwa [← hfloat, zpow_zero, mul_one] at hexact

/-- The table of powers of ten holds them exactly, as the powers of five fit into the mantissa.
There are only twenty-three of them, so the table is compared entry by entry. -/
theorem powersOfTen_eq : ∀ e : Fin 23,
    Float.exactlyRepresentablePowersOfTen[e] = (normalized (5 ^ e.val) e.val).toFloat := by
  decide +kernel

/-- Each power of ten in the table is exact: 10 ^ e is 5 ^ e shifted by e bits, and up to the last
entry 5 ^ e is less than 2 ^ 53. It is the other operand of the fast way of reading. -/
theorem exactly_powerOfTen {e : Nat} (h : e < Float.exactlyRepresentablePowersOfTen.size) :
    Exactly Float.exactlyRepresentablePowersOfTen[e] (10 ^ e) := by
  have he : e < 23 := h
  have hlt : 5 ^ e < 2 ^ 53 := calc
    5 ^ e ≤ 5 ^ 22 := Nat.pow_le_pow_right (by decide) (by omega)
    _ < 2 ^ 53 := by decide
  have hten : ((5 ^ e : Nat) : ℚ) * 2 ^ (e : Int) = 10 ^ e := by
    rw [zpow_natCast]
    push_cast
    rw [← mul_pow]
    norm_num
  have hexact := exactly_normalized (e := e) (Nat.pow_pos (by decide)) hlt (by omega) (by omega)
  rw [hten, ← powersOfTen_eq ⟨e, he⟩] at hexact
  exact hexact

/-! ### Scientific notation -/

/-- The powers of ten that lie just outside the range of doubles. The greatest double is less than
10 ^ 309, and half of the least positive one is greater than 10 ^ -324. -/
theorem two_pow_lt_ten_pow :
    (2 : ℚ) ^ (1024 : Int) < 10 ^ (309 : Int) ∧ (2 : ℚ) ^ (1075 : Int) < 10 ^ (324 : Int) := by
  have hlarge : 2 ^ 1024 < 10 ^ 309 := by decide +kernel
  have hsmall : 2 ^ 1075 < 10 ^ 324 := by decide +kernel
  exact ⟨by exact_mod_cast hlarge, by exact_mod_cast hsmall⟩

section

variable {b : Binary} (hb : b.Canonical) (hpos : 0 < b.mantissa)
include hb hpos

/-- A value that rounds to a positive double lies strictly between 10 ^ -324 and 10 ^ 309. Powers of
ten are needed here rather than powers of two, because reading gives up early by counting decimal
digits. -/
theorem Rounds.ten_zpow {v : ℚ} (hv : b.Rounds v) :
    (10 : ℚ) ^ (-324 : Int) < v ∧ v < 10 ^ (309 : Int) := by
  have hleast := hb.least
  have hgreatest := hb.greatest
  constructor
  · calc (10 : ℚ) ^ (-324 : Int) < 2 ^ (-1075 : Int) := by
          rw [zpow_neg, zpow_neg]
          exact inv_strictAnti₀ (by positivity) two_pow_lt_ten_pow.2
      _ ≤ 2 ^ (-1 + b.exponent) := zpow_le_zpow_right₀ (by norm_num) (by omega)
      _ ≤ v := hv.two_zpow_le hpos
  · calc v < 2 ^ (53 + b.exponent) := hv.lt_two_zpow hb
      _ ≤ 2 ^ (1024 : Int) := zpow_le_zpow_right₀ (by norm_num) (by omega)
      _ < 10 ^ (309 : Int) := two_pow_lt_ten_pow.1

/-- Bounds on the digits of a number that rounds to a double give bounds on its power of ten. They
show that none of the shortcuts for hopelessly large or small numbers is taken when the result is a
positive double. -/
theorem Rounds.exponent_bounds {n : Nat} {e : Int} (hv : b.Rounds (n * 10 ^ e)) (d : Nat) :
    n ≠ 0 ∧ (10 ^ d ≤ n → d + e < 309) ∧ (n ≤ 10 ^ d → -324 < d + e) := by
  obtain ⟨hlow, hhigh⟩ := hv.ten_zpow hb hpos
  have hten : (1 : ℚ) < 10 := by norm_num
  refine ⟨?_, ?_, ?_⟩
  · rintro rfl
    rw [Nat.cast_zero, zero_mul] at hlow
    exact absurd hlow (not_lt.2 (by positivity))
  · intro hd
    have hd' : (10 : ℚ) ^ d ≤ n := by exact_mod_cast hd
    refine (zpow_lt_zpow_iff_right₀ hten).1 (lt_of_le_of_lt ?_ hhigh)
    rw [zpow_add₀ (by norm_num), zpow_natCast]
    gcongr
  · intro hd
    have hd' : (n : ℚ) ≤ 10 ^ d := by exact_mod_cast hd
    refine (zpow_lt_zpow_iff_right₀ hten).1 (lt_of_lt_of_le hlow ?_)
    rw [zpow_add₀ (by norm_num), zpow_natCast]
    gcongr

/-- The exact way of reading: a number that rounds to a positive double is turned into that double
by one product or one quotient of whole numbers. Which of the two it is depends on the sign of the
power of ten. -/
theorem ofScientific_unpacked {n : Nat} {e : Int} (hv : b.Rounds (n * 10 ^ e)) :
    UnpackedFloat.ofScientific Format.binary64 n e
      = .finite .positive b.mantissa b.exponent hpos := by
  obtain ⟨hn, hupper, -⟩ := hv.exponent_bounds hb hpos 0
  obtain ⟨-, -, hlower⟩ := hv.exponent_bounds hb hpos (n.log2 + 1)
  have hlog : n ≤ 10 ^ (n.log2 + 1) := calc
    n ≤ 2 ^ (n.log2 + 1) := Nat.lt_log2_self.le
    _ ≤ 10 ^ (n.log2 + 1) := Nat.pow_le_pow_left (by decide) _
  replace hupper := hupper (by rw [Nat.pow_zero]; omega)
  replace hlower := hlower hlog
  -- The power of ten is not so large or small that the digits are never looked at.
  have hlarge : ¬ e > 2 ^ Format.binary64.exponentBits := by
    show ¬ e > 2 ^ 11
    omega
  have hsmall : ¬ e < -((2 ^ Format.binary64.exponentBits : Int) + n.log2) := by
    show ¬ e < -(2 ^ 11 + (n.log2 : Int))
    omega
  unfold UnpackedFloat.ofScientific
  rw [dif_neg hn, if_neg hlarge, if_neg hsmall]
  by_cases he : 0 ≤ e
  · obtain ⟨k, rfl⟩ := Int.eq_ofNat_of_zero_le he
    rw [if_pos he]
    refine mul_eq hb hpos ?_ hv ?_
    · rw [show Format.binary64.mantissaBits = 53 from rfl, Nat.shiftLeft_eq, Int.toNat_natCast,
        zpow_neg]
      push_cast
      norm_num
      ring
    · show 2 ^ 52 ≤ n <<< 53 * 10 ^ k
      rw [Nat.shiftLeft_eq]
      calc 2 ^ 52 ≤ n * 2 ^ 53 := by omega
        _ ≤ n * 2 ^ 53 * 10 ^ k := Nat.le_mul_of_pos_right _ (Nat.pow_pos (by decide))
  · obtain ⟨k, hk⟩ := Int.eq_ofNat_of_zero_le (by omega : 0 ≤ -e)
    rw [if_neg he]
    refine div_eq hb hpos ?_ hv
    rw [show e = -k by omega, neg_neg, Int.toNat_natCast, zpow_neg]
    push_cast
    simp
    rfl

variable (hsign : b.negative = false)
include hsign

/-- The product of two exact operands is the double that their exact product rounds to. This is the
fast way of reading a number whose power of ten is not negative. -/
theorem mul_toFloat {x y : Float} {v w : ℚ} (hx : Exactly x v) (hy : Exactly y w)
    (hv : b.Rounds (v * w)) : x * y = b.toFloat := by
  obtain ⟨m, e, hm, hx, hnormal, rfl⟩ := hx
  obtain ⟨m', e', hm', hy, -, rfl⟩ := hy
  rw [toFloat_eq hb, unpacked_of_pos hpos hsign]
  show Float.ofModel (Float.Model.pack (mul _ x.toModel.unpack y.toModel.unpack)) = _
  rw [hx, hy, mul_eq hb hpos rfl hv (hnormal.trans (Nat.le_mul_of_pos_right m hm'))]

/-- The quotient of two exact operands is the double that their exact quotient rounds to. This is
the fast way of reading a number whose power of ten is negative. -/
theorem div_toFloat {x y : Float} {v w : ℚ} (hx : Exactly x v) (hy : Exactly y w)
    (hv : b.Rounds (v / w)) : x / y = b.toFloat := by
  obtain ⟨m, e, hm, hx, -, rfl⟩ := hx
  obtain ⟨m', e', hm', hy, -, rfl⟩ := hy
  rw [toFloat_eq hb, unpacked_of_pos hpos hsign]
  show Float.ofModel (Float.Model.pack (div _ x.toModel.unpack y.toModel.unpack)) = _
  rw [hx, hy, div_eq hb hpos rfl hv]

/-- A number that rounds to a positive double is read as that double in both ways. Small operands
are multiplied or divided as doubles, all others as exact numbers, and the two agree because each
rounds only once. -/
theorem ofScientific_toFloat {n e : Nat} {small : Bool}
    (hv : b.Rounds (n * 10 ^ (if small then -(e : Int) else e))) :
    Float.ofScientific n small e = b.toFloat := by
  have hn := (hv.exponent_bounds hb hpos 0).1
  unfold Float.ofScientific
  by_cases hfast : n < 2 ^ 53 ∧ e ≤ 22
  · have hten := exactly_powerOfTen (e := e) (Nat.lt_succ_of_le hfast.2)
    have hnatural := exactly_natural (Nat.pos_of_ne_zero hn) hfast.1
    rw [dif_pos hfast]
    cases small with
    | true =>
      apply div_toFloat hb hpos hsign hnatural hten
      simpa [zpow_neg, div_eq_mul_inv] using hv
    | false =>
      apply mul_toFloat hb hpos hsign hnatural hten
      simpa using hv
  · have hexponent : (if small then Int.negOfNat e else Int.ofNat e)
        = if small then -(e : Int) else e := by
      cases small <;> simp [Int.negOfNat_eq]
    rw [dif_neg hfast, hexponent, toFloat_eq hb, unpacked_of_pos hpos hsign,
      ← ofScientific_unpacked hb hpos hv]
    rfl

omit hb hpos hsign in
/-- A number with d digits lies between 10 ^ (d - 1) and 10 ^ d. It turns the bounds on powers of
ten into bounds on the number of digits, which is what reading looks at first. -/
theorem digitCount_bounds {n : Nat} (hn : n ≠ 0) :
    0 < digitCount n ∧ n < 10 ^ digitCount n ∧ 10 ^ (digitCount n - 1) ≤ n := by
  have hcount : 0 < digitCount n := Nat.length_toDigits_pos
  refine ⟨hcount, (Nat.length_toDigits_le_iff (by decide) hcount).1 (Nat.le_refl _), ?_⟩
  by_cases hone : digitCount n = 1
  · rw [hone]
    omega
  · apply Nat.le_of_not_lt
    intro hlt
    have : digitCount n ≤ digitCount n - 1 :=
      (Nat.length_toDigits_le_iff (by decide) (by omega)).2 hlt
    omega

/-- A number that rounds to a positive double is read as that double. It is the statement through
which numerals are related to their values: to know what is read, it is enough to know what the
value rounds to. -/
theorem nearest_toFloat {n : Nat} {e : Int} (hv : b.Rounds (n * 10 ^ e)) :
    nearest n e = b.toFloat := by
  obtain ⟨hn, -, hlow⟩ := hv.exponent_bounds hb hpos (digitCount n)
  obtain ⟨-, hhigh, -⟩ := hv.exponent_bounds hb hpos (digitCount n - 1)
  obtain ⟨hcount, hlt, hge⟩ := digitCount_bounds hn
  replace hlow := hlow hlt.le
  replace hhigh := hhigh hge
  unfold nearest
  dsimp only
  rw [if_neg (by omega), if_neg (by omega)]
  cases e with
  | ofNat e => exact ofScientific_toFloat hb hpos hsign hv
  | negSucc e => exact ofScientific_toFloat hb hpos hsign hv

end

end ArrayScript.Decimal.Binary
