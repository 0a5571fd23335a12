import ArrayScript.Proofs.Double
import Mathlib.Algebra.Order.Field.Basic
import Mathlib.Algebra.Order.Field.Power
import Mathlib.Algebra.Order.Field.Rat
import Mathlib.Tactic.FieldSimp
import Mathlib.Tactic.Linarith

/-!
# `ArrayScript.Proofs.Rounding`: arithmetic yields the nearest double

Products and quotients of doubles are computed exactly and rounded once. The rounding is given a
mantissa that is cut off, and two bits about what was cut. This file says what these bits mean for
the exact number (`Accurate`), which numbers round to a double (`Binary.Rounds`), and that every
number which rounds to a double is in fact rounded to it.

* `Binary.roundWithAccuracy_eq`: rounding yields the double that the number rounds to.
* `Binary.mul_eq`, `Binary.div_eq`: so do the product and the quotient of two positive numbers.
-/

set_option autoImplicit false

namespace ArrayScript.Decimal

open Float.Model Float.Model.UnpackedFloat

/-! ### What is cut off -/

/-- A number is a natural number and a fraction, and the accuracy says how the fraction compares
with zero and with a half. -/
def Accurate (m : Nat) (accuracy : Accuracy) (x : ℚ) : Prop :=
  match accuracy with
  | .exact => x = m
  | .inexact .lt => m < x ∧ x < m + 1 / 2
  | .inexact .eq => x = m + 1 / 2
  | .inexact .gt => m + 1 / 2 < x ∧ x < m + 1

/-- A natural number is nearest to a number, and if it is not the only one then it is even. -/
def NearestEven (x : ℚ) (m : Nat) : Prop :=
  m - 1 / 2 ≤ x ∧ x ≤ m + 1 / 2 ∧ (m % 2 = 1 → m - 1 / 2 < x ∧ x < m + 1 / 2)

/-- An extended mantissa holds a number as far as rounding needs it. -/
def Represents (em : ExtendedMantissa) (x : ℚ) : Prop :=
  Accurate em.mantissa em.accuracy x

/-- Whatever the accuracy is, the natural number is the whole part. Bounds on the size of a number
need no more than this. -/
theorem Accurate.le_lt {m : Nat} {a : Accuracy} {x : ℚ} (h : Accurate m a x) :
    m ≤ x ∧ x < m + 1 := by
  rcases a with _ | (_ | _ | _) <;> simp only [Accurate] at h <;> constructor <;> linarith

/-- Rounding by the accuracy yields the nearest natural number, and of two the even one. The
accuracy holds just what is needed to decide between the two candidates. -/
theorem roundToNearestEven_eq {m n : Nat} {a : Accuracy} {x : ℚ} (h : Accurate m a x)
    (hn : NearestEven x n) : a.roundToNearestEven m = n := by
  obtain ⟨hlow, hhigh, hodd⟩ := hn
  obtain ⟨hle, hlt⟩ := h.le_lt
  have hnear : n = m ∨ n = m + 1 := by
    have hlt : (n : ℚ) < (m + 2 : Nat) := by push_cast; linarith
    have hgt : (m : ℚ) < (n + 1 : Nat) := by push_cast; linarith
    rw [Nat.cast_lt] at hlt hgt
    omega
  -- An odd neighbour is ruled out only where the number lies halfway.
  have heven : x = m + 1 / 2 → n % 2 = 0 := by
    intro hx
    by_contra hmod
    have hstrict := hodd (by omega)
    rcases hnear with rfl | rfl <;> push_cast at hstrict <;> linarith
  rcases a with _ | (_ | _ | _) <;> simp only [Accurate, Accuracy.roundToNearestEven] at h ⊢
  · rcases hnear with rfl | rfl
    · rfl
    · push_cast at hlow
      linarith
  · rcases hnear with rfl | rfl
    · rfl
    · push_cast at hlow
      linarith
  · have := heven h
    omega
  · rcases hnear with rfl | rfl
    · linarith
    · rfl

/-- Extending a mantissa by two bits loses nothing of its accuracy: one bit says whether there is
half a unit, the other whether there is anything below. -/
theorem represents_ofMantissaAndAccuracy {m : Nat} {a : Accuracy} {x : ℚ} (h : Accurate m a x) :
    Represents (.ofMantissaAndAccuracy m a) x := by
  rcases a with _ | (_ | _ | _) <;> exact h

/-- Shifting by one bit halves the number. -/
theorem Represents.shiftRightOne {em : ExtendedMantissa} {x : ℚ} (h : Represents em x) :
    Represents em.shiftRightOne (x / 2) := by
  obtain ⟨m, roundBit, stickyBit⟩ := em
  have hhalves : (m : ℚ) = 2 * (m / 2 : Nat) + (m % 2 : Nat) := by
    exact_mod_cast (Nat.div_add_mod m 2).symm
  rcases Nat.mod_two_eq_zero_or_one m with hmod | hmod <;> cases roundBit <;> cases stickyBit <;>
    simp only [Represents, Accurate, ExtendedMantissa.accuracy, ExtendedMantissa.shiftRightOne,
      hmod, hhalves, Nat.cast_zero, Nat.cast_one] at h ⊢ <;>
    (try constructor) <;> simp at * <;> linarith

/-- An extended mantissa still holds the number after a shift by any amount, since it does after a
shift by one. The lower of its two bits collects what falls off at the end. -/
theorem Represents.shiftRight {em : ExtendedMantissa} {x : ℚ} (h : Represents em x) (n : Nat) :
    Represents (em >>> n) (x / 2 ^ n) := by
  show Represents (n.repeat ExtendedMantissa.shiftRightOne em) _
  induction n with
  | zero => simpa [Nat.repeat] using h
  | succ n ih =>
    rw [pow_succ, ← div_div]
    exact ih.shiftRightOne

/-! ### Powers of two -/

/-- A lower bound on a number in units of a power of two is one on the number itself. Exponents are
compared in this form. -/
theorem two_zpow_le_div_iff {v : ℚ} {k e : Int} : (2 : ℚ) ^ k ≤ v / 2 ^ e ↔ 2 ^ (k + e) ≤ v := by
  rw [le_div_iff₀ (by positivity), ← zpow_add₀ (by norm_num)]

/-- An upper bound on a number in units of a power of two is one on the number itself. -/
theorem div_lt_two_zpow_iff {v : ℚ} {k e : Int} : v / 2 ^ e < (2 : ℚ) ^ k ↔ v < 2 ^ (k + e) := by
  rw [div_lt_iff₀ (by positivity), ← zpow_add₀ (by norm_num)]

/-- Powers of two are ordered as their exponents are. The bounds on a number become bounds on its
exponent by this. -/
theorem lt_of_two_zpow_lt {k l : Int} (h : (2 : ℚ) ^ k < 2 ^ l) : k < l :=
  (zpow_lt_zpow_iff_right₀ (by norm_num)).1 h

/-! ### The exponent that is shifted to -/

/-- The exponent that a number is shifted to before it is rounded: the mantissa keeps fifty-three
bits, or fewer if the exponent would be too small. -/
def target (m : Nat) (e : Int) : Int :=
  max (m.log2 + e - 52) (-1074)

/-- The exponent that the format asks for, with the constants of doubles put in. -/
theorem targetExponent_eq (total : Int) :
    Format.binary64.targetExponent total = max (total - 53) (-1074) := by
  unfold Format.targetExponent
  rw [show (Format.binary64.mantissaBits : Int) = 53 from rfl,
    show Format.binary64.minExponent = -1074 from rfl]

/-- The exponent that the format asks for depends on the length of the mantissa only, and it is the
one described above. -/
theorem targetExponent_totalExponent (m : Nat) (e : Int) :
    Format.binary64.targetExponent (totalExponent m e) = target m e := by
  rw [targetExponent_eq]
  unfold totalExponent target
  omega

/-- Shifting to the exponent that is asked for, when that is not the smaller one. Numbers with
enough bits are always in this case, so the mantissa is never padded with zeros. -/
theorem shiftToTargetExponent_eq {m k : Nat} {e : Int} (a : Accuracy) (h : target m e = e + k) :
    shiftToTargetExponent Format.binary64 m e a
      = (ExtendedMantissa.ofMantissaAndAccuracy m a >>> k, e + k) := by
  have hk : (e + k - e).toNat = k := by omega
  unfold shiftToTargetExponent shiftToExponent
  rw [targetExponent_totalExponent, h]
  simp only [hk]

section

variable {m : Nat} {e : Int} {a : Accuracy} {v : ℚ} (h : Accurate m a (v / 2 ^ e))
include h

/-- Shifting keeps what is known of a number that has enough bits. -/
theorem represents_shiftToTargetExponent (hfine : 2 ^ 52 ≤ m ∨ e ≤ -1074) :
    (shiftToTargetExponent Format.binary64 m e a).2 = target m e
      ∧ Represents (shiftToTargetExponent Format.binary64 m e a).1 (v / 2 ^ target m e) := by
  have hle : e ≤ target m e := by
    unfold target
    rcases hfine with hm | he
    · have := (Nat.le_log2 (by omega)).2 hm
      omega
    · omega
  obtain ⟨k, hk⟩ := Int.le.dest hle
  rw [shiftToTargetExponent_eq a hk.symm, ← hk, zpow_add₀ (by norm_num), zpow_natCast, ← div_div]
  exact ⟨rfl, (represents_ofMantissaAndAccuracy h).shiftRight k⟩

/-- A number that is not too small is shifted to an exponent that is not too small. It bounds the
exponent from below by that of the double which the number rounds to. -/
theorem le_target {k : Int} (hk : (2 : ℚ) ^ (52 + k) ≤ v) : k ≤ target m e := by
  have hlog : ((m + 1 : Nat) : ℚ) ≤ (2 ^ (m.log2 + 1) : Nat) := by
    exact_mod_cast Nat.lt_log2_self
  have hv : v < 2 ^ ((m.log2 + 1 : Nat) + e) := by
    rw [← div_lt_two_zpow_iff, zpow_natCast]
    push_cast at hlog
    linarith [h.le_lt.2]
  have := lt_of_two_zpow_lt (hk.trans_lt hv)
  unfold target
  omega

/-- A number that is not too large is shifted to an exponent that is not too large. With the lemma
before, the exponent is found to be that of the double. -/
theorem target_le (hfine : 2 ^ 52 ≤ m ∨ e ≤ -1074) {k : Int} (hk : v < (2 : ℚ) ^ (53 + k))
    (hleast : -1074 ≤ k) : target m e ≤ k := by
  unfold target
  by_cases hm : m = 0
  · subst hm
    have : Nat.log2 0 = 0 := by decide
    omega
  · have hlog : ((2 ^ m.log2 : Nat) : ℚ) ≤ m := by exact_mod_cast Nat.log2_self_le hm
    have hv : (2 : ℚ) ^ (m.log2 + e) ≤ v := by
      rw [← two_zpow_le_div_iff, zpow_natCast]
      push_cast at hlog
      linarith [h.le_lt.1]
    have := lt_of_two_zpow_lt (hv.trans_lt hk)
    omega

end

/-! ### Numbers that round to a double -/

namespace Binary

/-- The doubles with a closer neighbour below are the powers of two, except for the least normal
one. Numbers below such a double round to it from a quarter of a unit only. -/
theorem narrowBelow_iff {b : Binary} :
    b.narrowBelow = true ↔ b.mantissa = 2 ^ 52 ∧ -1074 < b.exponent := by
  unfold narrowBelow
  rw [Bool.and_eq_true, beq_iff_eq, decide_eq_true_iff]
  rfl

/-- A number rounds to a double if, in units of the last place, the mantissa is the nearest natural
number. Where the double below has the smaller unit, the number is at most a quarter below. -/
structure Rounds (b : Binary) (v : ℚ) : Prop where
  nearest : NearestEven (v / 2 ^ b.exponent) b.mantissa
  narrow : b.narrowBelow = true → b.mantissa - 1 / 4 ≤ v / 2 ^ b.exponent

/-- The magnitude of the parts. -/
def value (b : Binary) : ℚ :=
  b.mantissa * 2 ^ b.exponent

/-- The value of a double in units of its last place is its mantissa. -/
theorem value_div (b : Binary) : b.value / 2 ^ b.exponent = b.mantissa := by
  unfold value
  field_simp

/-- Every double rounds to itself. -/
theorem rounds_value (b : Binary) : b.Rounds b.value := by
  constructor
  · unfold NearestEven
    rw [b.value_div]
    exact ⟨by linarith, by linarith, fun _ => ⟨by linarith, by linarith⟩⟩
  · intro _
    rw [b.value_div]
    linarith

section

variable {b : Binary} (hb : b.Canonical) (hpos : 0 < b.mantissa)
include hb

/-- A number that rounds to a double is less than the next power of two, or it would round to that
one. So its exponent is not greater than that of the double. -/
theorem Rounds.lt_two_zpow {v : ℚ} (hv : b.Rounds v) : v < 2 ^ (53 + b.exponent) := by
  have hmantissa : (b.mantissa : ℚ) ≤ 9007199254740991 := by
    exact_mod_cast Nat.le_of_lt_succ hb.lt
  rw [← div_lt_two_zpow_iff]
  norm_num1
  linarith [hv.nearest.2.1]

omit hb in
include hpos in
/-- A number that rounds to a positive double is at least half of the last place of the double,
whatever the double is. -/
theorem Rounds.two_zpow_le {v : ℚ} (hv : b.Rounds v) : (2 : ℚ) ^ (-1 + b.exponent) ≤ v := by
  have hmantissa : (1 : ℚ) ≤ b.mantissa := by exact_mod_cast hpos
  rw [← two_zpow_le_div_iff]
  norm_num1
  linarith [hv.nearest.1]

/-- A number that is too small for the exponent of the double that it rounds to lies below the first
double of this exponent. -/
theorem Rounds.mantissa_eq {v : ℚ} (hv : b.Rounds v)
    (hless : v / 2 ^ b.exponent < (2 : ℚ) ^ (52 : Int)) (hexponent : b.exponent ≠ -1074) :
    b.mantissa = 2 ^ 52 := by
  norm_num1 at hless
  have hlt : (b.mantissa : ℚ) < (4503599627370497 : Nat) := by
    push_cast
    linarith [hv.nearest.1]
  have hnormal := hb.normal
  rw [Nat.cast_lt] at hlt
  omega

omit hb in
/-- In the smaller unit below the first double of an exponent, the nearest natural number is the
double of the mantissa. -/
theorem Rounds.nearestEven_below {v : ℚ} (hv : b.Rounds v)
    (hless : v / 2 ^ b.exponent < (2 : ℚ) ^ (52 : Int)) (hnarrow : b.narrowBelow = true) :
    NearestEven (v / 2 ^ (b.exponent - 1)) (2 ^ 53) := by
  have hquarter := hv.narrow hnarrow
  have hdouble : v / 2 ^ (b.exponent - 1) = 2 * (v / 2 ^ b.exponent) := by
    rw [zpow_sub₀ (by norm_num)]
    field_simp
  rw [(narrowBelow_iff.1 hnarrow).1] at hquarter
  norm_num1 at hless hquarter
  unfold NearestEven
  rw [hdouble]
  norm_num
  constructor <;> linarith

/-- A number that rounds to a double is shifted to the exponent of the double, or to the one below
if it lies below a double that is the first of its exponent. -/
theorem Rounds.target_eq {v : ℚ} (hv : b.Rounds v) {m : Nat} {e : Int} {a : Accuracy}
    (h : Accurate m a (v / 2 ^ e)) (hfine : 2 ^ 52 ≤ m ∨ e ≤ -1074) :
    target m e = b.exponent ∨ target m e = b.exponent - 1 ∧ b.mantissa = 2 ^ 52
      ∧ NearestEven (v / 2 ^ (b.exponent - 1)) (2 ^ 53) := by
  have hle : target m e ≤ b.exponent := target_le h hfine (hv.lt_two_zpow hb) hb.least
  have hge : -1074 ≤ target m e := le_max_right ..
  have hleast := hb.least
  by_cases hexponent : b.exponent = -1074
  · left
    omega
  by_cases hx : (2 : ℚ) ^ (52 : Int) ≤ v / 2 ^ b.exponent
  · left
    have := le_target h (two_zpow_le_div_iff.1 hx)
    omega
  right
  rw [not_le] at hx
  have hmantissa := hv.mantissa_eq hb hx hexponent
  have hnarrow := narrowBelow_iff.2 ⟨hmantissa, by omega⟩
  -- The number is at most a quarter below the double, so the exponent falls by one and no further.
  have hless : v < 2 ^ (53 + (b.exponent - 1)) := by
    rw [show 53 + (b.exponent - 1) = 52 + b.exponent by omega]
    exact div_lt_two_zpow_iff.1 hx
  have hmore : (2 : ℚ) ^ (52 + (b.exponent - 1)) ≤ v := by
    have hquarter := hv.narrow hnarrow
    rw [hmantissa] at hquarter
    rw [show 52 + (b.exponent - 1) = 51 + b.exponent by omega, ← two_zpow_le_div_iff]
    norm_num1 at hquarter ⊢
    linarith
  have hupper := target_le h hfine hless (by omega)
  have hlower := le_target h hmore
  exact ⟨by omega, hmantissa, hv.nearestEven_below hx hnarrow⟩

include hpos in
/-- The parts of a double need no shift: after rounding, the second shift does nothing unless the
mantissa has overflowed. -/
theorem shift_canonical :
    shiftToTargetExponent Format.binary64 b.mantissa b.exponent .exact
      = (⟨b.mantissa, false, false⟩, b.exponent) := by
  obtain ⟨hlt, hleast, -, hnormal⟩ := hb
  have hupper := (Nat.log2_lt hpos.ne').2 hlt
  have hlower := @Nat.le_log2 b.mantissa 52 hpos.ne'
  rw [shiftToTargetExponent_eq (k := 0) _ (by unfold target; omega), Int.ofNat_zero, Int.add_zero]
  rfl

omit hb in
/-- A mantissa that became too large by rounding is shifted once more. -/
theorem shift_carry {e : Int} (he : -1074 ≤ e) :
    shiftToTargetExponent Format.binary64 (2 ^ 53) e .exact = (⟨2 ^ 52, false, false⟩, e + 1) := by
  have hlog : Nat.log2 (2 ^ 53) = 53 := Nat.log2_two_pow
  rw [shiftToTargetExponent_eq (k := 1) _ (by unfold target; omega)]
  rfl

/-- Rounding yields the double that the number rounds to. -/
theorem roundWithAccuracy_eq {v : ℚ} (hv : b.Rounds v) {s : Sign} {m : Nat} {e : Int} {a : Accuracy}
    (h : Accurate m a (v / 2 ^ e)) (hfine : 2 ^ 52 ≤ m ∨ e ≤ -1074) :
    roundWithAccuracy Format.binary64 s m e a = .finite s b.mantissa b.exponent hpos := by
  obtain ⟨hexponent, hrepresents⟩ := represents_shiftToTargetExponent h hfine
  have hleast := hb.least
  unfold roundWithAccuracy
  generalize shiftToTargetExponent Format.binary64 m e a = first at *
  obtain ⟨em, e'⟩ := first
  dsimp only at hexponent hrepresents ⊢
  rcases hv.target_eq hb h hfine with hcase | ⟨hcase, hmantissa, hnear⟩
  · rw [hcase] at hexponent hrepresents
    have hround : em.roundedMantissa = b.mantissa := roundToNearestEven_eq hrepresents hv.nearest
    rw [hround, hexponent, shift_canonical hb hpos]
    exact dif_neg hpos.ne'
  -- Below the first double of an exponent, rounding carries into a fifty-fourth bit.
  · rw [hcase] at hexponent hrepresents
    have hround : em.roundedMantissa = 2 ^ 53 := roundToNearestEven_eq hrepresents hnear
    have htarget : target m e = e' := hcase.trans hexponent.symm
    have hge : -1074 ≤ e' := htarget ▸ le_max_right ..
    rw [hround, shift_carry hge]
    dsimp only
    rw [dif_neg (by decide)]
    exact finite_congr hmantissa.symm (by omega)

/-! ### Products and quotients -/

/-- The product of two positive numbers is rounded to the double that it rounds to. -/
theorem mul_eq {m₁ m₂ : Nat} {e₁ e₂ : Int} {h₁ : 0 < m₁} {h₂ : 0 < m₂} {v : ℚ}
    (hvalue : v = m₁ * 2 ^ e₁ * (m₂ * 2 ^ e₂)) (hv : b.Rounds v) (hfine : 2 ^ 52 ≤ m₁ * m₂) :
    mul Format.binary64 (.finite .positive m₁ e₁ h₁) (.finite .positive m₂ e₂ h₂)
      = .finite .positive b.mantissa b.exponent hpos := by
  have hexact : Accurate (m₁ * m₂) .exact (v / 2 ^ (e₁ + e₂)) := by
    show v / 2 ^ (e₁ + e₂) = (m₁ * m₂ : Nat)
    rw [hvalue, zpow_add₀ (by norm_num)]
    push_cast
    field_simp
  exact roundWithAccuracy_eq hb hpos hv hexact (.inl hfine)

omit hb in
/-- The remainder of a division says how accurate its quotient is. -/
theorem accurate_div {m n : Nat} (hn : 0 < n) :
    Accurate (m / n) (accuracyOfFraction (m % n) n) (m / n : ℚ) := by
  have hn' : (0 : ℚ) < n := by exact_mod_cast hn
  have hlt : ((m % n : Nat) : ℚ) < n := by exact_mod_cast Nat.mod_lt m hn
  have hdiv : (m / n : ℚ) = (m / n : Nat) + (m % n : Nat) / n := by
    have hm : (m : ℚ) = n * (m / n : Nat) + (m % n : Nat) := by
      exact_mod_cast (Nat.div_add_mod m n).symm
    rw [div_eq_iff hn'.ne', add_mul, div_mul_cancel₀ _ hn'.ne', mul_comm, ← hm]
  -- What follows is about the fraction r / n only: it is compared with zero and with a half.
  generalize m / n = q at *
  generalize m % n = r at *
  rw [hdiv]
  unfold accuracyOfFraction
  by_cases hzero : r = 0
  · simp [Accurate, hzero]
  · rw [if_neg hzero]
    have hpositive : 0 < (r : ℚ) / n := by
      have : (0 : ℚ) < r := by exact_mod_cast Nat.pos_of_ne_zero hzero
      positivity
    have hone : (r : ℚ) / n < 1 := (div_lt_one hn').2 hlt
    rcases Nat.lt_trichotomy (2 * r) n with h | h | h
    · have hhalf : ((2 * r : Nat) : ℚ) < n := by exact_mod_cast h
      have : (r : ℚ) / n < 1 / 2 := by
        rw [div_lt_div_iff₀ hn' (by norm_num)]
        push_cast at hhalf
        linarith
      rw [Nat.compare_eq_lt.2 h]
      exact ⟨by linarith, by linarith⟩
    · have hhalf : ((2 * r : Nat) : ℚ) = n := by exact_mod_cast h
      have : (r : ℚ) / n = 1 / 2 := by
        rw [div_eq_div_iff hn'.ne' (by norm_num)]
        push_cast at hhalf
        linarith
      rw [Nat.compare_eq_eq.2 h]
      simp only [Accurate, this]
    · have hhalf : (n : ℚ) < ((2 * r : Nat) : ℚ) := by exact_mod_cast h
      have : 1 / 2 < (r : ℚ) / n := by
        rw [div_lt_div_iff₀ (by norm_num) hn']
        push_cast at hhalf
        linarith
      rw [Nat.compare_eq_gt.2 h]
      exact ⟨by linarith, by linarith⟩

/-- The quotient of two positive numbers is rounded to the double that it rounds to. -/
theorem div_eq {m₁ m₂ : Nat} {e₁ e₂ : Int} {h₁ : 0 < m₁} {h₂ : 0 < m₂} {v : ℚ}
    (hvalue : v = m₁ * 2 ^ e₁ / (m₂ * 2 ^ e₂)) (hv : b.Rounds v) :
    div Format.binary64 (.finite .positive m₁ e₁ h₁) (.finite .positive m₂ e₂ h₂)
      = .finite .positive b.mantissa b.exponent hpos := by
  have htarget : Format.binary64.targetExponent (totalExponent m₁ e₁ - totalExponent m₂ e₂)
      = max (m₁.log2 + e₁ - (m₂.log2 + e₂) - 53 : Int) (-1074) := by
    rw [targetExponent_eq]
    unfold totalExponent
    omega
  show roundWithAccuracy _ _ _ (min (e₁ - e₂) _) _ = _
  rw [htarget]
  generalize ht : min (e₁ - e₂) (max (m₁.log2 + e₁ - (m₂.log2 + e₂) - 53 : Int) (-1074)) = t
  generalize hk : (e₁ - e₂ - t).toNat = k
  have hexact : Accurate (m₁ <<< k / m₂) (accuracyOfFraction (m₁ <<< k % m₂) m₂) (v / 2 ^ t) := by
    have hquotient : v / 2 ^ t = (m₁ <<< k : Nat) / m₂ := by
      have he : e₁ = t + k + e₂ := by omega
      rw [hvalue, he, zpow_add₀ (by norm_num), zpow_add₀ (by norm_num), zpow_natCast,
        Nat.shiftLeft_eq]
      push_cast
      field_simp
    rw [hquotient]
    exact accurate_div h₂
  apply roundWithAccuracy_eq hb hpos hv hexact
  -- Either the exponent is least, or the dividend was shifted until the quotient has enough bits.
  by_cases hleast : t ≤ -1074
  · exact .inr hleast
  · left
    have hbits : m₂.log2 + 53 ≤ m₁.log2 + k := by omega
    rw [Nat.le_div_iff_mul_le h₂, Nat.shiftLeft_eq]
    calc 2 ^ 52 * m₂ ≤ 2 ^ 52 * 2 ^ (m₂.log2 + 1) := Nat.mul_le_mul_left _ Nat.lt_log2_self.le
      _ = 2 ^ (m₂.log2 + 53) := by rw [← Nat.pow_add]; congr 1; omega
      _ ≤ 2 ^ (m₁.log2 + k) := Nat.pow_le_pow_right (by decide) hbits
      _ = 2 ^ m₁.log2 * 2 ^ k := Nat.pow_add ..
      _ ≤ m₁ * 2 ^ k := Nat.mul_le_mul_right _ (Nat.log2_self_le h₁.ne')

end

end Binary

end ArrayScript.Decimal
