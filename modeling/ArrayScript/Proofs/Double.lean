import ArrayScript.Decimal.Binary
import Mathlib.Algebra.Group.Nat.Defs

/-!
# `ArrayScript.Proofs.Double`: doubles, their parts and their bits

A finite double has three views: its sixty-four bits, its parts (`Binary`), and the unpacked number
on which the arithmetic of doubles is defined. For canonical parts the three determine each other.

* `Binary.canonical_ofFloat`: the parts of a finite double are canonical.
* `Binary.toFloat_ofFloat`, `Binary.ofFloat_toFloat`: taking a finite double apart and putting
  canonical parts together are inverse to each other.
* `Binary.unpack_toFloat`: unpacking the double that has given parts yields these parts.
* `Binary.ofFloat_neg`: negation flips the sign and nothing else.
-/

set_option autoImplicit false

namespace ArrayScript.Decimal

open Float.Model Float.Model.UnpackedFloat

/-! ### Fields of a word -/

section

variable (v : BitVec Format.binary64.numBits)

/-- The mantissa field is the lowest fifty-two bits of a word. As a remainder it can be compared
with the parts of the word by linear arithmetic. -/
theorem toNat_unpackMantissa : (unpackMantissa v).toNat = v.toNat % 2 ^ 52 := by
  simp [unpackMantissa, BitVec.extractLsb_toNat]

/-- The exponent field is the eleven bits above the mantissa field. All questions about it below are
put to this quotient and remainder, never to the bits. -/
theorem toNat_unpackExponent : (unpackExponent v).toNat = v.toNat / 2 ^ 52 % 2 ^ 11 := by
  simp [unpackExponent, BitVec.extractLsb_toNat, Nat.shiftRight_eq_div_pow]

/-- The sign is the highest bit of a word. No remainder is needed for it, since a word has no bits
beyond that one. -/
theorem toNat_unpackSign : (unpackSign v).toNat = v.toNat / 2 ^ 63 := by
  have hlt : v.toNat < 2 ^ 64 := v.isLt
  show (BitVec.extractLsb 63 63 v).toNat = _
  rw [BitVec.extractLsb_toNat, Nat.shiftRight_eq_div_pow]
  omega

/-- The exponent field of the infinities and of what is no number has no zeros. The finite doubles
are hence those in which it is not 2047, and this is how finiteness enters the proofs below. -/
theorem unpackExponent_eq_iff : unpackExponent v = -1#_ ↔ v.toNat / 2 ^ 52 % 2 ^ 11 = 2047 := by
  rw [← BitVec.toNat_inj, toNat_unpackExponent]
  rfl

end

namespace Binary

/-- The least normal mantissa as a power of two, the form in which bounds on mantissas are stated
throughout. -/
theorem leastNormal_eq : leastNormal = 2 ^ 52 := rfl

/-- The least exponent as a numeral, so that linear arithmetic can use it. -/
theorem leastExponent_eq : leastExponent = -1074 := rfl

/-! ### Parts -/

/-- The parts are those that a double has: the mantissa fits, the exponent is in range, and the
mantissa is normal unless the exponent is least. Without the last condition one double would have
several parts, and the views could not be inverse to each other. -/
structure Canonical (b : Binary) : Prop where
  lt : b.mantissa < 2 ^ 53
  least : -1074 ≤ b.exponent
  greatest : b.exponent ≤ 971
  normal : 2 ^ 52 ≤ b.mantissa ∨ b.exponent = -1074

/-- The sign as the arithmetic of doubles has it, where signs are a type of their own. -/
def sign (b : Binary) : Sign :=
  if b.negative then .negative else .positive

/-- The parts as an unpacked number. Zero is a case of its own there, because the mantissa of any
other finite number comes with a proof that it is positive. -/
def unpacked (b : Binary) : UnpackedFloat :=
  if h : b.mantissa = 0 then .zero b.sign
  else .finite b.sign b.mantissa b.exponent (Nat.pos_of_ne_zero h)

/-- The parts with the other sign. Negation of doubles is shown to be this, so that printing can
deal with a sign first and then with a positive number. -/
def flip (b : Binary) : Binary :=
  { b with negative := !b.negative }

/-- Parts with the other sign are canonical again, as no condition looks at the sign. It lets every
lemma about canonical parts be applied to a negated double. -/
theorem Canonical.flip {b : Binary} (h : b.Canonical) : b.flip.Canonical :=
  ⟨h.lt, h.least, h.greatest, h.normal⟩

/-- Changing the sign twice changes nothing, from which the same is seen of doubles. -/
theorem flip_flip (b : Binary) : b.flip.flip = b := by
  simp [flip]

/-- Negating an unpacked number is changing the sign of its parts. Zero is included: it has a sign
as well, which negation changes. -/
theorem neg_unpacked (b : Binary) : b.unpacked.neg = b.flip.unpacked := by
  obtain ⟨negative, mantissa, exponent⟩ := b
  unfold unpacked flip
  by_cases hzero : mantissa = 0
  · rw [dif_pos hzero, dif_pos hzero]
    cases negative <;> rfl
  · rw [dif_neg hzero, dif_neg hzero]
    cases negative <;> rfl

/-! ### Bits -/

/-- The exponent field of the parts. It is zero below the normal numbers, whose leading bit is the
one that is not stored. -/
def field (b : Binary) : Nat :=
  if b.mantissa < 2 ^ 52 then 0 else (b.exponent + 1075).toNat

/-- The bits of the parts: the sign, the exponent field and the mantissa without its leading bit,
each at its place. -/
def bits (b : Binary) : Nat :=
  b.negative.toNat * 2 ^ 63 + b.field * 2 ^ 52 + b.mantissa % 2 ^ 52

/-- The parts of sixty-four bits, for words that are finite doubles. A field of zero means that
there is no leading bit to be added, and that the exponent is the least one. -/
def ofBits (n : Nat) : Binary :=
  let field : Nat := n / 2 ^ 52 % 2 ^ 11
  if field = 0 then ⟨n / 2 ^ 63 == 1, n % 2 ^ 52, -1074⟩
  else ⟨n / 2 ^ 63 == 1, 2 ^ 52 + n % 2 ^ 52, (field : Int) - 1075⟩

/-- The exponent field of canonical parts is not the one that is reserved for infinities. It also
fits into its eleven bits, so that it does not run into the sign. -/
theorem Canonical.field_lt {b : Binary} (h : b.Canonical) : b.field < 2047 := by
  have hgreatest := h.greatest
  unfold field
  split <;> omega

/-- The bits of canonical parts fit into a word. The conversion to a word reduces its argument, and
this says that nothing is lost by it. -/
theorem bits_lt {b : Binary} (h : b.Canonical) : b.bits < 2 ^ 64 := by
  have hfield := h.field_lt
  have hsign := b.negative.toNat_lt
  unfold bits
  omega

/-- The exponent field stands in its place among the bits. What is below it is a remainder and what
is above it is a multiple, so neither touches it. -/
theorem field_bits {b : Binary} (h : b.Canonical) : b.bits / 2 ^ 52 % 2 ^ 11 = b.field := by
  have hfield := h.field_lt
  unfold bits
  omega

/-- The bits of canonical parts are those of a finite double. It is the condition under which
unpacking yields parts at all. -/
theorem field_bits_ne {b : Binary} (h : b.Canonical) : b.bits / 2 ^ 52 % 2 ^ 11 ≠ 2047 := by
  rw [field_bits h]
  exact Nat.ne_of_lt h.field_lt

/-- Canonical parts can be read off their bits. Normal mantissas get their leading bit back, and for
the others the exponent can only be the least one. -/
theorem ofBits_bits {b : Binary} (h : b.Canonical) : ofBits b.bits = b := by
  have hfield := field_bits h
  have hlt := h.field_lt
  have hsign : b.bits / 2 ^ 63 = b.negative.toNat := by
    unfold bits
    omega
  have hfraction : b.bits % 2 ^ 52 = b.mantissa % 2 ^ 52 := by
    unfold bits
    omega
  have hnegative : (b.negative.toNat == 1) = b.negative := by cases b.negative <;> rfl
  unfold ofBits
  rw [hfield, hsign, hfraction, hnegative]
  obtain ⟨hmantissa, hleast, _, hnormal⟩ := h
  obtain ⟨negative, mantissa, exponent⟩ := b
  unfold field
  dsimp only at *
  by_cases hsub : mantissa < 2 ^ 52
  · rw [if_pos hsub, if_pos rfl, Nat.mod_eq_of_lt hsub]
    congr
    omega
  · rw [if_neg hsub, if_neg (by omega)]
    congr <;> omega

/-- The parts of a word have the bits that they were read from. This holds of every word, also of
infinities, for which the parts mean nothing. -/
theorem bits_ofBits {n : Nat} (h : n < 2 ^ 64) : (ofBits n).bits = n := by
  have hsign : (n / 2 ^ 63 == 1).toNat = n / 2 ^ 63 := by
    by_cases hbit : n / 2 ^ 63 = 1
    · rw [hbit]
      rfl
    · rw [beq_false_of_ne hbit]
      simp only [Bool.toNat_false]
      omega
  unfold ofBits bits field
  dsimp only
  split <;> dsimp only <;> rw [hsign] <;> split <;> omega

/-- The parts of a finite double are canonical, as its fields have just the bits that the conditions
ask for. -/
theorem canonical_ofBits {n : Nat} (h : n / 2 ^ 52 % 2 ^ 11 ≠ 2047) : (ofBits n).Canonical := by
  unfold ofBits
  dsimp only
  split <;> constructor <;> dsimp only <;> omega

/-- Taking a double apart by masks and shifts is taking its bits apart by quotients and remainders.
The program does the former; everything below argues about the latter. -/
theorem ofFloat_eq (x : Float) : ofFloat x = ofBits x.toBits.toNat := by
  have hfield : ((x.toBits >>> 52) &&& 0x7FF).toNat = x.toBits.toNat / 2 ^ 52 % 2 ^ 11 := by
    simp [Nat.shiftRight_eq_div_pow]
    exact Nat.and_two_pow_sub_one_eq_mod _ 11
  have hfraction : (x.toBits &&& 0xFFFFFFFFFFFFF).toNat = x.toBits.toNat % 2 ^ 52 := by
    simp
    exact Nat.and_two_pow_sub_one_eq_mod _ 52
  have hsign : (x.toBits >>> 63 == 1) = (x.toBits.toNat / 2 ^ 63 == 1) := by
    rw [Bool.eq_iff_iff, beq_iff_eq, beq_iff_eq, ← UInt64.toNat_inj]
    simp [Nat.shiftRight_eq_div_pow]
  unfold ofFloat ofBits
  dsimp only
  rw [hfield, hfraction, hsign]
  rfl

/-! ### Packing and unpacking -/

/-- Unpacked numbers with the same parts are the same, whatever the proofs are that they are not
zero. Rewriting cannot change a mantissa that such a proof depends on, so equations between unpacked
numbers are split up by this lemma. -/
theorem finite_congr {s : Sign} {m m' : Nat} {e e' : Int} {h : 0 < m} {h' : 0 < m'}
    (hm : m = m') (he : e = e') : UnpackedFloat.finite s m e h = .finite s m' e' h' := by
  subst hm he
  rfl

/-- The two ways of reading the sign off a word agree: a comparison of a quotient on the one side
and of a single bit on the other. -/
theorem sign_ofBits (v : BitVec Format.binary64.numBits) :
    (ofBits v.toNat).sign = Sign.ofBitVec (unpackSign v) := by
  have hlt := (unpackSign v).isLt
  have hnegative : (ofBits v.toNat).negative = (v.toNat / 2 ^ 63 == 1) := by
    unfold ofBits
    dsimp only
    split <;> rfl
  unfold sign Sign.ofBitVec
  simp only [hnegative, ← toNat_unpackSign v, ← BitVec.toNat_inj, beq_iff_eq, BitVec.toNat_ofNat]
  split <;> split <;> first | rfl | omega

/-- Unpacking a word yields its parts, unless it is an infinity or no number. It connects the
arithmetic of doubles, which works on unpacked numbers, with the parts that the program takes
doubles into. -/
theorem unpack_ofBits (v : BitVec Format.binary64.numBits)
    (h : v.toNat / 2 ^ 52 % 2 ^ 11 ≠ 2047) :
    UnpackedFloat.unpack Format.binary64 v = (ofBits v.toNat).unpacked := by
  have hfinite := mt (unpackExponent_eq_iff v).1 h
  have hzero : unpackExponent v = 0#_ ↔ v.toNat / 2 ^ 52 % 2 ^ 11 = 0 := by
    rw [← BitVec.toNat_inj, toNat_unpackExponent]
    rfl
  have hnone : unpackMantissa v = 0#_ ↔ v.toNat % 2 ^ 52 = 0 := by
    rw [← BitVec.toNat_inj, toNat_unpackMantissa]
    rfl
  unfold UnpackedFloat.unpack unpacked
  dsimp only
  rw [if_neg hfinite, ← sign_ofBits]
  -- Only a number whose exponent field is not zero has a leading bit that is not stored.
  by_cases hfield : v.toNat / 2 ^ 52 % 2 ^ 11 = 0
  · have hparts : (ofBits v.toNat).mantissa = v.toNat % 2 ^ 52
        ∧ (ofBits v.toNat).exponent = -1074 := by
      unfold ofBits
      simp only [hfield, if_true, and_self]
    rw [if_pos (hzero.mpr hfield)]
    by_cases hmantissa : v.toNat % 2 ^ 52 = 0
    · rw [dif_pos (hnone.mpr hmantissa), dif_pos (hparts.1.trans hmantissa)]
    · rw [dif_neg (mt hnone.mp hmantissa), dif_neg (hparts.1 ▸ hmantissa)]
      refine finite_congr ?_ ?_
      · rw [hparts.1, toNat_unpackMantissa]
      · rw [hparts.2, toNat_unpackExponent, hfield]
        rfl
  · have hparts : (ofBits v.toNat).mantissa = 2 ^ 52 + v.toNat % 2 ^ 52
        ∧ (ofBits v.toNat).exponent = (v.toNat / 2 ^ 52 % 2 ^ 11 : Nat) - 1075 := by
      unfold ofBits
      simp only [hfield, if_false, and_self]
    have hlt : v.toNat % 2 ^ 52 < 2 ^ 52 := Nat.mod_lt _ (by decide)
    rw [if_neg (mt hzero.mp hfield), dif_neg (by omega)]
    refine finite_congr ?_ ?_
    · rw [hparts.1, BitVec.toNat_append, toNat_unpackMantissa]
      exact (Nat.shiftLeft_add_eq_or_of_lt hlt 1).symm
    · rw [hparts.2, toNat_unpackExponent]
      rfl

/-- Unpacking the bits of canonical parts yields the parts. The word may be given in any form that
is known to have these bits. -/
theorem unpack_of_toNat {v : BitVec Format.binary64.numBits} {b : Binary} (h : b.Canonical)
    (hv : v.toNat = b.bits) : UnpackedFloat.unpack Format.binary64 v = b.unpacked := by
  rw [unpack_ofBits v (hv ▸ field_bits_ne h), hv, ofBits_bits h]

/-- The fields of a word stand side by side, so as a number the word is a sum of multiples of their
places. It is used for each of the cases of packing, which differ in what the fields are. -/
theorem toNat_packComponents (b : Binary) (exponent : BitVec 11) (mantissa : BitVec 52) :
    (packComponents Format.binary64 b.sign exponent mantissa).toNat
      = b.negative.toNat * 2 ^ 63 + exponent.toNat * 2 ^ 52 + mantissa.toNat := by
  have hsign : b.sign.toBitVec.toNat = b.negative.toNat := by
    unfold sign
    cases b.negative <;> rfl
  have hexponent : exponent.toNat < 2 ^ 11 := exponent.isLt
  have hmantissa : mantissa.toNat < 2 ^ 52 := mantissa.isLt
  show (b.sign.toBitVec ++ exponent ++ mantissa).toNat = _
  rw [BitVec.toNat_append, BitVec.toNat_append, ← Nat.shiftLeft_add_eq_or_of_lt hexponent,
    ← Nat.shiftLeft_add_eq_or_of_lt hmantissa, hsign, Nat.shiftLeft_eq, Nat.shiftLeft_eq]
  omega

/-- Packing canonical parts yields their bits. The exponent is too small for an infinity, and the
length of the mantissa tells whether its leading bit is stored. -/
theorem toNat_pack {b : Binary} (h : b.Canonical) :
    (UnpackedFloat.pack Format.binary64 b.unpacked).toNat = b.bits := by
  obtain ⟨hmantissa, hleast, hgreatest, hnormal⟩ := h
  unfold unpacked bits field
  by_cases hzero : b.mantissa = 0
  · rw [dif_pos hzero, if_pos (by omega), hzero]
    show (packComponents Format.binary64 b.sign 0#11 0#52).toNat = _
    rw [toNat_packComponents]
    rfl
  · have hlong : b.mantissa.log2 < 53 := (Nat.log2_lt hzero).mpr hmantissa
    have hshort : b.mantissa.log2 < 52 ↔ b.mantissa < 2 ^ 52 := Nat.log2_lt hzero
    rw [dif_neg hzero]
    show (if 2 ^ 11 ≤ (b.exponent + 1023 + 52).toNat + 1 then _
      else if b.mantissa.log2 + 1 = 53 then packComponents Format.binary64 b.sign
          (BitVec.ofNat 11 (b.exponent + 1023 + 52).toNat) (BitVec.ofNat 52 b.mantissa)
        else packComponents Format.binary64 b.sign 0#11 (BitVec.ofNat 52 b.mantissa)).toNat = _
    rw [if_neg (by omega)]
    by_cases hsub : b.mantissa < 2 ^ 52
    · rw [if_neg (by omega), if_pos hsub, toNat_packComponents, BitVec.toNat_ofNat]
      rfl
    · rw [if_pos (by omega), if_neg hsub, toNat_packComponents, BitVec.toNat_ofNat,
        BitVec.toNat_ofNat, Nat.mod_eq_of_lt (by omega)]
      congr 3
      omega

/-! ### Doubles -/

/-- Canonical parts are put together by their bits. The program first shifts the mantissa up as far
as it can, which for canonical parts is not at all. -/
theorem toFloat_eq_ofBits {b : Binary} (h : b.Canonical) :
    b.toFloat = Float.ofBits (UInt64.ofNat b.bits) := by
  -- The mantissa is as long as it can be, so putting the parts together shifts nothing.
  have hshift : min (52 - b.mantissa.log2) (b.exponent - leastExponent).toNat = 0 := by
    have hleast := leastExponent_eq
    have hlog := @Nat.le_log2 b.mantissa 52
    rcases h.normal with hnormal | hleast
    · have := (hlog (by omega)).2 hnormal
      omega
    · omega
  have hsign : (if b.negative = true then 1 <<< 63 else 0) = b.negative.toNat * 2 ^ 63 := by
    cases b.negative <;> rfl
  unfold toFloat bits field
  simp only [hshift, leastNormal_eq, hsign, Nat.shiftLeft_zero, Int.ofNat_zero, Int.sub_zero,
    Nat.shiftLeft_eq _ 52]

/-- Canonical parts are put together by packing them. The results of arithmetic are packed as well,
so a computed double can be compared with given parts without going down to the bits. -/
theorem toFloat_eq {b : Binary} (h : b.Canonical) :
    b.toFloat = Float.ofModel (Float.Model.pack b.unpacked) := by
  have hbits : (UInt64.ofNat b.bits).toBitVec.toNat = b.bits :=
    UInt64.toNat_ofNat_of_lt (bits_lt h)
  rw [toFloat_eq_ofBits h]
  show Float.ofModel (Float.Model.pack (UnpackedFloat.unpack _ _)) = _
  rw [unpack_of_toNat h hbits]

/-- Unpacking the double that has given parts yields these parts. Every operation on doubles begins
by unpacking its operands, so this is how parts get into a computation. -/
theorem unpack_toFloat {b : Binary} (h : b.Canonical) : b.toFloat.toModel.unpack = b.unpacked := by
  rw [toFloat_eq h]
  exact unpack_of_toNat h (toNat_pack h)

/-- The bits of the double that has given parts are those of the parts, which makes the round trip
through doubles one through bits. -/
theorem toNat_toBits_toFloat {b : Binary} (h : b.Canonical) :
    b.toFloat.toBits.toNat = b.bits := by
  rw [toFloat_eq h]
  exact toNat_pack h

/-- Taking apart what was put together from canonical parts yields the parts: no two of them make
the same double. -/
theorem ofFloat_toFloat {b : Binary} (h : b.Canonical) : ofFloat b.toFloat = b := by
  rw [ofFloat_eq, toNat_toBits_toFloat h, ofBits_bits h]

/-- Canonical parts make a finite double. Infinities and what is no number have no such parts. -/
theorem isFinite_toFloat {b : Binary} (h : b.Canonical) : b.toFloat.isFinite = true := by
  show b.toFloat.toModel.unpack.isFinite = true
  rw [unpack_toFloat h]
  unfold unpacked
  by_cases hzero : b.mantissa = 0
  · rw [dif_pos hzero]
    rfl
  · rw [dif_neg hzero]
    rfl

/-- Negating a double changes the sign of its parts. Negation unpacks, changes the sign and packs
again, and for canonical parts the outer two steps are known. -/
theorem neg_toFloat {b : Binary} (h : b.Canonical) : -b.toFloat = b.flip.toFloat := by
  have hunpack := unpack_toFloat h
  rw [toFloat_eq h.flip]
  show Float.ofModel (Float.Model.pack b.toFloat.toModel.unpack.neg) = _
  rw [hunpack, neg_unpacked]

section

variable {x : Float} (h : x.isFinite = true)
include h

/-- The parts of a finite double are canonical. With this, all that is said above of canonical parts
holds of finite doubles. -/
theorem canonical_ofFloat : (ofFloat x).Canonical := by
  rw [ofFloat_eq]
  apply canonical_ofBits
  intro hfield
  have hexponent := (unpackExponent_eq_iff x.toModel.toBits.toBitVec).2 hfield
  change (UnpackedFloat.unpack Format.binary64 x.toModel.toBits.toBitVec).isFinite = true at h
  unfold UnpackedFloat.unpack at h
  dsimp only at h
  -- With that exponent field the double is an infinity or no number.
  rw [if_pos hexponent] at h
  split at h
  · cases h
  · cases h

/-- The parts of a finite double make it up again, since a double is its bits and these are not
changed on the way. -/
theorem toFloat_ofFloat : (ofFloat x).toFloat = x := by
  have hbits : (ofFloat x).toFloat.toBits = x.toBits := by
    rw [← UInt64.toNat_inj, toNat_toBits_toFloat (canonical_ofFloat h), ofFloat_eq,
      bits_ofBits x.toBits.toNat_lt]
  generalize (ofFloat x).toFloat = y at hbits
  obtain ⟨⟨bits, valid⟩⟩ := x
  obtain ⟨⟨bits', valid'⟩⟩ := y
  obtain rfl : bits' = bits := hbits
  rfl

/-- Negation of a finite double in terms of its parts, from which the remaining properties of
negation follow. -/
theorem neg_eq_toFloat : -x = (ofFloat x).flip.toFloat := by
  rw [← neg_toFloat (canonical_ofFloat h), toFloat_ofFloat h]

/-- Negation flips the sign and nothing else. In particular a number and its negative have the same
digits. -/
theorem ofFloat_neg : ofFloat (-x) = (ofFloat x).flip := by
  rw [neg_eq_toFloat h, ofFloat_toFloat (canonical_ofFloat h).flip]

/-- The negative of a number with a sign has none. Printing writes a minus and goes on with such a
number. -/
theorem negative_neg (hsign : (ofFloat x).negative = true) : (ofFloat (-x)).negative = false := by
  rw [ofFloat_neg h]
  simp only [flip, hsign, Bool.not_true]

/-- The negative of a finite double is finite, so that what holds of finite doubles can be used of
it. -/
theorem isFinite_neg : (-x).isFinite = true := by
  rw [neg_eq_toFloat h]
  exact isFinite_toFloat (canonical_ofFloat h).flip

/-- Negating a finite double twice yields it again, bit by bit. Reading a minus and then a number
therefore undoes what printing did, for negative zero too. -/
theorem neg_neg_of_isFinite : -(-x) = x := by
  rw [neg_eq_toFloat (isFinite_neg h), ofFloat_neg h, flip_flip, toFloat_ofFloat h]

end

end Binary

end ArrayScript.Decimal
