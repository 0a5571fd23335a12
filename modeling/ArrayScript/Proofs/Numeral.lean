import ArrayScript.Proofs.Nearest

/-!
# `ArrayScript.Proofs.Numeral`: written numbers are read back

A finite number is written with the fewest digits that identify it. These digits stand for a number
in the interval of the double, so they round to the double again (`Interval.rounds_shortest`). What
is written for a number without a sign is a numeral: digits, and perhaps more digits behind a point.
Laying the digits out, with zeros in front of them or behind them, does not change the number that
they denote.

* `exists_numeral`: a finite number whose sign is clear is written as a numeral that is read as this
  number.
* `toList_write_of_negative`: a set sign adds a dash in front, and nothing else.
* `read?_write`: what is written for a finite number is read as this number.
-/

set_option autoImplicit false

namespace ArrayScript.Decimal

/-! ### The interval of a double -/

namespace Interval

/-- The neighbour of the value among the multiples of a unit is only chosen if it lies in the
interval, whichever side it is on. -/
theorem contains_of_neighbour? {i : Interval} {unit n : Nat} (h : i.neighbour? unit = some n) :
    i.Contains (n * unit) := by
  unfold neighbour? at h
  dsimp only at h
  split at h
  next habove =>
    obtain rfl := Option.some.inj h
    exact habove.1
  next =>
    split at h
    next hbelow =>
      obtain rfl := Option.some.inj h
      exact hbelow
    next => cases h

/-- What is left when digits are dropped lies in the interval, if the value does. -/
theorem contains_coarsest {i : Interval} (h : i.Contains i.value) (dropped : Nat) :
    ∃ k : Nat, (i.coarsest dropped).scale = i.scale + k
      ∧ i.Contains ((i.coarsest dropped).digits * 10 ^ k) := by
  induction dropped with
  | zero => exact ⟨0, by simp [coarsest], by simpa [coarsest] using h⟩
  | succ dropped ih =>
    unfold coarsest
    split
    next digits hsome => exact ⟨dropped + 1, by simp, contains_of_neighbour? hsome⟩
    next => exact ih

/-- A quarter of the last place of a double, in units of its interval. -/
def unit (b : Binary) : Nat :=
  Nat.pow 5 (-(b.exponent - 2)).toNat <<< (b.exponent - 2).toNat

/-- The number of quarters between a double and the lower end of its interval. -/
def below (b : Binary) : Nat :=
  if b.narrowBelow then 1 else 2

/-- The unit of an interval is not zero, so that comparisons can be divided by it. -/
theorem unit_pos (b : Binary) : 0 < unit b := by
  unfold unit
  rw [Nat.shiftLeft_eq]
  exact Nat.mul_pos (Nat.pow_pos (by decide)) (Nat.two_pow_pos _)

/-- The unit of an interval is a power of ten, and a quarter of the last place a power of two. -/
theorem unit_mul_scale (b : Binary) :
    (unit b : ℚ) * 10 ^ (ofBinary b).scale * 4 = 2 ^ b.exponent := by
  have hfour : (2 : ℚ) ^ b.exponent = 2 ^ (b.exponent - 2) * 4 := by
    rw [zpow_sub₀ (by norm_num)]
    norm_num
  unfold unit
  rw [hfour, show (ofBinary b).scale = min (b.exponent - 2) 0 from rfl, Nat.shiftLeft_eq]
  generalize b.exponent - 2 = q
  by_cases hq : 0 ≤ q
  · obtain ⟨k, rfl⟩ := Int.eq_ofNat_of_zero_le hq
    rw [min_eq_right hq, show (-(k : Int)).toNat = 0 by omega]
    simp
  · obtain ⟨k, hk⟩ := Int.eq_ofNat_of_zero_le (by omega : 0 ≤ -q)
    obtain rfl : q = -k := by omega
    rw [min_eq_left (by omega), neg_neg, Int.toNat_natCast, show (-(k : Int)).toNat = 0 by omega]
    simp
    rw [show (10 : ℚ) = 5 * 2 by norm_num, mul_pow]
    field_simp

variable {b : Binary} (hpos : 0 < b.mantissa)
include hpos

/-- The value of a double lies in its own interval. From it the search for fewer digits has
something to start from. -/
theorem contains_value : (ofBinary b).Contains (ofBinary b).value := by
  have hbelow : 0 < if b.narrowBelow then 1 else 2 := by split <;> decide
  have hlow : (ofBinary b).low < (ofBinary b).value :=
    Nat.mul_lt_mul_of_pos_right (by omega) (unit_pos b)
  have hhigh : (ofBinary b).value < (ofBinary b).high :=
    Nat.mul_lt_mul_of_pos_right (by omega) (unit_pos b)
  unfold Contains
  split <;> omega

/-- Where a number of the interval lies, in units of the last place of the double. -/
theorem bounds_of_contains {n : Nat} (h : (ofBinary b).Contains n) {x : ℚ}
    (hx : x = n * 10 ^ (ofBinary b).scale / 2 ^ b.exponent) :
    b.mantissa - (below b : ℚ) / 4 ≤ x ∧ x ≤ b.mantissa + 1 / 2
      ∧ (b.mantissa % 2 = 1 → b.mantissa - (below b : ℚ) / 4 < x ∧ x < b.mantissa + 1 / 2) := by
  have hunit : (0 : ℚ) < unit b := by exact_mod_cast unit_pos b
  have hlow : (((ofBinary b).low : Nat) : ℚ) = (4 * b.mantissa - below b) * unit b := by
    have hle : below b ≤ 4 * b.mantissa := by
      unfold below
      split <;> omega
    rw [show (ofBinary b).low = (4 * b.mantissa - below b) * unit b from rfl]
    push_cast [hle]
    ring
  have hhigh : (((ofBinary b).high : Nat) : ℚ) = (4 * b.mantissa + 2) * unit b := by
    rw [show (ofBinary b).high = (4 * b.mantissa + 2) * unit b from rfl]
    push_cast
    ring
  -- The interval is measured in quarters of the last place, so that its lower end is a whole number
  -- also where the neighbour below is closer.
  have hn : (n : ℚ) = 4 * x * unit b := by
    rw [hx, ← unit_mul_scale]
    field_simp
  unfold Contains at h
  rw [show (ofBinary b).closed = (b.mantissa % 2 == 0) from rfl] at h
  -- The ends belong to the interval if the mantissa is even, since halves round to even.
  by_cases heven : b.mantissa % 2 = 0
  · rw [if_pos (by simpa using heven)] at h
    have hle : (((ofBinary b).low : Nat) : ℚ) ≤ n := by exact_mod_cast h.1
    have hge : (n : ℚ) ≤ ((ofBinary b).high : Nat) := by exact_mod_cast h.2
    rw [hlow, hn] at hle
    rw [hhigh, hn] at hge
    have hle := le_of_mul_le_mul_right hle hunit
    have hge := le_of_mul_le_mul_right hge hunit
    exact ⟨by linarith, by linarith, by omega⟩
  · rw [if_neg (by simpa using heven)] at h
    have hlt : (((ofBinary b).low : Nat) : ℚ) < n := by exact_mod_cast h.1
    have hgt : (n : ℚ) < ((ofBinary b).high : Nat) := by exact_mod_cast h.2
    rw [hlow, hn] at hlt
    rw [hhigh, hn] at hgt
    have hlt := lt_of_mul_lt_mul_right hlt hunit.le
    have hgt := lt_of_mul_lt_mul_right hgt hunit.le
    exact ⟨by linarith, by linarith, fun _ => ⟨by linarith, by linarith⟩⟩

/-- The numbers in the interval of a double round to it. -/
theorem rounds_of_contains {n : Nat} (h : (ofBinary b).Contains n) :
    b.Rounds (n * 10 ^ (ofBinary b).scale) := by
  obtain ⟨hlow, hhigh, hodd⟩ := bounds_of_contains hpos h rfl
  unfold below at hlow hodd
  by_cases hnarrow : b.narrowBelow = true
  · -- The first double of an exponent is even, so the ends belong to its interval.
    have hmantissa := (Binary.narrowBelow_iff.1 hnarrow).1
    rw [if_pos hnarrow] at hlow
    push_cast at hlow
    exact ⟨⟨by linarith, hhigh, by omega⟩, fun _ => by linarith⟩
  · rw [if_neg hnarrow] at hlow hodd
    norm_num at hlow hodd
    refine ⟨⟨by linarith, by linarith, ?_⟩, fun h => absurd h hnarrow⟩
    intro hmod
    have hstrict := hodd hmod
    exact ⟨by linarith, by linarith⟩

/-- The digits that identify a double round to it. -/
theorem rounds_shortest :
    b.Rounds ((ofBinary b).shortest.digits * 10 ^ (ofBinary b).shortest.scale) := by
  unfold shortest
  obtain ⟨k, hscale, hcontains⟩ :=
    contains_coarsest (contains_value hpos) (digitCount (ofBinary b).value - 1)
  have hrounds := rounds_of_contains hpos hcontains
  rw [hscale, zpow_add₀ (by norm_num), zpow_natCast]
  push_cast at hrounds
  rwa [mul_comm ((10 : ℚ) ^ _), ← mul_assoc]

end Interval

/-! ### Digits -/

/-- Digits are read as the standard library reads them, whose lemmas can then be used. -/
theorem ofDigits_eq (ds : List Char) : ofDigits ds = Nat.ofDigitChars 10 ds 0 :=
  Nat.ofDigitChars_eq_foldl.symm

/-- Zeros in front of digits do not count. They are written behind the point of small numbers. -/
theorem ofDigits_zeros_append (k : Nat) (ds : List Char) :
    ofDigits (List.replicate k '0' ++ ds) = ofDigits ds := by
  rw [ofDigits_eq, ofDigits_eq, Nat.ofDigitChars_append, Nat.ofDigitChars_replicate_zero,
    Nat.mul_zero]

/-- Each zero behind digits multiplies by ten. They fill large numbers up to the point, and they are
what trimming takes away. -/
theorem ofDigits_append_zeros (ds : List Char) (k : Nat) :
    ofDigits (ds ++ List.replicate k '0') = 10 ^ k * ofDigits ds := by
  rw [ofDigits_eq, ofDigits_eq, Nat.ofDigitChars_append, Nat.ofDigitChars_replicate_zero]

/-- Zeros are digits, so that a layout which is filled up with them is still one of digits. -/
theorem isDigit_replicate {k : Nat} {c : Char} (hc : c ∈ List.replicate k '0') :
    c.isDigit = true := by
  rw [List.eq_of_mem_replicate hc]
  rfl

/-- Digits have no case. Reading compares the text in lower case with words such as `inf` first, and
digits must not be taken for one. -/
theorem toLower_of_isDigit {c : Char} (h : c.isDigit = true) : c.toLower = c := by
  have hle : c.val ≤ 57 := by
    simp only [Char.isDigit, Bool.and_eq_true, decide_eq_true_eq] at h
    exact h.2
  unfold Char.toLower
  rw [dif_neg]
  intro hupper
  exact absurd (UInt32.le_trans (a := 65) hupper.1 hle) (by decide)

/-- A run of digits ends in front of what is no digit. -/
theorem span_digits {ds rest : List Char} (hds : ∀ c ∈ ds, c.isDigit = true)
    (hrest : rest.head?.any Char.isDigit = false) :
    (ds ++ rest).takeWhile Char.isDigit = ds ∧ (ds ++ rest).dropWhile Char.isDigit = rest := by
  rw [List.takeWhile_append_of_pos hds, List.dropWhile_append_of_pos hds]
  cases rest with
  | nil => simp
  | cons c cs =>
    have hc : c.isDigit = false := hrest
    simp [hc]

/-- Digits are what trimming leaves of them, and some zeros. -/
theorem exists_trimZeros (ds : List Char) : ∃ k, ds = trimZeros ds ++ List.replicate k '0' := by
  have hsplit := @List.takeWhile_append_dropWhile _ (· = '0') ds.reverse
  have hzeros : ∀ c ∈ ds.reverse.takeWhile (· = '0'), c = '0' := by
    intro c hc
    have hall := @List.all_takeWhile _ (· = '0') ds.reverse
    simpa using List.all_eq_true.1 hall c hc
  refine ⟨(ds.reverse.takeWhile (· = '0')).length, ?_⟩
  rw [← List.reverse_inj]
  unfold trimZeros
  rw [List.reverse_append, List.reverse_reverse, List.reverse_replicate,
    ← List.eq_replicate_of_mem hzeros, hsplit]

/-! ### Numerals -/

/-- Digits, and perhaps more digits behind a point. -/
structure Numeral where
  whole : List Char
  fraction : List Char
  whole_ne_nil : whole ≠ []
  isDigit_whole : ∀ c ∈ whole, c.isDigit = true
  isDigit_fraction : ∀ c ∈ fraction, c.isDigit = true

namespace Numeral

/-- A numeral as it is written. There is no point without digits behind it. -/
def text (n : Numeral) : List Char :=
  if n.fraction = [] then n.whole else n.whole ++ '.' :: n.fraction

/-- All digits of a numeral as one natural number. -/
def digits (n : Numeral) : Nat :=
  ofDigits (n.whole ++ n.fraction)

/-- The number that a numeral denotes. -/
def rational (n : Numeral) : ℚ :=
  n.digits * 10 ^ (-n.fraction.length : Int)

/-- The double that a numeral is read as. -/
def value (n : Numeral) : Float :=
  nearest n.digits (-n.fraction.length)

/-- A numeral begins with a digit. This tells it from the words and the signs that reading also
accepts. -/
theorem exists_head (n : Numeral) : ∃ c cs, n.text = c :: cs ∧ c.isDigit = true := by
  obtain ⟨c, cs, hwhole⟩ := List.exists_cons_of_ne_nil n.whole_ne_nil
  have hc := n.isDigit_whole c (by rw [hwhole]; exact List.mem_cons_self)
  unfold text
  rw [hwhole]
  split <;> exact ⟨c, _, rfl, hc⟩

/-! ### Reading -/

/-- A numeral without a sign is read as its value. It is no word, its digits are split at the point,
and there is no exponent behind them. -/
theorem readMagnitude?_text (n : Numeral) : readMagnitude? n.text = some n.value := by
  obtain ⟨c, cs, htext, hc⟩ := n.exists_head
  -- A word starts with a letter, and lowering the case keeps a digit what it is.
  have hword : ∀ (first : Char) (rest : List Char), first.isDigit = false →
      n.text.map Char.toLower ≠ first :: rest := by
    intro first rest hfirst h
    rw [htext, List.map_cons, toLower_of_isDigit hc] at h
    rw [(List.cons.inj h).1, hfirst] at hc
    cases hc
  have hinf : ¬ (n.text.map Char.toLower = "inf".toList
      ∨ n.text.map Char.toLower = "infinity".toList) := by
    rintro (h | h)
    · exact hword 'i' ['n', 'f'] rfl h
    · exact hword 'i' ['n', 'f', 'i', 'n', 'i', 't', 'y'] rfl h
  have hnan : n.text.map Char.toLower ≠ "nan".toList := hword 'n' ['a', 'n'] rfl
  have hwhole : n.whole.isEmpty = false := by simpa using n.whole_ne_nil
  unfold readMagnitude?
  dsimp only
  rw [if_neg hinf, if_neg hnan]
  unfold text value digits
  by_cases hfraction : n.fraction = []
  · obtain ⟨htake, hdrop⟩ := @span_digits _ [] n.isDigit_whole rfl
    rw [List.append_nil] at htake hdrop
    simp [hfraction, htake, hdrop, hwhole, readExponent?]
  · obtain ⟨htake, hdrop⟩ := @span_digits _ ('.' :: n.fraction) n.isDigit_whole rfl
    obtain ⟨htake', hdrop'⟩ := @span_digits _ [] n.isDigit_fraction rfl
    rw [List.append_nil] at htake' hdrop'
    rw [if_neg hfraction, htake, hdrop]
    simp [htake', hdrop', hwhole, readExponent?]

/-- A numeral is read as its value, as it has no sign that would have to be taken off first. -/
theorem read?_text (n : Numeral) : read? (String.ofList n.text) = some n.value := by
  obtain ⟨c, cs, htext, hc⟩ := n.exists_head
  have hread := n.readMagnitude?_text
  unfold read?
  rw [String.toList_ofList]
  rw [htext] at hread ⊢
  split
  next h =>
    rw [(List.cons.inj h).1] at hc
    cases hc
  next h =>
    rw [(List.cons.inj h).1] at hc
    cases hc
  next => exact hread

/-! ### Writing -/

/-- Digits that are laid out are a numeral for the same number. -/
theorem exists_layout {ds : List Char} (hne : ds ≠ []) (hds : ∀ c ∈ ds, c.isDigit = true)
    (whole : Int) :
    ∃ n : Numeral, n.text = layout ds whole
      ∧ n.rational = ofDigits ds * 10 ^ (whole - ds.length) := by
  unfold layout
  -- The point stands in front of all digits, behind all of them, or between two.
  by_cases hsmall : whole ≤ 0
  · rw [if_pos hsmall]
    refine ⟨⟨['0'], List.replicate (-whole).toNat '0' ++ ds, by simp, by simp, ?_⟩, ?_, ?_⟩
    · intro c hc
      exact (List.mem_append.1 hc).elim isDigit_replicate (hds c)
    · exact if_neg (by simp [hne])
    · show (ofDigits (List.replicate ((-whole).toNat + 1) '0' ++ ds) : ℚ) * _ = _
      rw [ofDigits_zeros_append, List.length_append, List.length_replicate]
      congr 2
      omega
  rw [if_neg hsmall]
  by_cases hlarge : ds.length ≤ whole
  · obtain ⟨k, rfl⟩ := Int.le.dest hlarge
    have hzeros : ((ds.length : Int) + k).toNat - ds.length = k := by omega
    rw [if_pos hlarge, hzeros]
    refine ⟨⟨ds ++ List.replicate k '0', [], by simp [hne], ?_, by simp⟩, if_pos rfl, ?_⟩
    · intro c hc
      exact (List.mem_append.1 hc).elim (hds c) isDigit_replicate
    · show (ofDigits (_ ++ []) : ℚ) * _ = _
      rw [List.append_nil, ofDigits_append_zeros, add_sub_cancel_left]
      simp
      ring
  · rw [if_neg hlarge]
    refine ⟨⟨ds.take whole.toNat, ds.drop whole.toNat, ?_, ?_, ?_⟩, ?_, ?_⟩
    · rw [ne_eq, List.take_eq_nil_iff]
      simp only [hne, or_false]
      omega
    · exact fun c hc => hds c (List.mem_of_mem_take hc)
    · exact fun c hc => hds c (List.mem_of_mem_drop hc)
    · refine if_neg ?_
      rw [List.drop_eq_nil_iff]
      omega
    · show (ofDigits (_ ++ _) : ℚ) * _ = _
      rw [List.take_append_drop, List.length_drop]
      congr 2
      omega

/-- A positive decimal is written as a numeral for the same number. -/
theorem exists_write {d : Digits} (h : 0 < d.digits) :
    ∃ n : Numeral, n.text = d.write ∧ n.rational = d.digits * 10 ^ d.scale := by
  obtain ⟨k, hk⟩ := exists_trimZeros (Nat.toDigits 10 d.digits)
  unfold Digits.write
  dsimp only
  have hmem : ∀ c ∈ trimZeros (Nat.toDigits 10 d.digits), c ∈ Nat.toDigits 10 d.digits := by
    intro c hc
    rw [hk]
    exact List.mem_append_left _ hc
  have hdigits : ofDigits (Nat.toDigits 10 d.digits) = d.digits := by
    rw [ofDigits_eq, Nat.ofDigitChars_ten_toDigits]
  have hds : ∀ c ∈ trimZeros (Nat.toDigits 10 d.digits), c.isDigit = true := fun c hc =>
    Nat.isDigit_of_mem_toDigits (by decide) (by decide) (hmem c hc)
  -- From here on only this matters of the trimmed digits: they are digits, and with some zeros
  -- behind them they denote the number.
  generalize trimZeros (Nat.toDigits 10 d.digits) = ds at *
  rw [hk, ofDigits_append_zeros] at hdigits
  have hne : ds ≠ [] := by
    rintro rfl
    rw [← hdigits] at h
    exact absurd h (by simp [ofDigits])
  obtain ⟨n, htext, hrational⟩ :=
    exists_layout hne hds ((Nat.toDigits 10 d.digits).length + d.scale)
  -- The zeros that were trimmed are made up for by the place of the point.
  have hwhole : (((Nat.toDigits 10 d.digits).length : Nat) : Int) + d.scale - ds.length
      = k + d.scale := by
    rw [hk, List.length_append, List.length_replicate]
    omega
  refine ⟨n, htext, ?_⟩
  rw [hrational, hwhole, zpow_add₀ (by norm_num), zpow_natCast, ← hdigits]
  push_cast
  ring

/-- What is written for parts without a sign is a numeral that stands for them. Zero is written as a
digit of its own; for all others the fewest digits are looked for. -/
theorem exists_nonnegative {b : Binary} (hb : b.Canonical) (hsign : b.negative = false) :
    ∃ n : Numeral, n.text = b.write ∧ n.value = b.toFloat := by
  have hwrite : b.write
      = if b.mantissa = 0 then ['0'] else (Interval.ofBinary b).shortest.write := by
    simp [Binary.write, hsign]
  rw [hwrite]
  by_cases hzero : b.mantissa = 0
  · -- No interval is needed for zero, which has one pair of canonical parts for each sign.
    refine ⟨⟨['0'], [], by simp, by simp, by simp⟩, by simp [text, hzero], ?_⟩
    have hexponent : b.exponent = -1074 := by
      have := hb.normal
      omega
    obtain ⟨negative, mantissa, exponent⟩ := b
    simp only at hsign hzero hexponent
    subst hsign hzero hexponent
    decide +kernel
  · have hpos := Nat.pos_of_ne_zero hzero
    have hrounds := Interval.rounds_shortest hpos
    have hdigits := (hrounds.exponent_bounds hb hpos 0).1
    obtain ⟨n, htext, hrational⟩ := exists_write (Nat.pos_of_ne_zero hdigits)
    refine ⟨n, by rw [htext, if_neg hzero], ?_⟩
    rw [← hrational] at hrounds
    exact Binary.nearest_toFloat hb hpos hsign hrounds

end Numeral

/-! ### Finite numbers -/

section

variable {x : Float} (h : x.isFinite = true)
include h

/-- The text of a finite number is that of its parts: the words for infinities and for what is no
number are not reached. -/
theorem toList_write : (write x).toList = (Binary.ofFloat x).write := by
  have hspecial : x.isNaN = false ∧ x.isInf = false := by
    change x.toModel.unpack.isFinite = true at h
    show x.toModel.unpack.isNaN = false ∧ x.toModel.unpack.isInf = false
    cases hx : x.toModel.unpack with
    | infinity s => rw [hx] at h; cases h
    | notANumber => rw [hx] at h; cases h
    | zero s => exact ⟨rfl, rfl⟩
    | finite s m e hm => exact ⟨rfl, rfl⟩
  unfold write
  rw [hspecial.1, hspecial.2, if_neg Bool.false_ne_true, if_neg Bool.false_ne_true,
    String.toList_ofList]

/-- A finite number whose sign is clear is written as a numeral that is read as this number. -/
theorem exists_numeral (hsign : (Binary.ofFloat x).negative = false) :
    ∃ n : Numeral, (write x).toList = n.text ∧ n.value = x := by
  obtain ⟨n, htext, hvalue⟩ := Numeral.exists_nonnegative (Binary.canonical_ofFloat h) hsign
  exact ⟨n, by rw [toList_write h, htext], by rw [hvalue, Binary.toFloat_ofFloat h]⟩

/-- A set sign adds a dash in front, and nothing else. -/
theorem toList_write_of_negative (hsign : (Binary.ofFloat x).negative = true) :
    (write x).toList = '-' :: (write (-x)).toList := by
  rw [toList_write h, toList_write (Binary.isFinite_neg h), Binary.ofFloat_neg h]
  simp only [Binary.write, Binary.flip, hsign]
  rfl

/-- What is written for a finite number is read as this number. -/
theorem read?_write : read? (write x) = some x := by
  cases hsign : (Binary.ofFloat x).negative with
  | false =>
    obtain ⟨n, htext, hvalue⟩ := exists_numeral h hsign
    rw [← @String.ofList_toList (write x), htext, n.read?_text, hvalue]
  | true =>
    obtain ⟨n, htext, hvalue⟩ :=
      exists_numeral (Binary.isFinite_neg h) (Binary.negative_neg h hsign)
    unfold read?
    rw [toList_write_of_negative h hsign, htext]
    show (readMagnitude? n.text).map (fun y => -y) = _
    rw [n.readMagnitude?_text, hvalue, Option.map_some, Binary.neg_neg_of_isFinite h]

end

end ArrayScript.Decimal
