import ArrayScript.Proofs.Scanning
import Mathlib.Computability.Language
import Mathlib.Data.List.Pairwise

/-!
# `ArrayScript.Proofs.LongestMatch`: the first match is the longest one

Each pattern stands for a regular language (`Pattern.language`), written as a regular expression
would be: names are a letter and then letters and digits, numerals are digits with an optional
fraction, and so on. `Pattern.reach` computes how far a pattern goes into a text, and
`take_reach_mem` and `length_le_reach` say that this is as far as its language allows.

The table is tried from its top, and the first pattern that applies is taken. That this is also the
one that takes the longest piece rests on the order of the table alone (`table_order`): no piece of
a pattern is the beginning of a piece of a later one. Two pieces that one text begins with begin one
another, so the piece of the later pattern is the shorter one; and no piece belongs to two patterns.

`scan_longest` puts this together with the loop of the scanner. `ScanState` is what the loop has in
hand in front of a piece, and `Visits` are the states that it comes through.
-/

set_option autoImplicit false

namespace ArrayScript.Token

open Computability

/-! ### Characters -/

section

variable {c : Char}

/-- Letters are told by their codes, and so can be compared with blanks and digits. -/
theorem isAlpha_iff :
    c.isAlpha = true ↔
      (65 ≤ c.toNat ∧ c.toNat ≤ 90) ∨ (97 ≤ c.toNat ∧ c.toNat ≤ 122) := by
  show (decide (c.val ≥ 'A'.val ∧ c.val ≤ 'Z'.val)
    || (decide (c.val ≥ 'a'.val) && decide (c.val ≤ 'z'.val))) = true ↔ _
  simp [UInt32.le_iff_toNat_le]

/-- A character that continues a name is a letter, a digit or an underscore. -/
theorem isWordPart_eq (c : Char) :
    isWordPart c = (c.isAlpha || c.isDigit || decide (c = '_')) :=
  rfl

theorem isBlank_of_isDigit (h : c.isDigit = true) : Text.isBlank c = false := by
  rw [Char.isDigit_iff_toNat] at h
  simp [Text.isBlank, Text.blankRanges] at h ⊢
  omega

theorem isWordStart_of_isDigit (h : c.isDigit = true) : isWordStart c = false := by
  have hne : c ≠ '_' := by
    rintro rfl
    cases h
  have halpha : ¬ c.isAlpha = true := by
    rw [Char.isDigit_iff_toNat] at h
    rw [isAlpha_iff]
    simp at h
    omega
  simp [isWordStart, halpha, hne]

theorem isWordPart_of_isWordStart (h : isWordStart c = true) : isWordPart c = true := by
  simp only [isWordStart, isWordPart_eq, Bool.or_eq_true] at h ⊢
  exact h.imp_left .inl

theorem isBlank_of_isWordPart (h : isWordPart c = true) : Text.isBlank c = false := by
  by_cases hne : c = '_'
  · rw [hne]
    decide
  simp only [isWordPart_eq, hne, decide_false, Bool.or_false, Bool.or_eq_true, isAlpha_iff] at h
  rcases h with hletter | hdigit
  · simp [Text.isBlank, Text.blankRanges]
    omega
  · exact isBlank_of_isDigit hdigit

end

/-! ### Languages -/

/-- The texts of one character, which passes a test. -/
def one (test : Char → Bool) : Language Char :=
  {cs | ∃ c, test c = true ∧ cs = [c]}

/-- The texts of one or more characters that pass a test. -/
def run (test : Char → Bool) : Language Char :=
  one test * (one test)∗

section

variable {test : Char → Bool} {cs : List Char}

theorem mem_kstar_one : cs ∈ (one test)∗ ↔ ∀ c ∈ cs, test c = true := by
  constructor
  · intro h c hc
    obtain ⟨pieces, rfl, hpieces⟩ := Language.mem_kstar.mp h
    obtain ⟨piece, hpiece, hc⟩ := List.mem_flatten.mp hc
    obtain ⟨d, hd, rfl⟩ := hpieces piece hpiece
    rw [List.mem_singleton.mp hc]
    exact hd
  · intro h
    refine Language.mem_kstar.mpr ⟨cs.map fun c => [c], (List.flatMap_singleton' cs).symm, ?_⟩
    intro piece hpiece
    obtain ⟨c, hc, rfl⟩ := List.mem_map.mp hpiece
    exact ⟨c, h c hc, rfl⟩

theorem mem_one_mul {language : Language Char} :
    cs ∈ one test * language ↔ ∃ c rest, cs = c :: rest ∧ test c = true ∧ rest ∈ language := by
  constructor
  · intro h
    obtain ⟨_, ⟨c, hc, rfl⟩, rest, hrest, rfl⟩ := Language.mem_mul.mp h
    exact ⟨c, rest, rfl, hc, hrest⟩
  · rintro ⟨c, rest, rfl, hc, hrest⟩
    exact Language.mem_mul.mpr ⟨[c], ⟨c, hc, rfl⟩, rest, hrest, rfl⟩

theorem mem_run : cs ∈ run test ↔ cs ≠ [] ∧ ∀ c ∈ cs, test c = true := by
  rw [run, mem_one_mul]
  constructor
  · rintro ⟨c, rest, rfl, hc, hrest⟩
    exact ⟨List.cons_ne_nil c rest, List.forall_mem_cons.mpr ⟨hc, mem_kstar_one.mp hrest⟩⟩
  · rintro ⟨hne, hall⟩
    obtain ⟨c, rest, rfl⟩ := List.exists_cons_of_ne_nil hne
    rw [List.forall_mem_cons] at hall
    exact ⟨c, rest, rfl, hall.1, mem_kstar_one.mpr hall.2⟩

end

namespace Pattern

/-- The pieces that a pattern stands for. -/
def language : Pattern → Language Char
  | word => one isWordStart * (one isWordPart)∗
  | numeral => run Char.isDigit * (1 + {['.']} * run Char.isDigit)
  | blank => run Text.isBlank
  | comment => {['/', '/']} * (one (· ≠ '\n'))∗
  | mark sample _ _ => {sample}

variable {text piece : List Char} {pattern : Pattern} {literal : String} {kind : Kind}

theorem mem_word : piece ∈ word.language ↔
    ∃ c rest, piece = c :: rest ∧ isWordStart c = true ∧ ∀ d ∈ rest, isWordPart d = true := by
  simp only [language, mem_one_mul, mem_kstar_one]

theorem mem_numeral : piece ∈ numeral.language ↔
    ∃ whole tail, piece = whole ++ tail ∧ (whole ≠ [] ∧ ∀ c ∈ whole, c.isDigit = true) ∧
      (tail = [] ∨ ∃ fraction, tail = '.' :: fraction ∧ fraction ≠ [] ∧
        ∀ c ∈ fraction, c.isDigit = true) := by
  constructor
  · intro h
    obtain ⟨whole, hwhole, tail, htail, rfl⟩ := Language.mem_mul.mp h
    refine ⟨whole, tail, rfl, mem_run.mp hwhole, ?_⟩
    rcases (Language.mem_add _ _ _).mp htail with hnil | hpoint
    · exact .inl ((Language.mem_one _).mp hnil)
    · obtain ⟨_, rfl, fraction, hfraction, rfl⟩ := Language.mem_mul.mp hpoint
      exact .inr ⟨fraction, rfl, mem_run.mp hfraction⟩
  · rintro ⟨whole, tail, rfl, hwhole, htail⟩
    refine Language.mem_mul.mpr ⟨whole, mem_run.mpr hwhole, tail, ?_, rfl⟩
    rcases htail with rfl | ⟨fraction, rfl, hfraction⟩
    · exact .inl rfl
    · exact .inr (Language.mem_mul.mpr ⟨['.'], rfl, fraction, mem_run.mpr hfraction, rfl⟩)

theorem mem_comment : piece ∈ comment.language ↔
    ∃ remark, piece = '/' :: '/' :: remark ∧ ∀ c ∈ remark, c ≠ '\n' := by
  constructor
  · intro h
    obtain ⟨_, rfl, remark, hremark, rfl⟩ := Language.mem_mul.mp h
    exact ⟨remark, rfl, by simpa using mem_kstar_one.mp hremark⟩
  · rintro ⟨remark, rfl, hremark⟩
    have hall : remark ∈ (one (· ≠ '\n'))∗ := mem_kstar_one.mpr (by simpa using hremark)
    exact Language.mem_mul.mpr ⟨['/', '/'], rfl, remark, hall, rfl⟩

theorem mem_mark : piece ∈ (mark text literal kind).language ↔ piece = text :=
  Iff.rfl

/-! ### How far a pattern goes -/

/-- A test that some characters at the beginning of a text pass goes on at least to their end. -/
theorem length_le_takeWhile {test : Char → Bool} (hbegins : piece <+: text)
    (hall : ∀ c ∈ piece, test c = true) : piece.length ≤ (text.takeWhile test).length := by
  obtain ⟨rest, rfl⟩ := hbegins
  rw [List.takeWhile_append_of_pos hall, List.length_append]
  exact Nat.le_add_right _ _

/-- A numeral goes at least as far as its digits. -/
theorem digits_le_reach_numeral :
    (text.takeWhile Char.isDigit).length ≤ numeral.reach text := by
  unfold reach
  dsimp only
  split
  · split <;> omega
  · exact Nat.le_refl _

/-- Behind digits and a point, a numeral goes as far as the digits of its fraction. -/
theorem reach_numeral_point {whole rest : List Char} (hwhole : ∀ c ∈ whole, c.isDigit = true) :
    numeral.reach (whole ++ '.' :: rest) =
      if whole = [] ∨ rest.takeWhile Char.isDigit = [] then whole.length
      else whole.length + 1 + (rest.takeWhile Char.isDigit).length := by
  have htake : (whole ++ '.' :: rest).takeWhile Char.isDigit = whole := by
    rw [List.takeWhile_append_of_pos hwhole, List.takeWhile_cons_of_neg (by decide),
      List.append_nil]
  simp only [reach, htake, List.drop_left, List.length_eq_zero_iff]

/-- Without a point behind its digits, a numeral ends there. -/
theorem reach_numeral_of_ne (h : ∀ rest, text.dropWhile Char.isDigit ≠ '.' :: rest) :
    numeral.reach text = (text.takeWhile Char.isDigit).length := by
  unfold reach
  dsimp only
  rw [drop_length_takeWhile]
  split
  next rest hrest => exact absurd hrest (h rest)
  next => rfl

/-- What a numeral takes are digits, alone or with a fraction. -/
theorem take_reach_numeral_mem (h : 0 < numeral.reach text) :
    text.take (numeral.reach text) ∈ numeral.language := by
  have hdigits : ∀ c ∈ text.takeWhile Char.isDigit, c.isDigit = true :=
    List.all_eq_true.mp List.all_takeWhile
  -- Where there is no fraction, the digits are all that is taken.
  have hbare (hreach : numeral.reach text = (text.takeWhile Char.isDigit).length) :
      text.take (numeral.reach text) ∈ numeral.language := by
    rw [hreach] at h ⊢
    rw [take_length_takeWhile]
    refine mem_numeral.mpr ⟨_, [], (List.append_nil _).symm, ⟨?_, hdigits⟩, .inl rfl⟩
    exact List.ne_nil_of_length_pos h
  by_cases hpoint : ∃ rest, text.dropWhile Char.isDigit = '.' :: rest
  · obtain ⟨rest, hrest⟩ := hpoint
    have htext : text = text.takeWhile Char.isDigit ++ '.' :: rest := by
      rw [← hrest, List.takeWhile_append_dropWhile]
    have hreach := congrArg numeral.reach htext
    rw [reach_numeral_point hdigits] at hreach
    -- A point counts only with digits on both sides.
    by_cases hnone : text.takeWhile Char.isDigit = [] ∨ rest.takeWhile Char.isDigit = []
    · rw [if_pos hnone] at hreach
      exact hbare hreach
    · rw [if_neg hnone] at hreach
      rw [not_or] at hnone
      refine mem_numeral.mpr ⟨_, '.' :: rest.takeWhile Char.isDigit, ?_, ⟨hnone.1, hdigits⟩,
        .inr ⟨_, rfl, hnone.2, List.all_eq_true.mp List.all_takeWhile⟩⟩
      have hbegins :
          text.takeWhile Char.isDigit ++ '.' :: rest.takeWhile Char.isDigit <+: text := by
        conv_rhs => rw [htext]
        refine (List.prefix_append_right_inj _).mpr (List.cons_prefix_cons.mpr ⟨rfl, ?_⟩)
        exact List.takeWhile_prefix _
      have hlength : numeral.reach text
          = (text.takeWhile Char.isDigit ++ '.' :: rest.takeWhile Char.isDigit).length := by
        rw [hreach, List.length_append, List.length_cons]
        omega
      rw [hlength]
      exact (List.prefix_iff_eq_take.mp hbegins).symm
  · rw [not_exists] at hpoint
    exact hbare (reach_numeral_of_ne hpoint)

/-- A numeral takes every piece of its language that a text begins with. -/
theorem length_le_reach_numeral (hmem : piece ∈ numeral.language) (hbegins : piece <+: text) :
    piece.length ≤ numeral.reach text := by
  obtain ⟨whole, tail, rfl, ⟨hne, hwhole⟩, htail⟩ := mem_numeral.mp hmem
  rcases htail with rfl | ⟨fraction, rfl, hfraction, hdigits⟩
  · rw [List.append_nil] at hbegins ⊢
    exact Nat.le_trans (length_le_takeWhile hbegins hwhole) digits_le_reach_numeral
  · obtain ⟨more, rfl⟩ := hbegins
    have hle := length_le_takeWhile (List.prefix_append fraction more) hdigits
    have hpos := List.length_pos_iff.mpr hfraction
    rw [List.append_assoc, List.cons_append, reach_numeral_point hwhole, if_neg]
    · rw [List.length_append, List.length_cons]
      omega
    · rintro (hnil | hnil)
      · exact hne hnil
      · rw [hnil, List.length_nil] at hle
        omega

/-- What a pattern takes from a text is a piece of its language. -/
theorem take_reach_mem (h : 0 < pattern.reach text) :
    text.take (pattern.reach text) ∈ pattern.language := by
  cases pattern with
  | word =>
    cases text with
    | nil => cases h
    | cons c cs =>
      have hstart : isWordStart c = true := by
        by_contra hc
        simp [reach, hc] at h
      -- The first character is a word start and therefore part of the run that is taken.
      have hreach : word.reach (c :: cs) = (cs.takeWhile isWordPart).length + 1 := by
        simp [reach, hstart, List.takeWhile_cons_of_pos (isWordPart_of_isWordStart hstart)]
      rw [hreach, List.take_succ_cons, take_length_takeWhile]
      exact mem_word.mpr ⟨c, _, rfl, hstart, List.all_eq_true.mp List.all_takeWhile⟩
  | numeral => exact take_reach_numeral_mem h
  | blank =>
    rw [reach] at h ⊢
    rw [take_length_takeWhile]
    exact mem_run.mpr ⟨List.ne_nil_of_length_pos h, List.all_eq_true.mp List.all_takeWhile⟩
  | comment =>
    obtain ⟨rest, rfl⟩ := exists_of_reach_comment h
    rw [reach_comment, List.take_succ_cons, List.take_succ_cons, take_length_takeWhile]
    refine mem_comment.mpr ⟨_, rfl, fun c hc => ?_⟩
    simpa using List.all_eq_true.mp List.all_takeWhile c hc
  | mark piece literal kind =>
    by_cases hbegins : piece.isPrefixOf text
    · rw [reach, if_pos hbegins]
      exact mem_mark.mpr (List.prefix_iff_eq_take.mp (List.isPrefixOf_iff_prefix.mp hbegins)).symm
    · rw [reach, if_neg hbegins] at h
      cases h

/-- A pattern takes no less than any piece of its language that a text begins with. -/
theorem length_le_reach (hmem : piece ∈ pattern.language) (hbegins : piece <+: text) :
    piece.length ≤ pattern.reach text := by
  cases pattern with
  | word =>
    obtain ⟨c, rest, rfl, hstart, hrest⟩ := mem_word.mp hmem
    have hhead : text.head?.any isWordStart = true := by
      obtain ⟨more, rfl⟩ := hbegins
      exact hstart
    rw [reach, if_pos hhead]
    refine length_le_takeWhile hbegins (List.forall_mem_cons.mpr ⟨?_, hrest⟩)
    exact isWordPart_of_isWordStart hstart
  | numeral => exact length_le_reach_numeral hmem hbegins
  | blank => exact length_le_takeWhile hbegins (mem_run.mp hmem).2
  | comment =>
    obtain ⟨remark, rfl, hremark⟩ := mem_comment.mp hmem
    obtain ⟨more, rfl⟩ := hbegins
    have hle : remark.length ≤ ((remark ++ more).takeWhile (· ≠ '\n')).length :=
      length_le_takeWhile (List.prefix_append remark more) (by simpa using hremark)
    rw [List.cons_append, List.cons_append, reach_comment, List.length_cons, List.length_cons]
    omega
  | mark sample literal kind =>
    rw [mem_mark.mp hmem] at hbegins ⊢
    rw [reach, if_pos (List.isPrefixOf_iff_prefix.mpr hbegins)]

/-! ### The order of the table -/

/-- Whether a character can be the first one of a piece. -/
def opens : Pattern → Char → Bool
  | word, c => isWordStart c
  | numeral, c => c.isDigit
  | blank, c => Text.isBlank c
  | comment, c => c = '/'
  | mark sample _ _, c => sample.head? = some c

/-- Operators and brackets are not empty, have nothing in common with names, numerals and blanks,
and none of them opens a comment. -/
theorem sign_of_mem_table (h : mark text literal kind ∈ table) :
    text ≠ [] ∧ ¬ ['/', '/'] <+: text ∧
      ∀ c ∈ text, isWordPart c = false ∧ c.isDigit = false ∧ Text.isBlank c = false := by
  have hall : (table.all fun pattern => !(['/', '/'].isPrefixOf pattern.sample) &&
      pattern.sample.all fun c => !isWordPart c && !c.isDigit && !Text.isBlank c) = true := by
    decide
  have hne : text ≠ [] := by
    rintro rfl
    simp [table] at h
  have hsign := List.all_eq_true.mp hall _ h
  simp only [sample, Bool.and_eq_true, Bool.not_eq_true', List.all_eq_true, and_assoc] at hsign
  obtain ⟨hslashes, hchars⟩ := hsign
  refine ⟨hne, fun hbegins => ?_, hchars⟩
  rw [List.isPrefixOf_iff_prefix.mpr hbegins] at hslashes
  cases hslashes

/-- Every piece has a first character. -/
theorem exists_opens (hpattern : pattern ∈ table) (h : piece ∈ pattern.language) :
    ∃ c cs, piece = c :: cs ∧ pattern.opens c = true := by
  cases pattern with
  | word =>
    obtain ⟨c, rest, rfl, hc, -⟩ := mem_word.mp h
    exact ⟨c, rest, rfl, hc⟩
  | numeral =>
    obtain ⟨whole, tail, rfl, ⟨hne, hwhole⟩, -⟩ := mem_numeral.mp h
    obtain ⟨c, rest, rfl⟩ := List.exists_cons_of_ne_nil hne
    exact ⟨c, rest ++ tail, rfl, hwhole c List.mem_cons_self⟩
  | blank =>
    obtain ⟨hne, hall⟩ := mem_run.mp h
    obtain ⟨c, rest, rfl⟩ := List.exists_cons_of_ne_nil hne
    exact ⟨c, rest, rfl, hall c List.mem_cons_self⟩
  | comment =>
    obtain ⟨remark, rfl, -⟩ := mem_comment.mp h
    exact ⟨'/', '/' :: remark, rfl, rfl⟩
  | mark text literal kind =>
    obtain ⟨c, rest, rfl⟩ := List.exists_cons_of_ne_nil (sign_of_mem_table hpattern).1
    exact ⟨c, rest, mem_mark.mp h, by simp [opens]⟩

/-- The first character tells names, numerals and blanks from one another and from all else. -/
theorem eq_of_opens (hpattern : pattern ∈ table) {c : Char} (h : pattern.opens c = true) :
    (isWordStart c = true → pattern = word) ∧ (c.isDigit = true → pattern = numeral) ∧
      (Text.isBlank c = true → pattern = blank) := by
  have hdigit (hc : c.isDigit = true) := isWordStart_of_isDigit hc
  have hdigit' (hc : c.isDigit = true) := isBlank_of_isDigit hc
  have hletter (hc : isWordStart c = true) := isBlank_of_isWordPart (isWordPart_of_isWordStart hc)
  -- Letters, digits and blanks exclude each other, and no mark contains any of them.
  cases pattern with
  | word =>
    replace h : isWordStart c = true := h
    refine ⟨fun _ => rfl, fun hc => ?_, fun hc => ?_⟩
    · simp [hdigit hc] at h
    · simp [hletter h] at hc
  | numeral =>
    replace h : c.isDigit = true := h
    refine ⟨fun hc => ?_, fun _ => rfl, fun hc => ?_⟩
    · simp [hdigit h] at hc
    · simp [hdigit' h] at hc
  | blank =>
    replace h : Text.isBlank c = true := h
    refine ⟨fun hc => ?_, fun hc => ?_, fun _ => rfl⟩
    · simp [hletter hc] at h
    · simp [hdigit' hc] at h
  | comment =>
    obtain rfl : c = '/' := of_decide_eq_true h
    exact ⟨by decide, by decide, by decide⟩
  | mark text literal kind =>
    have hmem : c ∈ text := List.mem_of_head? (of_decide_eq_true h)
    obtain ⟨hpart, hnodigit, hnoblank⟩ := (sign_of_mem_table hpattern).2.2 c hmem
    refine ⟨fun hc => ?_, fun hc => ?_, fun hc => ?_⟩
    · simp [isWordPart_of_isWordStart hc] at hpart
    · simp [hc] at hnodigit
    · simp [hc] at hnoblank

/-- No piece of a pattern begins a piece of a later one. Between operators this is a matter of their
texts; all other patterns are told apart by their first characters. -/
theorem table_order : table.Pairwise fun earlier later =>
    ∀ piece ∈ earlier.language, ∀ piece' ∈ later.language, ¬ piece <+: piece' := by
  have hsigns : table.Pairwise fun earlier later => earlier ≠ later ∧
      (earlier.sample ≠ [] → later.sample ≠ [] ∧ ¬ earlier.sample <+: later.sample) := by
    decide +kernel
  refine hsigns.imp_of_mem ?_
  rintro earlier later hearlier hlater ⟨hne, hsign⟩ piece hpiece piece' hpiece' hbegins
  obtain ⟨c, cs, rfl, hc⟩ := exists_opens hearlier hpiece
  obtain ⟨d, ds, rfl, hd⟩ := exists_opens hlater hpiece'
  -- The two pieces have their first character in common, so that one decides on both patterns.
  obtain ⟨rfl, -⟩ := List.cons_prefix_cons.mp hbegins
  obtain ⟨hword, hnumeral, hblank⟩ := eq_of_opens hlater hd
  cases earlier with
  | word => exact hne (hword hc).symm
  | numeral => exact hne (hnumeral hc).symm
  | blank => exact hne (hblank hc).symm
  | comment =>
    obtain ⟨remark, hremark, -⟩ := mem_comment.mp hpiece
    obtain ⟨rfl, rfl⟩ := List.cons.inj hremark
    -- Behind comments, the table has operators, and none of them begins with two slashes.
    have hslashes : ['/', '/'] <+: '/' :: ds := (List.prefix_append _ remark).trans hbegins
    cases later with
    | comment => exact hne rfl
    | mark text literal kind =>
      rw [mem_mark.mp hpiece'] at hslashes
      exact (sign_of_mem_table hlater).2.1 hslashes
    | word => cases hd
    | numeral => cases hd
    | blank => exact absurd hd (by decide)
  | mark text literal kind =>
    have hsign := hsign (sign_of_mem_table hearlier).1
    cases later with
    | mark text' literal' kind' =>
      rw [mem_mark.mp hpiece, mem_mark.mp hpiece'] at hbegins
      exact hsign.2 hbegins
    | _ => exact hsign.1 rfl

end Pattern

/-! ### The longest piece -/

/-- Whether a piece that belongs to a pattern is the longest of all pieces that a text begins
with. -/
structure Longest (text : List Char) (pattern : Pattern) (piece : List Char) : Prop where
  mem : pattern ∈ Pattern.table
  accepts : piece ∈ pattern.language
  begins : piece <+: text
  longest : ∀ other ∈ Pattern.table, ∀ piece' ∈ other.language, piece' <+: text →
    piece'.length ≤ piece.length

section

variable {text piece piece' : List Char} {pattern pattern' : Pattern}

/-- A pattern applies to a text that begins with one of its pieces. -/
theorem reach_pos_iff (hpattern : pattern ∈ Pattern.table) :
    0 < pattern.reach text ↔ ∃ piece ∈ pattern.language, piece <+: text := by
  constructor
  · intro h
    exact ⟨_, Pattern.take_reach_mem h, List.take_prefix _ text⟩
  · rintro ⟨piece, hpiece, hbegins⟩
    obtain ⟨c, cs, rfl, -⟩ := Pattern.exists_opens hpattern hpiece
    exact Nat.lt_of_lt_of_le (Nat.succ_pos _) (Pattern.length_le_reach hpiece hbegins)

/-- No pattern is found exactly if no piece of any pattern begins the text. -/
theorem first?_eq_none_iff : Pattern.first? text = none ↔
    ∀ pattern ∈ Pattern.table, ∀ piece ∈ pattern.language, ¬ piece <+: text := by
  rw [Pattern.first?, List.find?_eq_none]
  refine forall₂_congr fun pattern hpattern => ?_
  rw [decide_eq_true_eq, reach_pos_iff hpattern]
  simp

/-- The first pattern that applies takes the longest piece. The patterns in front of it do not
apply, and none behind it goes further. -/
theorem longest_of_first? (h : Pattern.first? text = some pattern) :
    Longest text pattern (text.take (pattern.reach text)) := by
  have hpos := Pattern.reach_pos_of_first? h
  have hmem : pattern ∈ Pattern.table := List.mem_of_find?_eq_some h
  have haccepts := Pattern.take_reach_mem hpos
  have hbegins : text.take (pattern.reach text) <+: text := List.take_prefix _ text
  refine ⟨hmem, haccepts, hbegins, fun other hother piece' hpiece' hbegins' => ?_⟩
  obtain ⟨-, earlier, later, htable, hearlier⟩ := List.find?_eq_some_iff_append.mp h
  have horder := Pattern.table_order
  rw [htable] at hother horder
  rcases List.mem_append.mp hother with hother | hother
  · -- An earlier pattern applies if it has a piece here, and would have been found.
    have happlies := (reach_pos_iff (by simp [htable, hother])).mpr ⟨piece', hpiece', hbegins'⟩
    exact absurd happlies (by simpa using hearlier other hother)
  rcases List.mem_cons.mp hother with rfl | hother
  · have hle := Pattern.length_le_reach hpiece' hbegins'
    rw [List.length_take]
    exact Nat.le_min.mpr ⟨hle, hbegins'.length_le⟩
  · have hlater := (List.pairwise_cons.mp (List.pairwise_append.mp horder).2.1).1 other hother
    rcases List.prefix_or_prefix_of_prefix hbegins hbegins' with hbegins | hbegins
    · exact absurd hbegins (hlater _ haccepts _ hpiece')
    · exact hbegins.length_le

/-- A piece belongs to one pattern only. -/
theorem eq_of_mem_language (hmem : pattern ∈ Pattern.table) (hmem' : pattern' ∈ Pattern.table)
    (h : piece ∈ pattern.language) (h' : piece ∈ pattern'.language) : pattern = pattern' := by
  by_contra hne
  have hdisjoint : Pattern.table.Pairwise fun earlier later =>
      ¬ (piece ∈ earlier.language ∧ piece ∈ later.language) := by
    refine Pattern.table_order.imp fun horder hboth => ?_
    exact horder piece hboth.1 piece hboth.2 (List.prefix_refl piece)
  have hsymm : Std.Symm fun earlier later : Pattern =>
      ¬ (piece ∈ earlier.language ∧ piece ∈ later.language) :=
    ⟨fun _ _ hnot hboth => hnot hboth.symm⟩
  exact hdisjoint.forall hmem hmem' hne ⟨h, h'⟩

/-- There is only one longest piece, and only one pattern that it belongs to. -/
theorem Longest.unique (h : Longest text pattern piece) (h' : Longest text pattern' piece') :
    pattern = pattern' ∧ piece = piece' := by
  have hle := h'.longest pattern h.mem piece h.accepts h.begins
  have hle' := h.longest pattern' h'.mem piece' h'.accepts h'.begins
  have hpiece : piece = piece' :=
    (List.prefix_of_prefix_length_le h.begins h'.begins hle).eq_of_length_le hle'
  subst hpiece
  exact ⟨eq_of_mem_language h.mem h'.mem h.accepts h'.accepts, rfl⟩

/-- The longest piece is the one that the first pattern takes. -/
theorem Longest.first?_eq (h : Longest text pattern piece) :
    Pattern.first? text = some pattern ∧ text.take (pattern.reach text) = piece := by
  cases hfirst : Pattern.first? text with
  | none => exact absurd h.begins (first?_eq_none_iff.mp hfirst pattern h.mem piece h.accepts)
  | some first =>
    obtain ⟨rfl, hpiece⟩ := h.unique (longest_of_first? hfirst)
    exact ⟨rfl, hpiece.symm⟩

/-- Scanning cuts off the longest piece and goes on behind it. -/
theorem Longest.scanFrom_eq {rest : List Char} (h : Longest (piece ++ rest) pattern piece)
    (offset : Nat) : scanFrom offset (piece ++ rest) =
      (scanFrom (offset + Text.width piece) rest).map
        ((ofPiece? pattern offset piece).toList ++ ·) := by
  obtain ⟨hfirst, htake⟩ := h.first?_eq
  have hdrop : (piece ++ rest).drop (pattern.reach (piece ++ rest)) = rest := by
    have happend := List.take_append_drop (pattern.reach (piece ++ rest)) (piece ++ rest)
    rw [htake] at happend
    exact List.append_cancel_left happend
  obtain ⟨c, cs, hcons, -⟩ := Pattern.exists_opens h.mem h.accepts
  generalize htext : piece ++ rest = text at *
  obtain rfl : text = c :: (cs ++ rest) := by
    rw [← htext, hcons, List.cons_append]
  rw [scanFrom]
  split
  next hnone => cases hnone.symm.trans hfirst
  next first hsome =>
    cases hsome.symm.trans hfirst
    simp only [Pattern.piece_eq_take hfirst, Text.skip_width_take]
    rw [htake, hdrop]
    cases scanFrom (offset + Text.width piece) rest with
    | error fault => rfl
    | ok tokens => rfl

end

/-! ### The loop -/

/-- What scanning has in hand in front of a piece: the tokens so far, where it is, and what is
left. -/
structure ScanState where
  tokens : List Token
  offset : Nat
  rest : List Char

namespace ScanState

/-- In front of the first piece. -/
def start (text : String) : ScanState :=
  ⟨[], 0, text.toList⟩

/-- What a pattern takes. -/
def piece (s : ScanState) (pattern : Pattern) : List Char :=
  pattern.piece s.rest

/-- Behind the piece that a pattern takes. -/
def next (s : ScanState) (pattern : Pattern) : ScanState :=
  ⟨s.tokens ++ (ofPiece? pattern s.offset (s.piece pattern)).toList,
    s.offset + Text.width (s.piece pattern), Text.skip (Text.width (s.piece pattern)) s.rest⟩

end ScanState

/-- The states in which scanning a text begins a round. -/
inductive Visits (text : String) : ScanState → Prop
  | start : Visits text (.start text)
  | next {s : ScanState} {pattern : Pattern} :
      Visits text s → Pattern.first? s.rest = some pattern → Visits text (s.next pattern)

section

variable {text : String} {s : ScanState} {pattern : Pattern}

/-- A pattern that applies cuts off its piece. -/
theorem ScanState.rest_eq (h : Pattern.first? s.rest = some pattern) :
    s.rest = s.piece pattern ++ (s.next pattern).rest := by
  show s.rest = pattern.piece s.rest ++ Text.skip _ s.rest
  rw [piece, Pattern.skip_piece h, Pattern.piece_eq_take h, List.take_append_drop]

/-- The piece that it cuts off is the longest one. -/
theorem ScanState.longest_piece (h : Pattern.first? s.rest = some pattern) :
    Longest s.rest pattern (s.piece pattern) := by
  rw [piece, Pattern.piece_eq_take h]
  exact longest_of_first? h

/-- Every round takes a piece, so less is left behind it. -/
theorem ScanState.length_next_lt (h : Pattern.first? s.rest = some pattern) :
    (s.next pattern).rest.length < s.rest.length := by
  show (Text.skip (Text.width (pattern.piece s.rest)) s.rest).length < s.rest.length
  rw [Pattern.skip_piece h]
  cases hrest : s.rest with
  | nil =>
    rw [hrest] at h
    cases h
  | cons c cs =>
    rw [hrest] at h
    exact Pattern.length_drop_reach_lt h

/-- One round: the rest is scanned behind the piece. -/
theorem scanFrom_next (h : Pattern.first? s.rest = some pattern) :
    scanFrom s.offset s.rest = (scanFrom (s.next pattern).offset (s.next pattern).rest).map
      ((ofPiece? pattern s.offset (s.piece pattern)).toList ++ ·) := by
  have hlongest := ScanState.longest_piece h
  rw [ScanState.rest_eq h] at hlongest
  have hscan := hlongest.scanFrom_eq s.offset
  rwa [← ScanState.rest_eq h] at hscan

/-- Every round: what is in hand, and what scanning makes of the rest, is what it makes of the whole
text. -/
theorem Visits.scan_eq (h : Visits text s) :
    scan text = (scanFrom s.offset s.rest).map (s.tokens ++ ·) := by
  induction h with
  | start =>
    show scanFrom 0 text.toList = (scanFrom 0 text.toList).map ([] ++ ·)
    cases scanFrom 0 text.toList <;> rfl
  | @next s pattern _ hfirst ih =>
    rw [ih, scanFrom_next hfirst]
    cases scanFrom (s.next pattern).offset (s.next pattern).rest with
    | error fault => rfl
    | ok tokens =>
      show Except.ok (s.tokens ++ (_ ++ tokens)) = Except.ok (s.tokens ++ _ ++ tokens)
      rw [List.append_assoc]

/-- Every round begins at the offset of what is left. -/
theorem Visits.exists_front (h : Visits text s) :
    ∃ front, text.toList = front ++ s.rest ∧ Text.width front = s.offset := by
  induction h with
  | start => exact ⟨[], rfl, rfl⟩
  | @next s pattern _ hfirst ih =>
    obtain ⟨front, htext, hwidth⟩ := ih
    refine ⟨front ++ s.piece pattern, ?_, ?_⟩
    · rw [htext, List.append_assoc, ← ScanState.rest_eq hfirst]
    · rw [Text.width_append, hwidth]
      rfl

/-- The last round of a text that cannot be taken apart. The induction is on what is left. -/
theorem Visits.exists_stuck {s : ScanState} (h : Visits text s) {fault : Fault}
    (hfault : scanFrom s.offset s.rest = .error fault) :
    ∃ s' c cs, Visits text s' ∧ s'.rest = c :: cs ∧ Pattern.first? s'.rest = none ∧
      fault = ⟨.unrecognised (String.singleton c), s'.offset⟩ := by
  rcases hrest : s.rest with _ | ⟨c, cs⟩
  · rw [hrest, scanFrom] at hfault
    cases hfault
  cases hfirst : Pattern.first? s.rest with
  | none =>
    refine ⟨s, c, cs, h, hrest, hfirst, ?_⟩
    rw [hrest] at hfault hfirst
    rcases scanFrom_cons_error.mp hfault with ⟨-, rfl⟩ | ⟨pattern, _, _, hsome, -⟩
    · rfl
    · cases hfirst.symm.trans hsome
  | some pattern =>
    -- A piece is taken, and the fault is the one of the shorter rest.
    have hshorter := ScanState.length_next_lt hfirst
    rw [scanFrom_next hfirst] at hfault
    cases hscan : scanFrom (s.next pattern).offset (s.next pattern).rest with
    | ok tokens =>
      rw [hscan] at hfault
      cases hfault
    | error fault' =>
      rw [hscan] at hfault
      cases hfault
      exact (h.next hfirst).exists_stuck hscan
termination_by s.rest.length

/-- A text cannot be taken apart exactly if scanning comes to a character, in front of which no
pattern has a piece; that is where the fault stands, and what it is about. -/
theorem scan_error_iff {fault : Fault} : scan text = .error fault ↔
    ∃ s c cs, Visits text s ∧ s.rest = c :: cs ∧
      (∀ pattern ∈ Pattern.table, ∀ piece ∈ pattern.language, ¬ piece <+: c :: cs) ∧
      fault = ⟨.unrecognised (String.singleton c), s.offset⟩ := by
  constructor
  · intro h
    obtain ⟨s, c, cs, hvisits, hrest, hnone, hfault⟩ := Visits.exists_stuck .start h
    rw [hrest] at hnone
    exact ⟨s, c, cs, hvisits, hrest, first?_eq_none_iff.mp hnone, hfault⟩
  · rintro ⟨s, c, cs, hvisits, hrest, hnone, rfl⟩
    have hstuck : scanFrom s.offset (c :: cs)
        = .error ⟨.unrecognised (String.singleton c), s.offset⟩ :=
      scanFrom_cons_error.mpr (.inl ⟨first?_eq_none_iff.mpr hnone, rfl⟩)
    rw [hvisits.scan_eq, hrest, hstuck]
    rfl

/-! ### Words -/

/-- A word has the kind that it is reserved for, if there is one. -/
theorem reservedKind?_eq_some_iff {word : String} {kind : Kind} :
    reservedKind? word = some kind ↔ (word, kind) ∈ reserved := by
  constructor
  · intro h
    obtain ⟨front, back, hreserved, -⟩ := List.lookup_eq_some_iff.mp h
    simp [hreserved]
  · intro h
    have hall : ∀ entry ∈ reserved, reservedKind? entry.1 = some entry.2 := by decide
    exact hall _ h

/-- Two slashes open a comment. -/
theorem first?_comment (rest : List Char) :
    Pattern.first? ('/' :: '/' :: rest) = some .comment := by
  have hword : Pattern.word.reach ('/' :: '/' :: rest) = 0 := rfl
  have hnumeral : Pattern.numeral.reach ('/' :: '/' :: rest) = 0 := rfl
  have hblank : Pattern.blank.reach ('/' :: '/' :: rest) = 0 := rfl
  simp [Pattern.first?, Pattern.table, hword, hnumeral, hblank, reach_comment]

/-- A name becomes a token of its own. It is a keyword exactly if it is reserved. -/
theorem next_word (s : ScanState) :
    ∃ kind, (s.next .word).tokens = s.tokens ++ [⟨kind, String.ofList (s.piece .word),
        ⟨s.offset, s.offset + Text.width (s.piece .word)⟩⟩] ∧
      (∀ keyword, keyword ≠ .identifier →
        (kind = keyword ↔ (String.ofList (s.piece .word), keyword) ∈ reserved)) ∧
      (kind = .identifier ↔
        String.ofList (s.piece .word) ∉ ["fn", "return", "if", "else", "new", "number"]) := by
  refine ⟨_, rfl, ?_, ?_⟩
  · intro keyword hkeyword
    rw [← reservedKind?_eq_some_iff]
    cases reservedKind? (String.ofList (s.piece .word)) with
    | none => simp [hkeyword.symm]
    | some kind => simp
  · have hwords : ["fn", "return", "if", "else", "new", "number"] = reserved.map Prod.fst := rfl
    rw [hwords]
    cases hkind : reservedKind? (String.ofList (s.piece .word)) with
    | none =>
      refine ⟨fun _ hmem => ?_, fun _ => rfl⟩
      obtain ⟨entry, hentry, hword⟩ := List.mem_map.mp hmem
      rw [← hword] at hkind
      cases hkind.symm.trans (reservedKind?_eq_some_iff.mpr hentry)
    | some kind =>
      have hentry := reservedKind?_eq_some_iff.mp hkind
      -- No reserved word has the kind of names.
      have hall : ∀ entry ∈ reserved, entry.2 ≠ .identifier := by decide
      refine ⟨fun hidentifier => absurd hidentifier (hall _ hentry), fun hnot => ?_⟩
      exact absurd (List.mem_map.mpr ⟨_, hentry, rfl⟩) hnot

/-- The first match is the longest match. Scanning a text goes from state to state, always at the
offset of what is left, and its outcome in the whole is the one that it has from there on. Each
time, it takes the longest piece of any pattern that the rest begins with, and where the rest begins
with two slashes, this is a comment. A name is a keyword exactly if it is one of the six reserved
words. The text cannot be taken apart exactly if scanning comes to a place in front of the end where
the rest begins with no piece of any pattern. Then the fault stands at that place, with the
character there. -/
theorem scan_longest (text : String) :
    (∀ s, Visits text s →
      (∃ front, text.toList = front ++ s.rest ∧ Text.width front = s.offset) ∧
      scan text = (scanFrom s.offset s.rest).map (s.tokens ++ ·) ∧
      ∀ pattern, Pattern.first? s.rest = some pattern →
        Longest s.rest pattern (s.piece pattern) ∧
        (['/', '/'] <+: s.rest → pattern = .comment) ∧
        (pattern = .word → ∃ kind,
          (s.next pattern).tokens = s.tokens ++ [⟨kind, String.ofList (s.piece pattern),
            ⟨s.offset, s.offset + Text.width (s.piece pattern)⟩⟩] ∧
          (∀ keyword, keyword ≠ .identifier →
            (kind = keyword ↔ (String.ofList (s.piece pattern), keyword) ∈ reserved)) ∧
          (kind = .identifier ↔ String.ofList (s.piece pattern)
            ∉ ["fn", "return", "if", "else", "new", "number"]))) ∧
    ∀ fault, scan text = .error fault ↔
      ∃ s c cs, Visits text s ∧ s.rest = c :: cs ∧
        (∀ pattern ∈ Pattern.table, ∀ piece ∈ pattern.language, ¬ piece <+: c :: cs) ∧
        fault = ⟨.unrecognised (String.singleton c), s.offset⟩ := by
  refine ⟨fun s hvisits => ⟨hvisits.exists_front, hvisits.scan_eq, fun pattern hfirst => ?_⟩,
    fun fault => scan_error_iff⟩
  refine ⟨ScanState.longest_piece hfirst, ?_, ?_⟩
  · rintro ⟨rest, hrest⟩
    rw [← hrest, List.cons_append, List.cons_append, List.nil_append, first?_comment] at hfirst
    exact (Option.some.inj hfirst).symm
  · rintro rfl
    exact next_word s

end

/-- A name that starts with a reserved word, an operator that starts with another one, and a
character without a meaning. -/
theorem scan_longest_section :
    ∃ s, Visits "if1<=§" s ∧ s.rest = ['§'] ∧
      s.tokens.map (fun token => (token.kind, token.text))
        = [(.identifier, "if1"), (.lessEquals, "<=")] ∧
      scan "if1<=§" = .error ⟨.unrecognised "§", 5⟩ := by
  have hvisits : Visits "if1<=§"
      (((ScanState.start "if1<=§").next .word).next (.mark ['<', '='] "<=" .lessEquals)) :=
    (Visits.start.next (by decide +kernel)).next (by decide +kernel)
  generalize hs : ((ScanState.start "if1<=§").next .word).next (.mark ['<', '='] "<=" .lessEquals) = s
    at hvisits
  have hrest : s.rest = ['§'] := by
    rw [← hs]
    decide +kernel
  have hoffset : s.offset = 5 := by
    rw [← hs]
    decide +kernel
  have hnone : Pattern.first? ['§'] = none := by decide +kernel
  refine ⟨s, hvisits, hrest, ?_, ?_⟩
  · rw [← hs]
    decide +kernel
  · refine ((scan_longest "if1<=§").2 _).mpr
      ⟨s, '§', [], hvisits, hrest, first?_eq_none_iff.mp hnone, ?_⟩
    have hchar : String.singleton '§' = "§" := by decide +kernel
    rw [hoffset, hchar]

end ArrayScript.Token
