import ArrayScript.Proofs.Lines

/-!
# `ArrayScript.Proofs.Offsets`: the line around a byte

An offset counts bytes, and it may point into the middle of a character. A text consists of
characters, though, and its lines are found by adding up widths. This module says what is found in
terms of bytes alone: the line breaks in front of an offset, the last one among them, and the next
one from the offset on (`Text.lineStart`, `Text.lineStop`).

Bytes and characters are cut at the same places, because a line break is one byte and no other
character has that byte (`Text.breakByte_mem`). So what is known of characters carries over:

* `Text.exists_char`: every byte of a text belongs to a character.
* `Text.lineStart_append` and `Text.lineStop_append`: the line around a byte of a character begins
  and ends where it does for the character.

The end of the text is no byte. It belongs to the last line, which is then given without its line
break. `Text.exists_endsWith` finds that line. No line holds the end, so the search runs out of lines
with a count that is one too high (`Text.findLine_width`), and `Text.lineAt?_width` says that the
number made from it is that of the last line all the same. `Text.line_around_byte` is the result for
all offsets.
-/

set_option autoImplicit false

namespace ArrayScript.Text

/-! ### Bytes -/

/-- The bytes of a text in UTF-8. -/
def bytes (text : List Char) : List UInt8 :=
  text.flatMap String.utf8EncodeChar

example (text : List Char) : (bytes text).toByteArray = text.utf8Encode := rfl

/-- The byte of a line break. -/
def breakByte : UInt8 :=
  10

@[simp]
theorem bytes_cons (c : Char) (cs : List Char) :
    bytes (c :: cs) = String.utf8EncodeChar c ++ bytes cs :=
  List.flatMap_cons

@[simp]
theorem bytes_append (cs ds : List Char) : bytes (cs ++ ds) = bytes cs ++ bytes ds :=
  List.flatMap_append

/-- A text has as many bytes as its width says. -/
@[simp]
theorem length_bytes (text : List Char) : (bytes text).length = width text := by
  induction text with
  | nil => rfl
  | cons c cs ih => simp [ih]

/-- All bytes of a character that takes several of them have their highest bit set. -/
theorem highest_bit_of_wide {c : Char} (h : 127 < c.val.toNat) :
    ∀ b ∈ String.utf8EncodeChar c, 128 ≤ b.toNat := by
  have hnot : ¬ c.val.toNat ≤ 127 := by omega
  simp only [String.utf8EncodeChar, hnot, if_false]
  -- Two, three and four bytes.
  split
  on_goal 2 => split
  all_goals
    simp only [List.forall_mem_cons, List.not_mem_nil, false_imp_iff, implies_true, and_true,
      UInt8.toNat_ofNat']
    omega

/-- A line break is one byte, and no other character has this byte. -/
theorem breakByte_mem {c : Char} : breakByte ∈ String.utf8EncodeChar c ↔ c = '\n' := by
  constructor
  · intro hmem
    by_cases hcode : c.val.toNat ≤ 127
    · -- A single byte is the code of its character.
      simp only [String.utf8EncodeChar, hcode, if_true, List.mem_singleton] at hmem
      have hnat : 10 = c.val.toNat % 256 := by
        rw [← UInt8.toNat_ofNat', ← hmem]
        rfl
      exact Char.ext (UInt32.toNat_inj.mp (show c.val.toNat = 10 by omega))
    · exact absurd (highest_bit_of_wide (Nat.not_le.mp hcode) _ hmem) (by decide)
  · rintro rfl
    decide

/-- Bytes and characters are cut behind the same line break. -/
theorem upTo_bytes (cs : List Char) : upTo breakByte (bytes cs) = bytes (upTo '\n' cs) := by
  induction cs with
  | nil => rfl
  | cons c cs ih =>
    by_cases hc : c = '\n'
    · subst hc
      rw [upTo_cons_self]
      exact upTo_cons_self (bytes cs)
    · have hbyte : breakByte ∉ String.utf8EncodeChar c := mt breakByte_mem.mp hc
      have hchar : '\n' ∉ [c] := by simpa using Ne.symm hc
      have hcons : upTo '\n' (c :: cs) = c :: upTo '\n' cs := upTo_append_of_not_mem hchar cs
      rw [bytes_cons, upTo_append_of_not_mem hbyte, ih, hcons, bytes_cons]

/-- There are as many bytes of line breaks as line breaks. -/
theorem count_bytes (cs : List Char) : (bytes cs).count breakByte = cs.count '\n' := by
  induction cs with
  | nil => rfl
  | cons c cs ih =>
    rw [bytes_cons, List.count_append, ih]
    by_cases hc : c = '\n'
    · subst hc
      rw [List.count_cons_self, Nat.add_comm]
      rfl
    · rw [List.count_cons_of_ne hc, List.count_eq_zero_of_not_mem (mt breakByte_mem.mp hc),
        Nat.zero_add]

/-! ### The bytes around a byte -/

variable {text above before front back : List Char} {c : Char} {inside offset : Nat}

/-- Every byte of a text belongs to a character. -/
theorem exists_char (h : offset < width text) :
    ∃ front c back inside, text = front ++ c :: back ∧ offset = width front + inside ∧
      inside < c.utf8Size := by
  induction text generalizing offset with
  | nil => cases h
  | cons c cs ih =>
    by_cases hlt : offset < c.utf8Size
    · exact ⟨[], c, cs, offset, rfl, by simp, hlt⟩
    · rw [width_cons] at h
      obtain ⟨front, d, back, inside, rfl, hoffset, hinside⟩ :=
        ih (show offset - c.utf8Size < width cs by omega)
      refine ⟨c :: front, d, back, inside, rfl, ?_, hinside⟩
      rw [width_cons]
      omega

theorem take_bytes (front back : List Char) (count : Nat) :
    (bytes (front ++ back)).take (width front + count)
      = bytes front ++ (bytes back).take count := by
  rw [bytes_append, ← length_bytes, List.take_length_add_append]

theorem drop_bytes (front back : List Char) (count : Nat) :
    (bytes (front ++ back)).drop (width front + count) = (bytes back).drop count := by
  rw [bytes_append, ← length_bytes, List.drop_length_add_append]

/-- Between the first byte of a character and a byte inside it there is no line break, because a
line break has no second byte. -/
theorem breakByte_not_mem_take (back : List Char) (h : inside < c.utf8Size) :
    breakByte ∉ (bytes (c :: back)).take inside := by
  intro hmem
  have hle : inside ≤ (String.utf8EncodeChar c).length := by
    rw [String.length_utf8EncodeChar]
    omega
  rw [bytes_cons, List.take_append_of_le_length hle] at hmem
  obtain rfl := breakByte_mem.mp (List.mem_of_mem_take hmem)
  obtain rfl : inside = 0 := Nat.lt_one_iff.mp h
  cases hmem

/-! ### Where a line begins and ends -/

/-- Where the line around an offset begins: behind the last line break in front of the offset, or at
the beginning of the text. -/
def lineStart (bs : List UInt8) (offset : Nat) : Nat :=
  ((bs.take offset).rdropWhile (· ≠ breakByte)).length

/-- Where the line around an offset ends: behind the next line break from the offset on, or at the
end of the text. -/
def lineStop (bs : List UInt8) (offset : Nat) : Nat :=
  offset + (upTo breakByte (bs.drop offset)).length

/-- The line around a byte of a character begins where the line breaks in front of the character
end. -/
theorem lineStart_append (hends : ∀ d ∈ above.getLast?, d = '\n') (hbefore : '\n' ∉ before)
    (back : List Char) (hinside : inside < c.utf8Size) :
    lineStart (bytes (above ++ before ++ c :: back)) (width (above ++ before) + inside)
      = width above := by
  have hbetween : ∀ b ∈ bytes before ++ (bytes (c :: back)).take inside, b ≠ breakByte := by
    intro b hb hbreak
    subst hbreak
    rcases List.mem_append.mp hb with hb | hb
    · have hpos := List.count_pos_iff.mpr hb
      rw [count_bytes, List.count_eq_zero_of_not_mem hbefore] at hpos
      exact Nat.lt_irrefl 0 hpos
    · exact breakByte_not_mem_take back hinside hb
  have habove : (bytes above).rdropWhile (· ≠ breakByte) = bytes above := by
    rcases List.eq_nil_or_concat' above with rfl | ⟨init, d, rfl⟩
    · rfl
    · obtain rfl : d = '\n' := hends d (by simp)
      rw [bytes_append]
      exact List.rdropWhile_concat_neg _ _ breakByte (by simp)
  have hdrop : ∀ b ∈ (bytes before ++ (bytes (c :: back)).take inside).reverse,
      decide (b ≠ breakByte) = true := by
    intro b hb
    exact decide_eq_true (hbetween b (List.mem_reverse.mp hb))
  rw [lineStart, take_bytes, bytes_append, List.append_assoc, List.rdropWhile, List.reverse_append,
    List.dropWhile_append_of_pos hdrop, ← List.rdropWhile, habove, length_bytes]

/-- The line around a byte of a character ends where it does for the character. -/
theorem lineStop_append (front back : List Char) (hinside : inside < c.utf8Size) :
    lineStop (bytes (front ++ c :: back)) (width front + inside)
      = width front + width (upTo '\n' (c :: back)) := by
  have hsplit := upTo_append_of_not_mem (breakByte_not_mem_take back hinside)
    ((bytes (c :: back)).drop inside)
  rw [List.take_append_drop, upTo_bytes] at hsplit
  have hlength := congrArg List.length hsplit
  have hle : inside ≤ width (c :: back) := by
    rw [width_cons]
    omega
  rw [List.length_append, List.length_take, length_bytes, length_bytes] at hlength
  rw [lineStop, drop_bytes]
  omega

/-- The line around a byte of a character has the bytes from where it begins to where it ends. -/
theorem bytes_line (front back : List Char) (hinside : inside < c.utf8Size) :
    lineStart (bytes (front ++ c :: back)) (width front + inside) + width (lastLine front)
        = width front ∧
      bytes (lastLine front ++ upTo '\n' (c :: back))
        = (bytes (front ++ c :: back)).extract
            (lineStart (bytes (front ++ c :: back)) (width front + inside))
            (lineStop (bytes (front ++ c :: back)) (width front + inside)) := by
  obtain ⟨above, hfront, hends⟩ := exists_above front
  have hbefore := not_mem_lastLine front
  generalize lastLine front = before at hfront hbefore
  subst hfront
  rw [lineStart_append hends hbefore back hinside, lineStop_append _ _ hinside]
  refine ⟨(width_append above before).symm, ?_⟩
  -- The text is the lines above, the line itself, and what stands behind it.
  have hback : upTo '\n' (c :: back) ++ (c :: back).drop ((c :: back).idxOf '\n' + 1) = c :: back :=
    List.take_append_drop _ _
  have htext : bytes (above ++ before ++ c :: back)
      = bytes above ++ (bytes (before ++ upTo '\n' (c :: back))
          ++ bytes ((c :: back).drop ((c :: back).idxOf '\n' + 1))) := by
    rw [← bytes_append, ← bytes_append, List.append_assoc, List.append_assoc, hback]
  have hlength : width (above ++ before) + width (upTo '\n' (c :: back)) - width above
      = (bytes (before ++ upTo '\n' (c :: back))).length := by
    rw [length_bytes, width_append, width_append]
    omega
  show _ = List.take _ (List.drop _ _)
  rw [htext, ← length_bytes above, List.drop_left, length_bytes above, hlength, List.take_left]

/-! ### The end of a text -/

/-- The number of lines of a text: one for each line break, and one for what stands behind the last
of them, if anything does. -/
def lineCount (text : List Char) : Nat :=
  text.count '\n' + if lastLine text = [] then 0 else 1

/-- Cutting makes as many lines as a text has. -/
theorem length_lines (text : List Char) : (lines text).length = lineCount text := by
  obtain ⟨above, htext, hends⟩ := exists_above text
  have hlast := not_mem_lastLine text
  have hcount : text.count '\n' = above.count '\n' := by
    conv_lhs => rw [htext]
    rw [List.count_append, List.count_eq_zero_of_not_mem hlast, Nat.add_zero]
  have hlines : lines text = lines above ++ lines (lastLine text) := by
    conv_lhs => rw [htext]
    exact lines_append_of_ends hends
  rw [hlines, List.length_append, length_lines_of_ends hends, lineCount, hcount]
  by_cases hnil : lastLine text = []
  · rw [if_pos hnil, hnil]
    rfl
  · rw [if_neg hnil, lines_of_not_mem hlast hnil]
    rfl

/-- Whether a text ends with a line that consists of `last` and the line break `ending`. A line
break may be missing at the end, and a carriage return in front of one belongs to it. -/
structure EndsWith (text last ending : List Char) : Prop where
  above : ∃ above, text = above ++ (last ++ ending) ∧ ∀ c ∈ above.getLast?, c = '\n'
  single : '\n' ∉ last
  present : last ++ ending ≠ []
  ending : ending = [] ∨ ending = ['\r', '\n'] ∨ ending = ['\n'] ∧ last.getLast? ≠ some '\r'

/-- A text that is not empty ends with a line. -/
theorem exists_endsWith (hne : text ≠ []) : ∃ last ending, EndsWith text last ending := by
  obtain ⟨above, htext, hends⟩ := exists_above text
  by_cases hlast : lastLine text = []
  · -- The text ends with a line break, so its last line is that of what stands in front of it.
    rw [hlast, List.append_nil] at htext
    subst htext
    obtain ⟨init, d, rfl⟩ := (List.eq_nil_or_concat' text).resolve_left hne
    obtain rfl : d = '\n' := hends d (by simp)
    obtain ⟨above, hinit, habove⟩ := exists_above init
    have hsingle := not_mem_lastLine init
    generalize lastLine init = body at hinit hsingle
    subst hinit
    by_cases hreturn : body.getLast? = some '\r'
    · obtain ⟨last, rfl⟩ := List.getLast?_eq_some_iff.mp hreturn
      refine ⟨last, ['\r', '\n'], ⟨above, by simp, habove⟩, ?_, by simp, .inr (.inl rfl)⟩
      intro hmem
      exact hsingle (List.mem_append_left _ hmem)
    · exact ⟨body, ['\n'], ⟨above, by simp, habove⟩, hsingle, by simp, .inr (.inr ⟨rfl, hreturn⟩)⟩
  · refine ⟨lastLine text, [], ⟨above, ?_, hends⟩, not_mem_lastLine text, ?_, .inl rfl⟩
    · rwa [List.append_nil]
    · rwa [List.append_nil]

variable {last ending : List Char}

/-- Only an empty text has no rows. A character in front of a text therefore joins a row that is
there already, unless it is the last one. -/
theorem rows_ne_nil (hne : text ≠ []) : rows text ≠ [] := by
  fun_cases rows text <;> simp_all

/-- A line break, with a carriage return or without, ends a row that has nothing in front of it. -/
theorem rows_of_ending (hending : ending = ['\r', '\n'] ∨ ending = ['\n']) (back : List Char) :
    rows (ending ++ back) = [] :: rows back := by
  rcases hending with rfl | rfl <;> rfl

/-- A character joins the row behind it, unless it is a line break or the carriage return of
one. -/
theorem rows_cons {row : List Char} {more : List (List Char)} (hbreak : c ≠ '\n')
    (hreturn : c = '\r' → back.head? ≠ some '\n') (hrows : rows back = row :: more) :
    rows (c :: back) = (c :: row) :: more := by
  rw [rows, hrows]
  · exact hbreak
  · rintro rest rfl rfl
    exact hreturn rfl rfl

/-- Behind a line break, rows begin anew, as lines do. It is what lets the last row be read off the
last line alone. -/
theorem rows_append_of_ends (back : List Char) (h : ∀ d ∈ above.getLast?, d = '\n') :
    rows (above ++ back) = rows above ++ rows back := by
  fun_induction rows above with
  | case1 => rfl
  | case2 rest ih =>
    rw [List.cons_append, rows, ih (by cases rest <;> simp_all)]
    rfl
  | case3 rest ih =>
    rw [List.cons_append, List.cons_append, rows, ih (by cases rest <;> simp_all)]
    rfl
  | case4 c rest hbreak _ hrows _ =>
    -- Nothing stands behind the character, so it has to be a line break itself.
    obtain rfl : rest = [] := by
      by_contra hne
      exact rows_ne_nil hne hrows
    exact absurd (h c rfl) hbreak
  | case5 c rest hbreak hreturn row more hrows ih =>
    cases rest with
    | nil => cases hrows
    | cons d rest =>
      have hjoined := ih (by simpa using h)
      rw [hrows] at hjoined
      refine rows_cons hbreak ?_ hjoined
      rintro rfl hhead
      obtain rfl : d = '\n' := by simpa using hhead
      exact hreturn rest rfl rfl

/-- The last line is one row, which leaves its line break out. A carriage return at the end of a
text is no part of a line break, so it stays. -/
theorem EndsWith.rows_eq (h : EndsWith text last ending) : rows (last ++ ending) = [last] := by
  obtain ⟨-, hsingle, hpresent, hending⟩ := h
  induction last with
  | nil =>
    rcases hending with rfl | hending
    · exact absurd rfl hpresent
    · have hbreak : ending = ['\r', '\n'] ∨ ending = ['\n'] := hending.imp_right And.left
      have hrows := rows_of_ending hbreak []
      rwa [List.append_nil] at hrows
  | cons c last ih =>
    obtain ⟨hc, hsingle⟩ := not_or.mp (List.mem_cons.not.mp hsingle)
    by_cases hempty : last ++ ending = []
    · obtain ⟨rfl, rfl⟩ := List.append_eq_nil_iff.mp hempty
      rw [List.append_nil, rows]
      · rfl
      · exact Ne.symm hc
      · rintro rest - hrest
        cases hrest
    · have hrest : ending = [] ∨ ending = ['\r', '\n'] ∨
          ending = ['\n'] ∧ last.getLast? ≠ some '\r' := by
        refine hending.imp_right (Or.imp_right (And.imp_right ?_))
        cases last <;> simp
      refine rows_cons (Ne.symm hc) ?_ (ih hsingle hempty hrest)
      -- The character is no carriage return of a line break, or it would belong to the ending.
      rintro rfl hhead
      cases last with
      | nil => rcases hending with rfl | rfl | ⟨rfl, hlast⟩ <;> simp_all
      | cons d last => simp_all

/-- No line holds the end of a text, so the search passes over all lines and comes back with one
number more than there are. -/
theorem findLine_width (text : List Char) :
    findLine (width text) 1 0 (lines text) = .error (1 + lineCount text) := by
  have hpassed : findLine (width text) 1 0 (lines text ++ [])
      = findLine (width text) (1 + (lines text).length) _ [] :=
    findLine_append (lines text) [] (by rw [flatten_lines, Nat.zero_add])
  rw [List.append_nil, length_lines] at hpassed
  exact hpassed

/-- The end of a text belongs to its last line, which is given without its line break. -/
theorem lineAt?_width (h : EndsWith text last ending) :
    lineAt? text (width text) = some ⟨lineCount text, last, width last⟩ := by
  obtain ⟨above, htext, hends⟩ := h.above
  have hrows : rows text = rows above ++ [last] := by
    rw [htext, rows_append_of_ends _ hends, h.rows_eq]
  -- The text has a line, so the count that comes back is the number of its last line and one more.
  have hpos : 1 ≤ lineCount text := by
    rw [← length_lines, Nat.one_le_iff_ne_zero, List.length_eq_zero_iff.ne]
    refine lines_ne_nil ?_
    rintro rfl
    exact h.present (List.append_eq_nil_iff.mp htext.symm).2
  rw [lineAt?, if_neg (Nat.lt_irrefl _), findLine_width, hrows]
  simp only [List.getLast?_concat, Option.map_some, Nat.add_sub_cancel_left, Nat.max_eq_left hpos]

/-- The line around any offset. A byte of the text is on the line that begins behind the last line
break in front of it and goes up to the next one; its number is that of the line breaks in front,
counted from one, and the offset inside it is counted from its beginning. The end of a text is on
its last line, without its line break. Behind the end there is no line, nor in a text without
characters. -/
theorem line_around_byte (text : List Char) (offset : Nat) :
    (offset < (bytes text).length →
      ∃ line, lineAt? text offset = some line ∧
        line.number = 1 + ((bytes text).take offset).count breakByte ∧
        bytes line.text
          = (bytes text).extract (lineStart (bytes text) offset) (lineStop (bytes text) offset) ∧
        lineStart (bytes text) offset + line.column = offset) ∧
    (offset = (bytes text).length → text ≠ [] →
      ∃ last ending, EndsWith text last ending ∧
        lineAt? text offset = some ⟨lineCount text, last, (bytes last).length⟩) ∧
    (offset > (bytes text).length ∨ text = [] → lineAt? text offset = none) := by
  simp only [length_bytes]
  refine ⟨?_, ?_, ?_⟩
  · -- The offset lies in some character, perhaps not at its first byte, and the line is that of the
    -- character.
    intro hlt
    obtain ⟨front, c, back, inside, rfl, rfl, hinside⟩ := exists_char hlt
    obtain ⟨hstart, hbytes⟩ := bytes_line front back hinside
    refine ⟨_, lineAt?_append front back hinside, ?_, hbytes, ?_⟩
    · rw [take_bytes, List.count_append, count_bytes,
        List.count_eq_zero_of_not_mem (breakByte_not_mem_take back hinside), Nat.add_zero]
    · show _ + (width (lastLine front) + inside) = _
      omega
  · rintro rfl hne
    obtain ⟨last, ending, hends⟩ := exists_endsWith hne
    exact ⟨last, ending, hends, lineAt?_width hends⟩
  · rintro (hgt | rfl)
    · rw [lineAt?, if_pos hgt]
    · cases offset <;> rfl

/-- Three lines: one with a character of two bytes, one without characters, and one that ends with a
carriage return in front of its line break. -/
def accented : List Char :=
  ['a', 'é', '\n', '\n', 'b', '\r', '\n']

/-- The second byte of the wide character is on the first line, the second line break is a line of
its own, the end is on the third line without both characters of its line break, and behind the end
there is nothing. -/
theorem line_around_byte_accented :
    (∃ line, lineAt? accented 2 = some line ∧ line.number = 1 ∧
      bytes line.text = [97, 195, 169, 10] ∧ line.column = 2) ∧
    (∃ line, lineAt? accented 4 = some line ∧ line.number = 2 ∧ bytes line.text = [10] ∧
      line.column = 0) ∧
    (∃ last ending, EndsWith accented last ending ∧
      lineAt? accented 8 = some ⟨3, last, (bytes last).length⟩) ∧
    lineAt? accented 9 = none := by
  refine ⟨?_, ?_, ?_, ?_⟩
  · obtain ⟨line, hline, hnumber, htext, hcolumn⟩ :=
      (line_around_byte accented 2).1 (by decide)
    have hstart : lineStart (bytes accented) 2 = 0 := by decide
    rw [hstart, Nat.zero_add] at hcolumn
    exact ⟨line, hline, hnumber.trans (by decide), htext.trans (by decide), hcolumn⟩
  · obtain ⟨line, hline, hnumber, htext, hcolumn⟩ :=
      (line_around_byte accented 4).1 (by decide)
    have hstart : lineStart (bytes accented) 4 = 4 := by decide
    rw [hstart] at hcolumn
    exact ⟨line, hline, hnumber.trans (by decide), htext.trans (by decide), by omega⟩
  · obtain ⟨last, ending, hends, hline⟩ :=
      (line_around_byte accented 8).2.1 (by decide) (List.cons_ne_nil _ _)
    have hcount : lineCount accented = 3 := by decide
    rw [hcount] at hline
    exact ⟨last, ending, hends, hline⟩
  · exact (line_around_byte accented 9).2.2 (.inl (by decide))

end ArrayScript.Text
