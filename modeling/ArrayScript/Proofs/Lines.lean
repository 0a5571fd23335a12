import Mathlib.Data.List.DropRight
import ArrayScript.Proofs.Scanning

/-!
# `ArrayScript.Proofs.Lines`: the line around a character

A text is cut into lines from its end, one character at a time, and the line around an offset is
found by adding up widths from the start. Both say the same about a place in the middle of a text:
what stands behind the last line break in front of it begins its line (`Text.lastLine`), and its
column is the width of that.

* `Text.lines_append_of_ends`: cutting behind a line break cuts the text into lines of its own.
* `Text.lineAt?_append`: the line around any byte of a character. It is what stands behind the last
  line break in front of the character, together with what goes up to the next one (`Text.upTo`).
* `Text.exists_lineAt?`: the same for the first byte of a character that is no line break, with what
  is in front of it and behind it.
-/

set_option autoImplicit false

namespace ArrayScript.Text

/-- What stands behind the last line break of a text. -/
def lastLine (front : List Char) : List Char :=
  front.rtakeWhile (· ≠ '\n')

section
variable {α : Type} [DecidableEq α] {mark : α}

/-- What a list begins with, up to its first `mark` and with it. Without one it is the whole
list. -/
def upTo (mark : α) (l : List α) : List α :=
  l.take (l.idxOf mark + 1)

theorem upTo_cons_self (l : List α) : upTo mark (mark :: l) = [mark] := by
  simp [upTo]

/-- What has no mark is passed over as a whole. -/
theorem upTo_append_of_not_mem {l : List α} (h : mark ∉ l) (rest : List α) :
    upTo mark (l ++ rest) = l ++ upTo mark rest := by
  rw [upTo, List.idxOf_append_of_notMem h, Nat.add_assoc, List.take_length_add_append, upTo]

theorem upTo_of_not_mem {l : List α} (h : mark ∉ l) : upTo mark l = l := by
  simpa [upTo] using upTo_append_of_not_mem h []

end

variable {front above rest : List Char}

/-- The last line of a text has no line break. -/
theorem not_mem_lastLine (front : List Char) : '\n' ∉ lastLine front := by
  intro hmem
  simpa using List.mem_rtakeWhile_imp hmem

/-- What stands in front of the last line ends with a line break, if there is anything. -/
theorem exists_above (front : List Char) :
    ∃ above, front = above ++ lastLine front ∧ ∀ c ∈ above.getLast?, c = '\n' := by
  refine ⟨front.rdropWhile (· ≠ '\n'), List.rdropWhile_append_rtakeWhile.symm, ?_⟩
  intro c hc
  obtain ⟨hne, rfl⟩ := List.mem_getLast?_eq_getLast hc
  simpa using List.rdropWhile_last_not _ front hne

/-- A text is cut at a boundary in one way only. -/
theorem append_inj_of_width {front' back back' : List Char} (h : front ++ back = front' ++ back')
    (hwidth : width front = width front') : front = front' ∧ back = back' := by
  have hnil : ∀ {cs ds : List Char}, width cs = width (cs ++ ds) → ds = [] := by
    intro cs ds hsame
    rw [width_append] at hsame
    by_contra hne
    have hpos := width_pos hne
    omega
  rcases List.append_eq_append_iff.mp h with ⟨middle, rfl, rfl⟩ | ⟨middle, rfl, rfl⟩
  · rw [hnil hwidth]
    simp
  · rw [hnil hwidth.symm]
    simp

/-! ### Cutting into lines -/

theorem lines_break (rest : List Char) : lines ('\n' :: rest) = ['\n'] :: lines rest :=
  rfl

/-- Without a line break a text is one line. -/
theorem lines_of_not_mem {body : List Char} (hbody : '\n' ∉ body) (hne : body ≠ []) :
    lines body = [body] := by
  induction body with
  | nil => exact absurd rfl hne
  | cons c body ih =>
    obtain ⟨hc, hbody⟩ := not_or.mp (List.mem_cons.not.mp hbody)
    show consLine c (lines body) = [c :: body]
    cases body with
    | nil => simp [lines, consLine, Ne.symm hc]
    | cons d body => simp [consLine, Ne.symm hc, ih hbody (List.cons_ne_nil d body)]

/-- A line goes up to its line break. -/
theorem lines_append_break {body : List Char} (hbody : '\n' ∉ body) (rest : List Char) :
    lines (body ++ '\n' :: rest) = (body ++ ['\n']) :: lines rest := by
  induction body with
  | nil => exact lines_break rest
  | cons c body ih =>
    obtain ⟨hc, hbody⟩ := not_or.mp (List.mem_cons.not.mp hbody)
    show consLine c (lines (body ++ '\n' :: rest)) = _
    simp [consLine, Ne.symm hc, ih hbody]

/-- A text has lines unless it is empty. -/
theorem lines_ne_nil (hne : front ≠ []) : lines front ≠ [] := by
  intro hnil
  have hflatten := flatten_lines front
  rw [hnil] at hflatten
  exact hne hflatten.symm

/-- Behind a line break, lines begin anew. -/
theorem lines_append_of_ends (h : ∀ c ∈ above.getLast?, c = '\n') :
    lines (above ++ rest) = lines above ++ lines rest := by
  induction above with
  | nil => rfl
  | cons c above ih =>
    show consLine c (lines (above ++ rest)) = consLine c (lines above) ++ lines rest
    cases above with
    | nil =>
      obtain rfl : c = '\n' := h c (by simp)
      rfl
    | cons d above =>
      rw [ih (by simpa using h)]
      obtain ⟨line, more, hlines⟩ := List.exists_cons_of_ne_nil
        (lines_ne_nil (List.cons_ne_nil d above))
      unfold consLine
      split
      · rfl
      · simp [hlines]

/-- A text that ends with a line break has as many lines as line breaks. -/
theorem length_lines_of_ends (h : ∀ c ∈ above.getLast?, c = '\n') :
    (lines above).length = above.count '\n' := by
  induction above with
  | nil => rfl
  | cons c above ih =>
    show (consLine c (lines above)).length = (c :: above).count '\n'
    cases above with
    | nil =>
      obtain rfl : c = '\n' := h c (by simp)
      rfl
    | cons d above =>
      have hlength := ih (by simpa using h)
      obtain ⟨line, more, hlines⟩ := List.exists_cons_of_ne_nil
        (lines_ne_nil (List.cons_ne_nil d above))
      unfold consLine
      split
      next hc => simp [hc, hlength]
      next hc =>
        -- The character joins the first line, so there is no line more and no line break more.
        rw [hlines] at hlength ⊢
        rw [List.count_cons_of_ne hc, ← hlength]
        rfl

/-- A line goes up to the first line break, or to the end. -/
theorem exists_lines_append {before : List Char} (hbefore : '\n' ∉ before) (hne : rest ≠ []) :
    ∃ more, lines (before ++ rest) = (before ++ upTo '\n' rest) :: lines more := by
  by_cases hmem : '\n' ∈ rest
  · obtain ⟨tail, more, rfl, htail⟩ := List.eq_append_cons_of_mem hmem
    refine ⟨more, ?_⟩
    have hbody : '\n' ∉ before ++ tail := by simp [hbefore, htail]
    rw [upTo_append_of_not_mem htail, upTo_cons_self, ← List.append_assoc, ← List.append_assoc]
    exact lines_append_break hbody more
  · refine ⟨[], ?_⟩
    rw [upTo_of_not_mem hmem]
    exact lines_of_not_mem (by simp [hbefore, hmem]) (by simp [hne])

/-! ### Finding a line -/

/-- Lines in front of an offset are passed over, with their widths. -/
theorem findLine_append {offset : Nat} (passed lines : List (List Char)) {number start : Nat}
    (h : start + width passed.flatten ≤ offset) :
    findLine offset number start (passed ++ lines)
      = findLine offset (number + passed.length) (start + width passed.flatten) lines := by
  induction passed generalizing number start with
  | nil => rfl
  | cons line passed ih =>
    rw [List.flatten_cons, width_append] at h ⊢
    rw [List.cons_append, findLine, if_neg (by omega), ih (by omega), List.length_cons]
    congr 1 <;> omega

/-- The line around a byte of a character: it begins behind the last line break in front of the
character and goes up to the next one, which may be the character itself. -/
theorem lineAt?_append (front back : List Char) {c : Char} {inside : Nat}
    (hinside : inside < c.utf8Size) :
    lineAt? (front ++ c :: back) (width front + inside)
      = some ⟨1 + front.count '\n', lastLine front ++ upTo '\n' (c :: back),
          width (lastLine front) + inside⟩ := by
  obtain ⟨above, hfront, hends⟩ := exists_above front
  have hbefore := not_mem_lastLine front
  generalize lastLine front = before at hfront hbefore
  subst hfront
  obtain ⟨more, hlines⟩ := exists_lines_append hbefore (List.cons_ne_nil c back)
  -- The offset is inside the text, and the lines above end in front of it.
  have hlt : width (above ++ before) + inside < width (above ++ before ++ c :: back) := by
    simp only [width_append, width_cons]
    omega
  rw [lineAt?, if_neg (Nat.not_lt_of_lt hlt), List.append_assoc, lines_append_of_ends hends, hlines,
    findLine_append _ _ (by rw [flatten_lines, width_append]; omega), findLine, flatten_lines,
    length_lines_of_ends hends]
  -- The line has the character in it, so it goes beyond the offset.
  have hhead : upTo '\n' (c :: back) = c :: back.take ((c :: back).idxOf '\n') := rfl
  rw [if_pos (by rw [hhead]; simp only [width_append, width_cons]; omega)]
  simp only [List.count_append, List.count_eq_zero_of_not_mem hbefore, width_append]
  congr 2
  omega

/-- The line around a character that is no line break: it begins behind the last line break in front
of the character, and goes up to the next one. -/
theorem exists_lineAt? (front : List Char) {c : Char} (back : List Char) (hc : c ≠ '\n') :
    ∃ line tail stop, lineAt? (front ++ c :: back) (width front) = some line ∧
      line.text = lastLine front ++ c :: (tail ++ stop) ∧
      line.column = width (lastLine front) ∧ '\n' ∉ tail ∧ (stop = [] ∨ stop = ['\n']) := by
  have hline := lineAt?_append front back c.utf8Size_pos
  have hmiss : '\n' ∉ [c] := by simpa using Ne.symm hc
  -- Behind the character there is a line break, and the line ends with it, or there is none.
  have hback : ∃ tail stop, upTo '\n' back = tail ++ stop ∧ '\n' ∉ tail ∧
      (stop = [] ∨ stop = ['\n']) := by
    by_cases hmem : '\n' ∈ back
    · obtain ⟨tail, rest, rfl, htail⟩ := List.eq_append_cons_of_mem hmem
      refine ⟨tail, ['\n'], ?_, htail, .inr rfl⟩
      rw [upTo_append_of_not_mem htail, upTo_cons_self]
    · exact ⟨back, [], by rw [upTo_of_not_mem hmem, List.append_nil], hmem, .inl rfl⟩
  obtain ⟨tail, stop, hupTo, htail, hstop⟩ := hback
  refine ⟨_, tail, stop, hline, ?_, rfl, htail, hstop⟩
  show lastLine front ++ upTo '\n' ([c] ++ back) = lastLine front ++ c :: (tail ++ stop)
  rw [upTo_append_of_not_mem hmiss, hupTo]
  rfl

end ArrayScript.Text
