import ArrayScript.Proofs.Attribution
import ArrayScript.Proofs.Lines
import ArrayScript.Proofs.LongestMatch

/-!
# `ArrayScript.Proofs.Caret`: where the arrow of an excerpt points

The arrow under a line is drawn with one dash for each byte in front of the error, and the line
above it has one column for each character. So the head of the arrow is under the error exactly as
far as the characters in front of it take one byte each.

* `Token.Visits.narrow`: wherever scanning stops, the characters in front on the same line take one
  byte each, unless they are blanks. Everything else that can be wider is in a comment, and a
  comment ends with its line.
* `Text.Line.splitOn_excerpt` and `Text.Line.exists_shown_eq`: the lines of an excerpt, and the
  place of a character in the one that shows the source.
* `Source.caret_column`: the head of the arrow is to the right of the error, by the bytes that wide
  blanks have too many (`Text.excess`).

`Source.caret_misses` shows an arrow that points at the character behind the error.
-/

set_option autoImplicit false

namespace ArrayScript

/-! ### Wide characters -/

namespace Text

/-- Whether a character takes one byte, unless it is a blank. -/
def Narrow (c : Char) : Prop :=
  isBlank c = false → c.utf8Size = 1

/-- The bytes that the blanks of a text take beyond one for each. -/
def excess : List Char → Nat
  | [] => 0
  | c :: cs => (if isBlank c then c.utf8Size - 1 else 0) + excess cs

/-- If only blanks are wide, then the excess is what the bytes are more than the characters. -/
theorem width_eq_of_narrow {cs : List Char} (h : ∀ c ∈ cs, Narrow c) :
    width cs = cs.length + excess cs := by
  induction cs with
  | nil => rfl
  | cons c cs ih =>
    obtain ⟨hc, hcs⟩ := List.forall_mem_cons.mp h
    have hpos := c.utf8Size_pos
    rw [width_cons, ih hcs, List.length_cons, excess]
    cases hblank : isBlank c with
    | true =>
      simp only [if_true]
      omega
    | false =>
      rw [hc hblank]
      simp only [Bool.false_eq_true, if_false]
      omega

theorem excess_append (cs ds : List Char) : excess (cs ++ ds) = excess cs + excess ds := by
  induction cs with
  | nil => simp [excess]
  | cons c cs ih => simp [excess, ih, Nat.add_assoc]

/-- Without wide blanks there is no excess. -/
theorem excess_eq_zero {cs : List Char} (h : ∀ c ∈ cs, isBlank c = true → c.utf8Size = 1) :
    excess cs = 0 := by
  induction cs with
  | nil => rfl
  | cons c cs ih =>
    obtain ⟨hc, hcs⟩ := List.forall_mem_cons.mp h
    rw [excess, ih hcs]
    split
    · next hblank => rw [hc hblank]
    · rfl

/-- A character that indents takes one byte. -/
theorem utf8Size_of_isIndent {c : Char} (h : isIndent c = true) : c.utf8Size = 1 := by
  rcases (by simpa [isIndent] using h : c = ' ' ∨ c = '\t') with rfl | rfl
  · rfl
  · rfl

/-- What is no blank does not indent. -/
theorem isIndent_eq_false {c : Char} (h : isBlank c = false) : isIndent c = false := by
  have hne : c ≠ ' ' ∧ c ≠ '\t' := by
    constructor
    · rintro rfl
      cases h
    · rintro rfl
      cases h
  simp [isIndent, hne]

/-- Indentation has no excess. -/
theorem excess_takeWhile (cs : List Char) : excess (cs.takeWhile isIndent) = 0 :=
  excess_eq_zero fun c hc _ =>
    utf8Size_of_isIndent (List.all_eq_true.mp List.all_takeWhile c hc)

/-- A character on the last line of a text that ends with a piece is one of the piece, unless the
piece has no line break. -/
theorem mem_of_mem_lastLine {front piece : List Char} {c : Char}
    (h : c ∈ lastLine (front ++ piece)) : c ∈ piece ∨ (c ∈ lastLine front ∧ '\n' ∉ piece) := by
  rw [lastLine, List.rtakeWhile, List.mem_reverse, List.reverse_append, List.takeWhile_append] at h
  split at h
  next hlength =>
    rcases List.mem_append.mp h with hmem | hmem
    · exact .inl (List.mem_reverse.mp hmem)
    · refine .inr ⟨List.mem_reverse.mpr hmem, ?_⟩
      intro hbreak
      have hall := (List.takeWhile_prefix _).eq_of_length hlength
      have htest := List.takeWhile_eq_self_iff.mp hall _ (List.mem_reverse.mpr hbreak)
      simp at htest
  next => exact .inl (List.mem_reverse.mp ((List.takeWhile_prefix _).subset h))

end Text

namespace Token

theorem utf8Size_of_isWordPart {c : Char} (h : isWordPart c = true) : c.utf8Size = 1 := by
  by_cases hne : c = '_'
  · rw [hne]
    rfl
  rw [Char.utf8Size_eq_one_iff, UInt32.le_iff_toNat_le]
  simp [isWordPart_eq, isAlpha_iff, Char.isDigit_iff_toNat, hne] at h ⊢
  omega

/-- Only blanks and comments can have wide characters. -/
theorem Pattern.narrow {pattern : Pattern} (hpattern : pattern ∈ table) (hne : pattern ≠ comment)
    {piece : List Char} (h : piece ∈ pattern.language) : ∀ c ∈ piece, Text.Narrow c := by
  intro c hc hblank
  cases pattern with
  | word =>
    obtain ⟨first, rest, rfl, hfirst, hrest⟩ := mem_word.mp h
    rcases List.mem_cons.mp hc with rfl | hc
    · exact utf8Size_of_isWordPart (isWordPart_of_isWordStart hfirst)
    · exact utf8Size_of_isWordPart (hrest c hc)
  | numeral =>
    have hdigit : ∀ d : Char, d.isDigit = true → d.utf8Size = 1 := fun d hd =>
      utf8Size_of_isWordPart (by simp [isWordPart_eq, hd])
    obtain ⟨whole, tail, rfl, ⟨-, hwhole⟩, rfl | ⟨fraction, rfl, -, hfraction⟩⟩ := mem_numeral.mp h
    · exact hdigit c (hwhole c (by simpa using hc))
    · rcases List.mem_append.mp hc with hc | hc
      · exact hdigit c (hwhole c hc)
      · rcases List.mem_cons.mp hc with rfl | hc
        · rfl
        · exact hdigit c (hfraction c hc)
  | blank =>
    have hall := (mem_run.mp h).2 c hc
    cases hall.symm.trans hblank
  | comment => exact absurd rfl hne
  | mark text literal kind =>
    -- The marks are finitely many, so all their characters are looked at.
    have hall : (table.all fun pattern => pattern.sample.all fun c => c.utf8Size == 1) = true := by
      decide
    rw [mem_mark.mp h] at hc
    have hsign := List.all_eq_true.mp hall _ hpattern
    simpa using List.all_eq_true.mp hsign c hc

/-- Wherever scanning stops, the characters in front of it on the same line are narrow. Only behind
a comment this need not be so, and then the line is at its end. -/
theorem Visits.narrow {text : String} {s : ScanState} (h : Visits text s) :
    ∃ front, text.toList = front ++ s.rest ∧ Text.width front = s.offset ∧
      ((∀ c ∈ Text.lastLine front, Text.Narrow c) ∨ ∀ c ∈ s.rest.head?, c = '\n') := by
  induction h with
  | start => exact ⟨[], rfl, rfl, .inl (by simp [Text.lastLine])⟩
  | @next s pattern _ hfirst ih =>
    obtain ⟨front, htext, hwidth, hline⟩ := ih
    have hsplit := ScanState.rest_eq hfirst
    refine ⟨front ++ s.piece pattern, ?_, ?_, ?_⟩
    · rw [htext, hsplit, List.append_assoc]
    · rw [Text.width_append, hwidth]
      rfl
    obtain ⟨htable, hpiece, -, -⟩ := ScanState.longest_piece hfirst
    -- A comment takes the line to its end, and may contain anything.
    by_cases hcomment : pattern = .comment
    · subst hcomment
      right
      show ∀ c ∈ (Text.skip (Text.width (Pattern.piece .comment s.rest)) s.rest).head?, c = '\n'
      rw [Pattern.skip_piece hfirst]
      exact head?_drop_comment (Pattern.reach_pos_of_first? hfirst)
    · refine .inl fun c hc => ?_
      rcases Text.mem_of_mem_lastLine hc with hc | ⟨hc, hbreak⟩
      · exact Pattern.narrow htable hcomment hpiece c hc
      · -- The piece goes on with a line that is not at its end.
        rcases hline with hnarrow | hend
        · exact hnarrow c hc
        · obtain ⟨d, ds, hd, -⟩ := Pattern.exists_opens htable hpiece
          have hd' : s.piece pattern = d :: ds := hd
          have hdbreak : d = '\n' := hend d (by rw [hsplit, hd']; rfl)
          rw [hd', hdbreak] at hbreak
          exact absurd List.mem_cons_self hbreak

/-- Scanning stops at the start and at the stop of every token. The induction is on what is left. -/
theorem Visits.exists_of_mem {text : String} {s : ScanState} (h : Visits text s)
    {tokens : List Token} (hscan : scanFrom s.offset s.rest = .ok tokens) {token : Token}
    (htoken : token ∈ tokens) {offset : Nat}
    (hoffset : token.span.start = offset ∨ token.span.stop = offset) :
    ∃ s', Visits text s' ∧ s'.offset = offset := by
  rcases hrest : s.rest with _ | ⟨c, cs⟩
  · rw [hrest, scanFrom] at hscan
    cases hscan
    obtain rfl := List.mem_singleton.mp htoken
    exact ⟨s, h, hoffset.elim id id⟩
  cases hfirst : Pattern.first? s.rest with
  | none =>
    rw [hrest] at hscan hfirst
    obtain ⟨pattern, _, _, _, hsome, -⟩ := scanFrom_cons_ok.mp hscan
    cases hfirst.symm.trans hsome
  | some pattern =>
    have hshorter := ScanState.length_next_lt hfirst
    have hnext := h.next hfirst
    rw [scanFrom_next hfirst] at hscan
    cases hscan' : scanFrom (s.next pattern).offset (s.next pattern).rest with
    | error fault =>
      rw [hscan'] at hscan
      cases hscan
    | ok tokens' =>
      rw [hscan'] at hscan
      cases hscan
      -- The token is the one of this piece, between two stops, or it comes later.
      rcases List.mem_append.mp htoken with hmem | hmem
      · rw [Option.mem_toList, ofPiece?, Option.map_eq_some_iff] at hmem
        obtain ⟨kind, -, rfl⟩ := hmem
        rcases hoffset with rfl | rfl
        · exact ⟨s, h, rfl⟩
        · exact ⟨s.next pattern, hnext, rfl⟩
      · exact hnext.exists_of_mem hscan' hmem hoffset
termination_by s.rest.length

end Token

/-! ### The lines of an excerpt -/

namespace Text

theorem toList_pushn (text : String) (c : Char) (count : Nat) :
    (text.pushn c count).toList = text.toList ++ List.replicate count c := by
  unfold String.pushn
  induction count with
  | zero => simp [Nat.repeat]
  | succ count ih => simp [Nat.repeat, ih, List.replicate_succ']

section

variable {before tail : List Char} {test : Char → Bool} {c : Char}

/-- What a test lets pass ends in front of a character that fails it. -/
theorem takeWhile_append_of_neg (hc : test c = false) :
    (before ++ c :: tail).takeWhile test = before.takeWhile test := by
  induction before with
  | nil => simp [hc]
  | cons d before ih =>
    cases hd : test d with
    | true => simp [hd, ih]
    | false => simp [hd]

/-- What is left behind it has the character and everything behind that. -/
theorem dropWhile_append_of_neg (hc : test c = false) :
    (before ++ c :: tail).dropWhile test = before.dropWhile test ++ c :: tail := by
  induction before with
  | nil => simp [hc]
  | cons d before ih =>
    cases hd : test d with
    | true => simp [hd, ih]
    | false => simp [hd]

end

namespace Line

/-- The number of a line as it is written. -/
def digits (line : Line) : List Char :=
  Nat.toDigits 10 line.number

/-- What stands under the number of a line. -/
def margin (line : Line) : List Char :=
  List.replicate (line.digits.length + 1) ' ' ++ ['|']

theorem not_mem_digits (line : Line) : '\n' ∉ line.digits := by
  intro hmem
  have hdigit := Nat.isDigit_of_mem_toDigits (by decide) (by decide) hmem
  cases hdigit

theorem not_mem_margin (line : Line) {c : Char} (hblank : c ≠ ' ') (hbar : c ≠ '|') :
    c ∉ line.margin := by
  simp [margin, hblank, hbar]

/-- The lines of an excerpt: the path, a margin, the line of the source, and the arrow. -/
def layout (line : Line) (path : String) : List (List Char) :=
  [['-', '>', ' '] ++ path.toList, line.margin, line.digits ++ [' ', '|', ' '] ++ line.shown,
    line.margin ++ ' ' :: List.replicate line.dashes '-' ++ ['^']]

/-- An excerpt is its lines with line breaks between them. -/
theorem toList_excerpt (line : Line) (path : String) :
    (line.excerpt path).toList = ['\n'].intercalate (line.layout path) := by
  have hnumber : (toString line.number).toList = line.digits := by
    rw [Nat.toString_eq_repr, Nat.toList_repr, digits]
  have hmargin : ("".pushn ' ' ((toString line.number).length + 1)).toList ++ "|".toList
      = line.margin := by
    rw [← String.length_toList, hnumber, toList_pushn]
    rfl
  have hdashes : ("".pushn '-' line.dashes).toList = List.replicate line.dashes '-' :=
    toList_pushn "" '-' line.dashes
  unfold excerpt
  simp only [String.toList_append, hnumber, hdashes, hmargin, String.toList_ofList]
  simp [layout, List.intercalate]

/-- An excerpt is cut into its lines by its line breaks. -/
theorem splitOn_excerpt (line : Line) {path : String} (hpath : '\n' ∉ path.toList)
    (hshown : '\n' ∉ line.shown) : (line.excerpt path).toList.splitOn '\n' = line.layout path := by
  have hmargin := line.not_mem_margin (c := '\n') (by decide) (by decide)
  rw [toList_excerpt]
  refine List.splitOn_intercalate '\n' ?_ (List.cons_ne_nil _ _)
  simp [layout, hpath, hshown, hmargin, line.not_mem_digits]

variable {line : Line} {before tail stop : List Char} {c : Char}

/-- A line is shown up to a character without its indentation, and behind it without some of its
end. The line break at the end is not shown. -/
theorem exists_shown_eq (htext : line.text = before ++ c :: (tail ++ stop))
    (hstop : stop = [] ∨ stop = ['\n']) (hc : isBlank c = false) :
    ∃ trimmed, line.shown = before.dropWhile isIndent ++ c :: trimmed ∧ trimmed ⊆ tail := by
  have hblank : stop.all isBlank = true := by
    rcases hstop with rfl | rfl
    · rfl
    · decide
  refine ⟨(tail.reverse.dropWhile isBlank).reverse, ?_, ?_⟩
  · -- The character stops both ends: it is no indentation, and no blank.
    rw [shown, htext, dropWhile_append_of_neg (isIndent_eq_false hc), List.reverse_append,
      List.reverse_cons, List.append_assoc, List.singleton_append, dropWhile_append_of_neg hc,
      List.reverse_append, List.reverse_append, List.dropWhile_append_of_pos]
    · simp
    · intro d hd
      exact List.all_eq_true.mp hblank d (List.mem_reverse.mp hd)
  · intro d hd
    exact List.mem_reverse.mp ((List.dropWhile_suffix _).subset (List.mem_reverse.mp hd))

/-- There is a dash for each byte between the indentation and the column. -/
theorem dashes_eq (htext : line.text = before ++ c :: tail) (hcolumn : line.column = width before)
    (hc : isBlank c = false) : line.dashes = width (before.dropWhile isIndent) := by
  have hsplit : width before
      = width (before.takeWhile isIndent) + width (before.dropWhile isIndent) := by
    rw [← width_append, List.takeWhile_append_dropWhile]
  have hindent : width (before.takeWhile isIndent) = (before.takeWhile isIndent).length := by
    rw [width_eq_of_narrow, excess_takeWhile, Nat.add_zero]
    intro d hd _
    exact utf8Size_of_isIndent (List.all_eq_true.mp List.all_takeWhile d hd)
  rw [dashes, htext, takeWhile_append_of_neg (isIndent_eq_false hc), hcolumn]
  omega

/-- The arrow under a line on which only blanks are wide in front of the column. Its head is to the
right of the character there by what these blanks have too much. -/
theorem exists_caret (htext : line.text = before ++ c :: (tail ++ stop))
    (hcolumn : line.column = width before) (hbreak : '\n' ∉ before ++ tail)
    (hstop : stop = [] ∨ stop = ['\n']) (hc : isBlank c = false)
    (hnarrow : ∀ d ∈ before, Narrow d) {path : String} (hpath : '\n' ∉ path.toList) :
    ∃ title bar shown dashes column,
      (line.excerpt path).toList.splitOn '\n' = [title, bar, shown, dashes ++ ['^']] ∧
        '^' ∉ dashes ∧ shown[column]? = some c ∧ dashes.length = column + excess before := by
  obtain ⟨trimmed, hshown, htrimmed⟩ := exists_shown_eq htext hstop hc
  have hinner : before.dropWhile isIndent ⊆ before := (List.dropWhile_suffix _).subset
  have hnobreak : '\n' ∉ line.shown := by
    rw [List.mem_append, not_or] at hbreak
    rw [hshown, List.mem_append, List.mem_cons]
    rintro (hmem | rfl | hmem)
    · exact hbreak.1 (hinner hmem)
    · cases hc
    · exact hbreak.2 (htrimmed hmem)
  have hexcess : excess (before.dropWhile isIndent) = excess before := by
    conv_rhs => rw [← List.takeWhile_append_dropWhile (p := isIndent) (l := before)]
    rw [excess_append, excess_takeWhile, Nat.zero_add]
  refine ⟨_, _, _, line.margin ++ ' ' :: List.replicate line.dashes '-',
    line.digits.length + 3 + (before.dropWhile isIndent).length,
    line.splitOn_excerpt hpath hnobreak, ?_, ?_, ?_⟩
  · have hmargin := line.not_mem_margin (c := '^') (by decide) (by decide)
    simp [hmargin]
  -- The number with its bar is as wide as the margin with its blank, so both lines start alike.
  · rw [hshown, List.getElem?_append_right (by simp)]
    simp
  · rw [dashes_eq htext hcolumn hc, width_eq_of_narrow fun d hd => hnarrow d (hinner hd), hexcess]
    simp [margin]
    omega

end Line

end Text

/-! ### Errors -/

namespace Source

variable {source : Source} {offset : Nat}

/-- Where reading a text stops, the characters in front on the same line are narrow, unless a line
ends there. -/
theorem Stops.narrow (h : source.Stops offset) :
    ∃ front back, source.text.toList = front ++ back ∧ Text.width front = offset ∧
      ((∀ c ∈ Text.lastLine front, Text.Narrow c) ∨ ∀ c ∈ back.head?, c = '\n') := by
  have hvisits : ∃ s, Token.Visits source.text s ∧ s.offset = offset := by
    rcases h with ⟨fault, hscan, rfl⟩ | ⟨tokens, token, hscan, htoken, hoffset⟩
    · obtain ⟨s, c, cs, hvisits, -, -, rfl⟩ := Token.scan_error_iff.mp hscan
      exact ⟨s, hvisits, rfl⟩
    · exact Token.Visits.start.exists_of_mem hscan htoken hoffset
  obtain ⟨s, hvisits, rfl⟩ := hvisits
  obtain ⟨front, htext, hwidth, hline⟩ := hvisits.narrow
  exact ⟨front, s.rest, htext, hwidth, hline⟩

/-- An error of a text stands where reading it stops. -/
theorem stops_of_compile_error {e : Error} (h : source.compile = .error e) :
    source.Stops e.position.offset := by
  cases hdecls : source.decls with
  | error e' =>
    obtain rfl : e' = e := by simpa [compile, hdecls, bind, Except.bind] using h
    exact stops_of_decls_error hdecls
  | ok decls => exact stops_of_ofDecls_error hdecls ((compile_eq hdecls).symm.trans h)

/-- The arrow of an excerpt and the error that it belongs to. An error in front of the end of a text
stands at a character. If that is no blank, then there is an excerpt, and it has four lines: the
third one shows the character, and the fourth one ends with the only head of an arrow. The head is
to the right of the character, by the bytes that the blanks in front of it on its line take beyond
one each. So it points at the character if they take one byte each. -/
theorem caret_column (source : Source) {path : String} (hpath : '\n' ∉ path.toList) {e : Error}
    (h : source.compile = .error e) (hlt : e.position.offset < source.text.utf8ByteSize) :
    (∃ front c back, source.text.toList = front ++ c :: back ∧
      Text.width front = e.position.offset) ∧
    ∀ front c back, source.text.toList = front ++ c :: back →
      Text.width front = e.position.offset → Text.isBlank c = false →
      ∃ excerpt title bar shown dashes column,
        e.excerpt? source.text path = some excerpt ∧
        excerpt.toList.splitOn '\n' = [title, bar, shown, dashes ++ ['^']] ∧ '^' ∉ dashes ∧
        shown[column]? = some c ∧
        dashes.length = column + Text.excess (Text.lastLine front) ∧
        ((∀ d ∈ Text.lastLine front, Text.isBlank d = true → d.utf8Size = 1) →
          shown[dashes.length]? = some c) := by
  obtain ⟨front, rest, htext, hwidth, hline⟩ := (stops_of_compile_error h).narrow
  refine ⟨?_, ?_⟩
  · rw [← Text.width_toList, htext, ← hwidth, Text.width_append] at hlt
    obtain ⟨c, back, rfl⟩ : ∃ c back, rest = c :: back := by
      refine List.exists_cons_of_ne_nil ?_
      rintro rfl
      simp at hlt
    exact ⟨front, c, back, htext, hwidth⟩
  intro front' c back htext' hwidth' hc
  -- Every character takes a byte, so an offset cuts the text in one way only.
  obtain ⟨rfl, rfl⟩ :=
    Text.append_inj_of_width (htext.symm.trans htext') (hwidth.trans hwidth'.symm)
  have hne : c ≠ '\n' := by
    rintro rfl
    cases hc
  -- Behind a comment there is a line break or nothing, and `c` is neither.
  have hnarrow : ∀ d ∈ Text.lastLine front, Text.Narrow d :=
    hline.resolve_right fun hend => hne (hend c rfl)
  obtain ⟨line, tail, stop, hlineAt, hlineText, hcolumn, htail, hstop⟩ :=
    Text.exists_lineAt? front back hne
  have hbreak : '\n' ∉ Text.lastLine front ++ tail := by
    simp [Text.not_mem_lastLine front, htail]
  obtain ⟨title, bar, shown, dashes, column, hsplit, hdashes, hshown, hlength⟩ :=
    Text.Line.exists_caret hlineText hcolumn hbreak hstop hc hnarrow hpath
  refine ⟨_, title, bar, shown, dashes, column, ?_, hsplit, hdashes, hshown, hlength, ?_⟩
  · rw [Error.excerpt?, Text.excerpt?, ← hwidth, htext, hlineAt]
    rfl
  · intro hblanks
    rwa [hlength, Text.excess_eq_zero hblanks]

/-- Where the error of a text stands, if it has one. -/
def errorOffset? (source : Source) : Option Nat :=
  match source.compile with
  | .ok _ => none
  | .error e => some e.position.offset

theorem exists_error (h : source.errorOffset? = some offset) :
    ∃ e, source.compile = .error e ∧ e.position.offset = offset := by
  unfold errorOffset? at h
  cases hcompile : source.compile with
  | ok p =>
    rw [hcompile] at h
    cases h
  | error e =>
    rw [hcompile] at h
    exact ⟨e, rfl, Option.some.inj h⟩

/-- A text with an error on an indented line. -/
def indented : Source :=
  ⟨"indented", "f() \x7b\n\treturn x;\n\x7d"⟩

/-- The arrow under the indented line points at the variable that is not declared. -/
theorem caret_column_indented :
    ∃ e excerpt title bar shown dashes, indented.compile = .error e ∧
      e.excerpt? indented.text "indented" = some excerpt ∧
      excerpt.toList.splitOn '\n' = [title, bar, shown, dashes ++ ['^']] ∧
      shown[dashes.length]? = some 'x' := by
  have hoffset : indented.errorOffset? = some 14 := by decide +kernel
  obtain ⟨e, he, hoffset⟩ := exists_error hoffset
  have hlt : e.position.offset < indented.text.utf8ByteSize := by
    rw [hoffset]
    decide +kernel
  have hpath : '\n' ∉ "indented".toList := by decide +kernel
  have htext : indented.text.toList = "f() \x7b\n\treturn ".toList ++ 'x' :: ";\n\x7d".toList := by
    decide +kernel
  have hwidth : Text.width "f() \x7b\n\treturn ".toList = e.position.offset := by
    rw [hoffset]
    decide +kernel
  obtain ⟨excerpt, title, bar, shown, dashes, column, hexcerpt, hsplit, -, -, -, hhead⟩ :=
    (caret_column indented hpath he hlt).2 _ _ _ htext hwidth (by decide)
  have hsize : ((Text.lastLine "f() \x7b\n\treturn ".toList).all fun d =>
      d.utf8Size == 1) = true := by
    decide +kernel
  refine ⟨e, excerpt, title, bar, shown, dashes, he, hexcerpt, hsplit, hhead fun d hd _ => ?_⟩
  simpa using List.all_eq_true.mp hsize d hd

/-- A text with the same error, and a blank of two bytes in front of it. -/
def wide : Source :=
  ⟨"wide", "f() \x7b\u00a0return x; \x7d"⟩

/-- The arrow under the wide blank points behind the variable that is not declared. -/
theorem caret_misses :
    ∃ e excerpt title bar shown dashes, wide.compile = .error e ∧ '\n' ∉ "wide".toList ∧
      e.position.offset < wide.text.utf8ByteSize ∧
      wide.text.toList = "f() \x7b\u00a0return ".toList ++ 'x' :: "; \x7d".toList ∧
      Text.width "f() \x7b\u00a0return ".toList = e.position.offset ∧ Text.isBlank 'x' = false ∧
      e.excerpt? wide.text "wide" = some excerpt ∧
      excerpt.toList.splitOn '\n' = [title, bar, shown, dashes ++ ['^']] ∧
      shown[dashes.length]? = some ';' := by
  have hoffset : wide.errorOffset? = some 14 := by decide +kernel
  obtain ⟨e, he, hoffset⟩ := exists_error hoffset
  let line : Text.Line := ⟨1, wide.text.toList, 14⟩
  have hline : Text.lineAt? wide.text.toList 14 = some line := by decide +kernel
  have hpath : '\n' ∉ "wide".toList := by decide +kernel
  have hshown : '\n' ∉ line.shown := by decide +kernel
  refine ⟨e, line.excerpt "wide", _, _, _, _, he, hpath, ?_, by decide +kernel, ?_, by decide, ?_,
    line.splitOn_excerpt hpath hshown, by decide +kernel⟩
  · rw [hoffset]
    decide +kernel
  · rw [hoffset]
    decide +kernel
  · rw [Error.excerpt?, Text.excerpt?, hoffset, hline]
    rfl

end Source

end ArrayScript
