import ArrayScript.Proofs.LongestMatch

/-!
# `ArrayScript.Proofs.Rendering`: tokens that are written out are read back

A list of tokens is written out as their texts, one behind the other, with a separator between each
two of them (`render`). A separator begins with white space and goes on with white space and with
comments that are ended by a line break. Whatever separators are chosen, scanning gives the tokens
back (`scan_render`).

Two facts carry this. A text that belongs to a token is the longest piece of anything that begins
with it, as long as white space or the end follows (`longest_of_follow`): no piece but a blank or a
comment contains white space, and nothing but a comment starts with two slashes. And gaps between
tokens are skipped as a whole, however they are made up (`scanFrom_gap`).
-/

set_option autoImplicit false

namespace ArrayScript.Token

/-! ### Spellings and separators -/

/-- The text of a kind that has only one: the operators and brackets, and the six words. It is
written down here once more, kind by kind, so that what a token may look like does not depend on the
tables of the scanner. -/
def Kind.text? : Kind → Option String
  | .eof | .number | .identifier => none
  | .openBracket => some "["
  | .closeBracket => some "]"
  | .openCurly => some "\x7b"
  | .closeCurly => some "\x7d"
  | .openParen => some "("
  | .closeParen => some ")"
  | .assignment => some "="
  | .equals => some "=="
  | .bang => some "!"
  | .notEquals => some "!="
  | .less => some "<"
  | .lessEquals => some "<="
  | .greater => some ">"
  | .greaterEquals => some ">="
  | .orOr => some "||"
  | .andAnd => some "&&"
  | .semicolon => some ";"
  | .colon => some ":"
  | .comma => some ","
  | .plusEquals => some "+="
  | .minusEquals => some "-="
  | .starEquals => some "*="
  | .slashEquals => some "/="
  | .percentEquals => some "%="
  | .plus => some "+"
  | .dash => some "-"
  | .slash => some "/"
  | .star => some "*"
  | .percent => some "%"
  | .fnWord => some "fn"
  | .returnWord => some "return"
  | .ifWord => some "if"
  | .elseWord => some "else"
  | .newWord => some "new"
  | .numberWord => some "number"

/-- Whether a text belongs to a kind of tokens: an operator, a bracket or a keyword has its own text,
an identifier is a name that is no keyword, and a number is a numeral. -/
inductive Spelling : (kind : Kind) → (text : String) → Prop
  | fixed {kind : Kind} {text : String} : kind.text? = some text → Spelling kind text
  | identifier {text : String} :
      text.toList ∈ Pattern.word.language → (∀ kind : Kind, kind.text? ≠ some text) →
      Spelling .identifier text
  | number {text : String} : text.toList ∈ Pattern.numeral.language → Spelling .number text

/-- The scanner agrees with these texts: each of them is the sample of an operator of its kind, or a
word that is reserved for it. -/
theorem Kind.scanned_of_text? {kind : Kind} {text : String} (h : kind.text? = some text) :
    Pattern.mark text.toList text kind ∈ Pattern.table ∨ (text, kind) ∈ reserved := by
  have hall : (Kind.all.all fun kind => kind.text?.all fun text =>
      decide (Pattern.mark text.toList text kind ∈ Pattern.table) ||
        decide ((text, kind) ∈ reserved)) = true := by
    decide +kernel
  have hkind := List.all_eq_true.mp hall kind kind.mem_all
  rw [h] at hkind
  simpa using hkind

/-- No other words are reserved. -/
theorem Kind.text?_of_reserved {kind : Kind} {text : String} (h : (text, kind) ∈ reserved) :
    kind.text? = some text := by
  have hall : ∀ entry ∈ reserved, entry.2.text? = some entry.1 := by decide
  exact hall _ h

/-- Whether characters are blanks and comments, each comment ended by a line break. -/
inductive Filler : List Char → Prop
  | nil : Filler []
  | blank {c : Char} {cs : List Char} : Text.isBlank c = true → Filler cs → Filler (c :: cs)
  | comment {remark cs : List Char} :
      '\n' ∉ remark → Filler cs → Filler ('/' :: '/' :: remark ++ '\n' :: cs)

/-- Whether a text can stand between two tokens: a blank, and then blanks and comments. -/
def Separator (text : String) : Prop :=
  ∃ c cs, text.toList = c :: cs ∧ Text.isBlank c = true ∧ Filler cs

/-- Texts in a row, with separators between them. -/
def render : (texts separators : List String) → String
  | [], _ => ""
  | text :: texts, [] => text ++ render texts []
  | text :: texts, separator :: separators => text ++ separator ++ render texts separators

/-! ### Pieces in front of white space -/

section

variable {pattern : Pattern} {piece rest : List Char}

/-- Only blanks and comments contain white space. -/
theorem isBlank_eq_false_of_mem (hpattern : pattern ∈ Pattern.table) (hblank : pattern ≠ .blank)
    (hcomment : pattern ≠ .comment) (hpiece : piece ∈ pattern.language) {c : Char}
    (hc : c ∈ piece) : Text.isBlank c = false := by
  cases pattern with
  | word =>
    obtain ⟨d, ds, rfl, hd, hds⟩ := Pattern.mem_word.mp hpiece
    rcases List.mem_cons.mp hc with rfl | hc
    · exact isBlank_of_isWordPart (isWordPart_of_isWordStart hd)
    · exact isBlank_of_isWordPart (hds c hc)
  | numeral =>
    obtain ⟨whole, tail, rfl, ⟨-, hwhole⟩, htail⟩ := Pattern.mem_numeral.mp hpiece
    rcases List.mem_append.mp hc with hc | hc
    · exact isBlank_of_isDigit (hwhole c hc)
    rcases htail with rfl | ⟨fraction, rfl, -, hfraction⟩
    · cases hc
    rcases List.mem_cons.mp hc with rfl | hc
    · decide
    · exact isBlank_of_isDigit (hfraction c hc)
  | blank => exact absurd rfl hblank
  | comment => exact absurd rfl hcomment
  | mark text literal kind =>
    rw [Pattern.mem_mark.mp hpiece] at hc
    exact ((Pattern.sign_of_mem_table hpattern).2.2 c hc).2.2

/-- Only comments start with two slashes. -/
theorem eq_comment_of_slashes (hpattern : pattern ∈ Pattern.table)
    (hpiece : piece ∈ pattern.language) (hslashes : ['/', '/'] <+: piece) : pattern = .comment := by
  obtain ⟨c, cs, rfl, hc⟩ := Pattern.exists_opens hpattern hpiece
  obtain ⟨rfl, -⟩ := List.cons_prefix_cons.mp hslashes
  cases pattern with
  | comment => rfl
  | mark text literal kind =>
    rw [Pattern.mem_mark.mp hpiece] at hslashes
    exact absurd hslashes (Pattern.sign_of_mem_table hpattern).2.1
  | word => cases hc
  | numeral => cases hc
  | blank => exact absurd hc (by decide)

/-- A piece that is neither blank nor a comment ends in front of white space. A longer one would
have to contain the white space. -/
theorem longest_of_follow (hpattern : pattern ∈ Pattern.table) (hblank : pattern ≠ .blank)
    (hcomment : pattern ≠ .comment) (hpiece : piece ∈ pattern.language)
    (hrest : ∀ c ∈ rest.head?, Text.isBlank c = true) :
    Longest (piece ++ rest) pattern piece := by
  refine ⟨hpattern, hpiece, List.prefix_append piece rest, ?_⟩
  intro other hother piece' hpiece' hbegins
  by_contra hlong
  rw [Nat.not_le] at hlong
  -- The longer piece goes on behind the shorter one, with the first character of the rest.
  obtain ⟨more, rfl⟩ : piece <+: piece' :=
    List.prefix_of_prefix_length_le (List.prefix_append piece rest) hbegins (Nat.le_of_lt hlong)
  obtain ⟨c, cs, rfl⟩ : ∃ c cs, more = c :: cs := by
    refine List.exists_cons_of_ne_nil ?_
    rintro rfl
    simp at hlong
  have hc : Text.isBlank c = true := by
    obtain ⟨tail, rfl⟩ := (List.prefix_append_right_inj piece).mp hbegins
    exact hrest c rfl
  obtain ⟨d, ds, rfl, hd⟩ := Pattern.exists_opens hpattern hpiece
  -- Only blanks and comments have white space in them, and the piece begins neither.
  by_cases hotherBlank : other = .blank
  · subst hotherBlank
    have hdblank : Text.isBlank d = true := (mem_run.mp hpiece').2 d (by simp)
    exact hblank ((Pattern.eq_of_opens hpattern hd).2.2 hdblank)
  by_cases hotherComment : other = .comment
  · subst hotherComment
    obtain ⟨remark, hremark, -⟩ := Pattern.mem_comment.mp hpiece'
    cases ds with
    | nil =>
      -- The second slash would be white space.
      obtain ⟨-, hnext⟩ := List.cons.inj hremark
      obtain ⟨rfl, -⟩ := List.cons.inj hnext
      exact absurd hc (by decide)
    | cons e es =>
      obtain ⟨rfl, hnext⟩ := List.cons.inj hremark
      obtain ⟨rfl, -⟩ := List.cons.inj hnext
      exact hcomment (eq_comment_of_slashes hpattern hpiece (List.prefix_append ['/', '/'] es))
  · have hsolid := isBlank_eq_false_of_mem hother hotherBlank hotherComment hpiece'
      (List.mem_append_right _ List.mem_cons_self)
    rw [hc] at hsolid
    cases hsolid

end

/-! ### Gaps -/

/-- A piece that becomes no token is skipped. -/
theorem Longest.scanFrom_skip {pattern : Pattern} {piece rest : List Char}
    (h : Longest (piece ++ rest) pattern piece) (hkind : ∀ text, pattern.kind? text = none)
    (offset : Nat) :
    scanFrom offset (piece ++ rest) = scanFrom (offset + Text.width piece) rest := by
  have hnone : ofPiece? pattern offset piece = none := by simp [ofPiece?, hkind]
  rw [h.scanFrom_eq, hnone]
  cases scanFrom (offset + Text.width piece) rest <;> rfl

/-- White space is read as blanks. -/
theorem first?_blank {c : Char} (hc : Text.isBlank c = true) (text : List Char) :
    Pattern.first? (c :: text) = some .blank := by
  cases hfirst : Pattern.first? (c :: text) with
  | none =>
    have hmem : [c] ∈ Pattern.blank.language := mem_run.mpr ⟨by simp, by simpa using hc⟩
    have hnot := first?_eq_none_iff.mp hfirst .blank (by decide) [c] hmem
    exact absurd (List.prefix_append [c] text) hnot
  | some pattern =>
    have hlongest := longest_of_first? hfirst
    obtain ⟨d, ds, hpiece, hd⟩ := Pattern.exists_opens hlongest.mem hlongest.accepts
    have hbegins := hlongest.begins
    rw [hpiece] at hbegins
    obtain ⟨rfl, -⟩ := List.cons_prefix_cons.mp hbegins
    rw [(Pattern.eq_of_opens hlongest.mem hd).2.2 hc]

/-- White space is skipped up to its end. -/
theorem scanFrom_blanks (offset : Nat) (text : List Char) :
    scanFrom offset text
      = scanFrom (offset + Text.width (text.takeWhile Text.isBlank))
          (text.dropWhile Text.isBlank) := by
  rcases text with _ | ⟨c, cs⟩
  · rfl
  by_cases hc : Text.isBlank c = true
  · have hlongest := longest_of_first? (first?_blank hc cs)
    rw [Pattern.reach, take_length_takeWhile] at hlongest
    have hsplit : c :: cs
        = (c :: cs).takeWhile Text.isBlank ++ (c :: cs).dropWhile Text.isBlank :=
      List.takeWhile_append_dropWhile.symm
    generalize (c :: cs).takeWhile Text.isBlank = run at *
    generalize (c :: cs).dropWhile Text.isBlank = rest at *
    rw [hsplit] at hlongest ⊢
    exact hlongest.scanFrom_skip (fun _ => rfl) offset
  · rw [List.takeWhile_cons_of_neg hc, List.dropWhile_cons_of_neg hc]
    rfl

/-- White space is skipped one character at a time. -/
theorem scanFrom_blank {c : Char} (hc : Text.isBlank c = true) (offset : Nat) (text : List Char) :
    scanFrom offset (c :: text) = scanFrom (offset + c.utf8Size) text := by
  rw [scanFrom_blanks offset, scanFrom_blanks (offset + c.utf8Size),
    List.takeWhile_cons_of_pos hc, List.dropWhile_cons_of_pos hc, Text.width_cons, Nat.add_assoc]

/-- A comment is skipped up to its end. -/
theorem scanFrom_comment {remark rest : List Char} (hremark : '\n' ∉ remark)
    (hrest : ∀ c ∈ rest.head?, c = '\n') (offset : Nat) :
    scanFrom offset ('/' :: '/' :: remark ++ rest)
      = scanFrom (offset + Text.width ('/' :: '/' :: remark)) rest := by
  have hstop : rest.takeWhile (· ≠ '\n') = [] := by
    cases rest with
    | nil => rfl
    | cons c cs => simp [hrest c rfl]
  have htake : (remark ++ rest).takeWhile (· ≠ '\n') = remark := by
    rw [List.takeWhile_append_of_pos, hstop, List.append_nil]
    intro c hc
    refine decide_eq_true fun heq => ?_
    rw [heq] at hc
    exact hremark hc
  have hlongest := longest_of_first? (first?_comment (remark ++ rest))
  rw [reach_comment, List.take_succ_cons, List.take_succ_cons, take_length_takeWhile, htake]
    at hlongest
  exact hlongest.scanFrom_skip (fun _ => rfl) offset

/-- A gap is skipped up to its end. -/
theorem scanFrom_gap {gap rest : List Char} (h : Gap gap rest) (offset : Nat) :
    scanFrom offset (gap ++ rest) = scanFrom (offset + Text.width gap) rest := by
  induction h generalizing offset with
  | nil => rfl
  | @blank c gap rest hc _ ih =>
    rw [List.cons_append, scanFrom_blank hc, ih, Text.width_cons, Nat.add_assoc]
  | @comment remark gap rest hremark hhead _ ih =>
    rw [List.append_assoc, scanFrom_comment hremark hhead, ih, Text.width_append, Nat.add_assoc]

theorem Filler.gap {cs : List Char} (h : Filler cs) (rest : List Char) : Gap cs rest := by
  induction h with
  | nil => exact .nil
  | blank hc _ ih => exact .blank hc ih
  | @comment remark cs hremark _ ih =>
    refine .comment hremark ?_ (.blank (by decide) ih)
    rintro c ⟨⟩
    rfl

/-! ### Tokens -/

/-- A spelling is a piece of a pattern that gives tokens of its kind. -/
theorem Spelling.exists_pattern {kind : Kind} {text : String} (h : Spelling kind text) :
    ∃ pattern ∈ Pattern.table, text.toList ∈ pattern.language ∧
      pattern.kind? text = some kind := by
  cases h with
  | fixed htext =>
    rcases Kind.scanned_of_text? htext with hmem | hmem
    · exact ⟨_, hmem, rfl, rfl⟩
    · have hall : ∀ entry ∈ reserved, 0 < entry.1.toList.length ∧
          Pattern.word.reach entry.1.toList = entry.1.toList.length := by
        decide
      obtain ⟨hpos, hreach⟩ := hall _ hmem
      rw [← hreach] at hpos
      have hword := Pattern.take_reach_mem hpos
      rw [hreach, List.take_length] at hword
      refine ⟨.word, by decide, hword, ?_⟩
      rw [Pattern.kind?, reservedKind?_eq_some_iff.mpr hmem]
      rfl
  | identifier hword hfree =>
    refine ⟨.word, by decide, hword, ?_⟩
    cases hkind : reservedKind? text with
    | none => rw [Pattern.kind?, hkind]; rfl
    | some kind =>
      exact absurd (Kind.text?_of_reserved (reservedKind?_eq_some_iff.mp hkind)) (hfree kind)
  | number hnumeral => exact ⟨.numeral, by decide, hnumeral, rfl⟩

/-- A spelling in front of white space is read as a token. -/
theorem Spelling.scanFrom_eq {kind : Kind} {text : String} (h : Spelling kind text)
    {rest : List Char} (hrest : ∀ c ∈ rest.head?, Text.isBlank c = true) (offset : Nat) :
    ∃ span, scanFrom offset (text.toList ++ rest)
      = (scanFrom (offset + Text.width text.toList) rest).map (⟨kind, text, span⟩ :: ·) := by
  obtain ⟨pattern, hpattern, hpiece, hkind⟩ := h.exists_pattern
  have hblank : pattern ≠ .blank := by
    rintro rfl
    cases hkind
  have hcomment : pattern ≠ .comment := by
    rintro rfl
    cases hkind
  have hlongest := longest_of_follow hpattern hblank hcomment hpiece hrest
  refine ⟨⟨offset, offset + Text.width text.toList⟩, ?_⟩
  rw [hlongest.scanFrom_eq, ofPiece?, String.ofList_toList, hkind]
  rfl

/-- What is written out from some offset on is read back. -/
theorem scanFrom_render {pieces : List (Kind × String)} {separators : List String}
    (hlength : separators.length = pieces.length - 1)
    (hpieces : ∀ piece ∈ pieces, Spelling piece.1 piece.2)
    (hseparators : ∀ separator ∈ separators, Separator separator) (offset : Nat) :
    ∃ tokens, scanFrom offset (render (pieces.map Prod.snd) separators).toList = .ok tokens ∧
      tokens.map (fun token => (token.kind, token.text)) = pieces ++ [(.eof, "EOF")] := by
  induction pieces generalizing separators offset with
  | nil => exact ⟨[eof offset], by rw [List.map_nil, render]; simp [scanFrom], rfl⟩
  | cons piece pieces ih =>
    rw [List.forall_mem_cons] at hpieces
    rw [List.length_cons, Nat.add_sub_cancel] at hlength
    cases separators with
    | nil =>
      obtain rfl : pieces = [] := List.length_eq_zero_iff.mp hlength.symm
      have hrest : ∀ c ∈ ([] : List Char).head?, Text.isBlank c = true := by
        rintro c ⟨⟩
      obtain ⟨span, hscan⟩ := hpieces.1.scanFrom_eq hrest offset
      have htext : (render [piece.2] []).toList = piece.2.toList ++ [] := by
        rw [render, render, String.toList_append]
        rfl
      rw [List.map_singleton, htext, hscan, scanFrom]
      exact ⟨_, rfl, rfl⟩
    | cons separator separators =>
      rw [List.forall_mem_cons] at hseparators
      obtain ⟨c, cs, hseparator, hc, hfiller⟩ := hseparators.1
      have hlength' : separators.length = pieces.length - 1 := by
        rw [List.length_cons] at hlength
        omega
      -- Behind the text and the separator, the others are read back.
      obtain ⟨tokens, htokens, hlexemes⟩ := ih hlength' hpieces.2 hseparators.2
        (offset + Text.width piece.2.toList + Text.width separator.toList)
      generalize hothers : (render (pieces.map Prod.snd) separators).toList = others at htokens
      have htext : (render ((piece :: pieces).map Prod.snd) (separator :: separators)).toList
          = piece.2.toList ++ (separator.toList ++ others) := by
        rw [List.map_cons, render, String.toList_append, String.toList_append, hothers,
          List.append_assoc]
      have hgap : Gap separator.toList others := by
        rw [hseparator]
        exact .blank hc (hfiller.gap others)
      have hrest : ∀ d ∈ (separator.toList ++ others).head?, Text.isBlank d = true := by
        rw [hseparator]
        rintro d ⟨⟩
        exact hc
      obtain ⟨span, hscan⟩ := hpieces.1.scanFrom_eq hrest offset
      rw [htext, hscan, scanFrom_gap hgap, htokens]
      refine ⟨_, rfl, ?_⟩
      rw [List.map_cons, hlexemes]
      rfl

/-- Tokenizing undoes rendering. Texts that belong to their kinds, written one behind the other with
any separators between them, are read back as tokens of these kinds with these texts, in order, and
an end token. -/
theorem scan_render {pieces : List (Kind × String)} {separators : List String}
    (hlength : separators.length = pieces.length - 1)
    (hpieces : ∀ piece ∈ pieces, Spelling piece.1 piece.2)
    (hseparators : ∀ separator ∈ separators, Separator separator) :
    ∃ tokens, scan (render (pieces.map Prod.snd) separators) = .ok tokens ∧
      tokens.map (fun token => (token.kind, token.text)) = pieces ++ [(.eof, "EOF")] :=
  scanFrom_render hlength hpieces hseparators 0

/-- A keyword, a name that starts with it, and slashes and operators that would run together, with a
comment and a wide blank among the separators. -/
theorem scan_render_slashes :
    ∃ tokens, scan "if ifs 1.5 / // =\n/\u2003=" = .ok tokens ∧
      tokens.map (fun token => (token.kind, token.text))
        = [(.ifWord, "if"), (.identifier, "ifs"), (.number, "1.5"), (.slash, "/"), (.slash, "/"),
          (.assignment, "="), (.eof, "EOF")] := by
  have hname : Spelling .identifier "ifs" :=
    .identifier (Pattern.mem_word.mpr ⟨'i', ['f', 's'], rfl, rfl, List.all_eq_true.mp rfl⟩)
      (by intro kind; cases kind <;> decide)
  have hnumber : Spelling .number "1.5" :=
    .number (Pattern.mem_numeral.mpr ⟨['1'], ['.', '5'], rfl,
      ⟨List.cons_ne_nil _ _, List.all_eq_true.mp rfl⟩,
      .inr ⟨['5'], rfl, List.cons_ne_nil _ _, List.all_eq_true.mp rfl⟩⟩)
  have hpieces : ∀ piece ∈ [(Kind.ifWord, "if"), (.identifier, "ifs"), (.number, "1.5"),
      (.slash, "/"), (.slash, "/"), (.assignment, "=")], Spelling piece.1 piece.2 := by
    simp only [List.forall_mem_cons, List.not_mem_nil, IsEmpty.forall_iff, implies_true, and_true]
    exact ⟨.fixed rfl, hname, hnumber, .fixed rfl, .fixed rfl, .fixed rfl⟩
  have hseparators : ∀ separator ∈ [" ", " ", " ", " // =\n", "\u2003"], Separator separator := by
    have hblank : Separator " " := ⟨' ', [], rfl, by decide, .nil⟩
    have hcomment : Filler "// =\n".toList := @Filler.comment " =".toList [] (by decide) .nil
    have hremark : Separator " // =\n" := ⟨' ', _, rfl, by decide, hcomment⟩
    have hwide : Separator "\u2003" := ⟨'\u2003', [], rfl, by decide, .nil⟩
    simp only [List.forall_mem_cons, List.not_mem_nil, IsEmpty.forall_iff, implies_true, and_true]
    exact ⟨hblank, hblank, hblank, hremark, hwide⟩
  exact scan_render rfl hpieces hseparators

end ArrayScript.Token
