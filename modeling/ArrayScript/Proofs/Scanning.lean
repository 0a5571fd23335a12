import ArrayScript.Token.Scan

/-!
# `ArrayScript.Proofs.Scanning`: tokens and gaps make up a text

A text that can be taken apart is made up of its tokens and of the gaps between them, and nothing
is lost or counted twice (`Token.scan_partition`). A gap is a run of blanks and comments; a comment
goes up to the next line break or to the end of the text.

`Partition` is that layout with the offsets written in. Scanning establishes it piece by piece
(`partition_scanFrom`): a piece that becomes a token stands in front of the rest, and one that
becomes none is put in front of the gap that the rest begins with. What the spans of tokens look
like in the whole text is read off it by induction.

That the text of a token is the text at its span is a matter of the table: an operator puts its
literal on record, and the literal of every row is what the row looks for (`literal_eq_sample`).
-/

set_option autoImplicit false

namespace ArrayScript

/-! ### Places in a text -/

/-- Whether an offset is a character boundary of a text: the width of some characters that the text
begins with. -/
def Text.Boundary (text : List Char) (offset : Nat) : Prop :=
  ∃ front back, text = front ++ back ∧ Text.width front = offset

/-- Whether a piece of a text stands at a span, cut at character boundaries, with `back` behind
it. -/
def Text.Cut (text : List Char) (span : Span) (piece back : List Char) : Prop :=
  ∃ front, text = front ++ piece ++ back ∧ Text.width front = span.start ∧
    Text.width (front ++ piece) = span.stop

namespace Text

/-- No boundary lies behind the end of the text. -/
theorem Boundary.le_width {text : List Char} {offset : Nat} (h : Boundary text offset) :
    offset ≤ width text := by
  obtain ⟨front, back, rfl, rfl⟩ := h
  rw [width_append]
  exact Nat.le_add_right _ _

/-- A piece starts at a boundary. -/
theorem Cut.boundary_start {text piece back : List Char} {span : Span}
    (h : Cut text span piece back) : Boundary text span.start := by
  obtain ⟨front, rfl, hstart, -⟩ := h
  exact ⟨front, piece ++ back, List.append_assoc .., hstart⟩

/-- A piece stops at a boundary. -/
theorem Cut.boundary_stop {text piece back : List Char} {span : Span}
    (h : Cut text span piece back) : Boundary text span.stop := by
  obtain ⟨front, rfl, -, hstop⟩ := h
  exact ⟨front ++ piece, back, rfl, hstop⟩

/-- The width of all characters of a text is its length in bytes. -/
theorem width_toList (text : String) : width text.toList = text.utf8ByteSize := by
  have hwidth : ∀ cs : List Char, width cs = (String.ofList cs).utf8ByteSize := by
    intro cs
    induction cs with
    | nil => rfl
    | cons c cs ih =>
      rw [width_cons, ih, String.ofList_cons, String.utf8ByteSize_append,
        String.utf8ByteSize_singleton]
  rw [hwidth, String.ofList_toList]

end Text

namespace Token

/-! ### Gaps -/

/-- Whether a run of characters with `rest` behind it consists of blanks and comments, each comment
going up to a line break or to the end of the text. -/
inductive Gap : (gap rest : List Char) → Prop
  | nil {rest : List Char} : Gap [] rest
  | blank {c : Char} {gap rest : List Char} :
      Text.isBlank c = true → Gap gap rest → Gap (c :: gap) rest
  | comment {remark gap rest : List Char} :
      '\n' ∉ remark → (∀ c ∈ (gap ++ rest).head?, c = '\n') → Gap gap rest →
      Gap ('/' :: '/' :: remark ++ gap) rest

/-- A gap behind a gap continues it. -/
theorem Gap.append {gap gap' rest : List Char} (h : Gap gap (gap' ++ rest)) (h' : Gap gap' rest) :
    Gap (gap ++ gap') rest := by
  generalize hall : gap' ++ rest = all at h
  induction h with
  | nil => exact h'
  | blank hc _ ih => exact .blank hc (ih hall)
  | @comment remark gap _ hremark hhead _ ih =>
    subst hall
    rw [List.append_assoc]
    refine .comment hremark ?_ (ih rfl)
    rwa [List.append_assoc]

/-- A run of blanks is a gap. -/
theorem gap_of_forall {gap rest : List Char} (h : ∀ c ∈ gap, Text.isBlank c = true) :
    Gap gap rest := by
  induction gap with
  | nil => exact .nil
  | cons c gap ih =>
    rw [List.forall_mem_cons] at h
    exact .blank h.1 (ih h.2)

/-! ### Pieces -/

section

variable {text : List Char} {test : Char → Bool}

/-- As many characters as pass a test are those that pass it. -/
theorem take_length_takeWhile :
    text.take (text.takeWhile test).length = text.takeWhile test :=
  (List.prefix_iff_eq_take.mp (List.takeWhile_prefix test)).symm

/-- What is left behind them. -/
theorem drop_length_takeWhile :
    text.drop (text.takeWhile test).length = text.dropWhile test := by
  have h := List.take_append_drop (text.takeWhile test).length text
  rw [take_length_takeWhile] at h
  exact List.append_cancel_left (h.trans List.takeWhile_append_dropWhile.symm)

/-- A blank piece is a gap. -/
theorem gap_blank :
    Gap (text.take (Pattern.blank.reach text)) (text.drop (Pattern.blank.reach text)) := by
  refine gap_of_forall fun c hc => ?_
  rw [Pattern.reach, take_length_takeWhile] at hc
  exact List.all_eq_true.mp List.all_takeWhile c hc

/-- A comment starts with two slashes. -/
theorem exists_of_reach_comment (h : 0 < Pattern.comment.reach text) :
    ∃ rest, text = '/' :: '/' :: rest := by
  refine Classical.byContradiction fun hnone => ?_
  rw [Pattern.reach] at h
  · exact Nat.lt_irrefl 0 h
  · exact fun rest hrest => hnone ⟨rest, hrest⟩

/-- Behind its slashes, a comment takes everything in front of the next line break. -/
theorem reach_comment (rest : List Char) : Pattern.comment.reach ('/' :: '/' :: rest)
    = (rest.takeWhile (· ≠ '\n')).length + 1 + 1 := by
  rw [Pattern.reach]
  omega

/-- What is left behind a comment starts with a line break, if there is anything. -/
theorem head?_drop_comment (h : 0 < Pattern.comment.reach text) :
    ∀ c ∈ (text.drop (Pattern.comment.reach text)).head?, c = '\n' := by
  obtain ⟨rest, rfl⟩ := exists_of_reach_comment h
  rw [reach_comment, List.drop_succ_cons, List.drop_succ_cons, drop_length_takeWhile]
  intro c hc
  have hstop := List.head?_dropWhile_not (· ≠ '\n') rest
  rw [Option.mem_def] at hc
  rw [hc] at hstop
  simpa using hstop

/-- A comment is a gap: it goes up to a line break or to the end. -/
theorem gap_comment (h : 0 < Pattern.comment.reach text) :
    Gap (text.take (Pattern.comment.reach text)) (text.drop (Pattern.comment.reach text)) := by
  have hbreak := head?_drop_comment h
  obtain ⟨rest, rfl⟩ := exists_of_reach_comment h
  rw [reach_comment, List.drop_succ_cons, List.drop_succ_cons] at hbreak ⊢
  rw [List.take_succ_cons, List.take_succ_cons, take_length_takeWhile]
  have hremark : '\n' ∉ rest.takeWhile (· ≠ '\n') := by
    intro hmem
    simpa using List.all_eq_true.mp List.all_takeWhile _ hmem
  have hgap := Gap.comment hremark hbreak .nil
  rwa [List.append_nil] at hgap

/-- No word is reserved for the end of a text. -/
theorem reservedKind?_ne_eof (word : String) : reservedKind? word ≠ some .eof := by
  intro h
  obtain ⟨front, back, hreserved, -⟩ := List.lookup_eq_some_iff.mp h
  have hmem : (word, Kind.eof) ∈ reserved := by simp [hreserved]
  simp [reserved] at hmem

/-- No piece becomes an end token. -/
theorem kind?_ne_eof {pattern : Pattern} (h : pattern ∈ Pattern.table) (piece : String) :
    pattern.kind? piece ≠ some .eof := by
  cases pattern with
  | word =>
    cases hkind : reservedKind? piece with
    | none => simp [Pattern.kind?, hkind]
    | some kind =>
      have hne := reservedKind?_ne_eof piece
      simpa [Pattern.kind?, hkind] using hne
  | mark sample literal kind =>
    intro hkind
    cases hkind
    simp [Pattern.table] at h
  | _ => simp [Pattern.kind?]

end

/-! ### What a pattern takes -/

namespace Pattern

variable {text : List Char} {pattern : Pattern}

/-- What a text has to begin with for an operator or bracket to apply. -/
def sample : Pattern → List Char
  | mark sample _ _ => sample
  | _ => []

/-- Every row of the table takes the text that it looks for. The two are written down apart, so this
is checked row by row. -/
theorem literal_eq_sample (h : pattern ∈ table) {literal : String}
    (hliteral : pattern.literal? = some literal) : literal.toList = pattern.sample := by
  have hall : (table.all fun pattern => pattern.literal?.all fun literal =>
      literal.toList == pattern.sample) = true := by
    decide
  have hsome := List.all_eq_true.mp hall pattern h
  rw [hliteral] at hsome
  simpa using hsome

/-- The pattern that is picked takes as much as it reaches, also where it takes a literal: a text to
which the row applies begins with that literal. -/
theorem piece_eq_take (h : first? text = some pattern) :
    pattern.piece text = text.take (pattern.reach text) := by
  cases pattern with
  | mark sample literal kind =>
    have hpos := reach_pos_of_first? h
    have hliteral : literal.toList = sample :=
      literal_eq_sample (List.mem_of_find?_eq_some h) rfl
    show literal.toList = text.take _
    by_cases hbegins : sample.isPrefixOf text
    · rw [hliteral, reach, if_pos hbegins]
      exact List.prefix_iff_eq_take.mp (List.isPrefixOf_iff_prefix.mp hbegins)
    · rw [reach, if_neg hbegins] at hpos
      cases hpos
  | _ => rfl

/-- So scanning goes on right behind what was matched. -/
theorem skip_piece (h : first? text = some pattern) :
    Text.skip (Text.width (pattern.piece text)) text = text.drop (pattern.reach text) := by
  rw [piece_eq_take h, Text.skip_width_take]

/-- What is left behind a piece is shorter than the text. -/
theorem length_drop_reach_lt {c : Char} {cs : List Char} (h : first? (c :: cs) = some pattern) :
    ((c :: cs).drop (pattern.reach (c :: cs))).length < (c :: cs).length := by
  have := reach_pos_of_first? h
  simp only [List.length_drop, List.length_cons]
  omega

end Pattern

/-! ### Partitions -/

/-- How a text that starts at an offset is made up of tokens and gaps, up to an end token. -/
inductive Partition : (offset : Nat) → (text : List Char) → List Token → Prop
  | close {offset : Nat} {gap : List Char} :
      Gap gap [] → Partition offset gap [eof (offset + Text.width gap)]
  | token {offset start stop : Nat} {gap piece rest : List Char} {kind : Kind}
      {tokens : List Token} :
      Gap gap (piece ++ rest) → piece ≠ [] → kind ≠ .eof →
      start = offset + Text.width gap → stop = start + Text.width piece →
      Partition stop rest tokens →
      Partition offset (gap ++ piece ++ rest) (⟨kind, String.ofList piece, ⟨start, stop⟩⟩ :: tokens)

/-- A gap in front of a text is part of its first gap. -/
theorem Partition.skip {offset : Nat} {gap text : List Char} {tokens : List Token}
    (hgap : Gap gap text) (h : Partition (offset + Text.width gap) text tokens) :
    Partition offset (gap ++ text) tokens := by
  generalize hstart : offset + Text.width gap = start at h
  cases h with
  | close hgap' =>
    subst hstart
    rw [← List.append_nil text] at hgap
    rw [Nat.add_assoc, ← Text.width_append]
    exact .close (hgap.append hgap')
  | @token _ _ _ gap' piece rest kind tokens hgap' hpiece hkind hfrom hto hrest =>
    subst hstart
    rw [List.append_assoc] at hgap
    rw [← List.append_assoc, ← List.append_assoc]
    refine .token (hgap.append hgap') hpiece hkind ?_ hto hrest
    rw [Text.width_append]
    omega

/-- A text is taken apart by the first pattern that applies, and behind its piece. -/
theorem scanFrom_cons_ok {offset : Nat} {c : Char} {cs : List Char} {tokens : List Token} :
    scanFrom offset (c :: cs) = .ok tokens ↔
      ∃ pattern piece rest tokens', Pattern.first? (c :: cs) = some pattern ∧
        piece = (c :: cs).take (pattern.reach (c :: cs)) ∧
        rest = (c :: cs).drop (pattern.reach (c :: cs)) ∧
        scanFrom (offset + Text.width piece) rest = .ok tokens' ∧
        tokens = (ofPiece? pattern offset piece).toList ++ tokens' := by
  rw [scanFrom]
  split
  next hnone => simp [hnone]
  next pattern hsome =>
    simp only [Pattern.piece_eq_take hsome, Text.skip_width_take]
    constructor
    · intro h
      cases htokens' : scanFrom (offset + Text.width ((c :: cs).take (pattern.reach (c :: cs))))
          ((c :: cs).drop (pattern.reach (c :: cs))) with
      | error fault => simp [htokens', bind, Except.bind] at h
      | ok tokens' =>
        refine ⟨pattern, _, _, tokens', hsome, rfl, rfl, htokens', ?_⟩
        simpa [htokens', bind, Except.bind, pure, Except.pure, eq_comm] using h
    · rintro ⟨pattern', _, _, tokens', hsome', rfl, rfl, htokens', rfl⟩
      cases hsome.symm.trans hsome'
      simp [htokens', bind, Except.bind, pure, Except.pure]

/-- A text cannot be taken apart where no pattern applies, at its beginning or behind its first
piece. -/
theorem scanFrom_cons_error {offset : Nat} {c : Char} {cs : List Char} {fault : Fault} :
    scanFrom offset (c :: cs) = .error fault ↔
      (Pattern.first? (c :: cs) = none ∧ fault = ⟨.unrecognised (String.singleton c), offset⟩) ∨
        ∃ pattern piece rest, Pattern.first? (c :: cs) = some pattern ∧
          piece = (c :: cs).take (pattern.reach (c :: cs)) ∧
          rest = (c :: cs).drop (pattern.reach (c :: cs)) ∧
          scanFrom (offset + Text.width piece) rest = .error fault := by
  rw [scanFrom]
  split
  next hnone => simp [hnone, eq_comm]
  next pattern hsome =>
    simp only [Pattern.piece_eq_take hsome, Text.skip_width_take]
    cases hrest : scanFrom (offset + Text.width ((c :: cs).take (pattern.reach (c :: cs))))
        ((c :: cs).drop (pattern.reach (c :: cs))) with
    | error fault' => simp [hsome, hrest, bind, Except.bind]
    | ok tokens => simp [hsome, hrest, bind, Except.bind, pure, Except.pure]

/-- Scanning takes a text apart into tokens and gaps. The induction follows the pieces. -/
theorem partition_scanFrom {offset : Nat} {text : List Char} {tokens : List Token}
    (h : scanFrom offset text = .ok tokens) : Partition offset text tokens := by
  cases text with
  | nil =>
    rw [scanFrom] at h
    cases h
    exact .close .nil
  | cons c cs =>
    obtain ⟨pattern, piece, rest, tokens', hfirst, hpiece, hrest, htokens', rfl⟩ :=
      scanFrom_cons_ok.mp h
    have hpos := Pattern.reach_pos_of_first? hfirst
    have hsplit : c :: cs = piece ++ rest := by rw [hpiece, hrest, List.take_append_drop]
    have hdecreasing : rest.length < (c :: cs).length := by
      rw [hrest]
      exact Pattern.length_drop_reach_lt hfirst
    have ih := partition_scanFrom htokens'
    rw [hsplit]
    -- A piece with a kind becomes a token; one without is part of a gap.
    cases hkind : pattern.kind? (String.ofList piece) with
    | some kind =>
      have hne : piece ≠ [] := by
        rw [hpiece]
        simpa using Nat.pos_iff_ne_zero.mp hpos
      have heof : kind ≠ .eof := by
        rintro rfl
        exact kind?_ne_eof (List.mem_of_find?_eq_some hfirst) _ hkind
      have hpart : Partition offset ([] ++ piece ++ rest) _ := .token .nil hne heof rfl rfl ih
      simpa [ofPiece?, hkind] using hpart
    | none =>
      have hgap : Gap piece rest := by
        rw [hpiece, hrest]
        cases pattern with
        | blank => exact gap_blank
        | comment => exact gap_comment hpos
        | _ => cases hkind
      simpa [ofPiece?, hkind] using ih.skip hgap
termination_by text.length

/-- A text that cannot be taken apart has its fault at a character boundary. -/
theorem boundary_of_scanFrom_error {offset : Nat} {text : List Char} {fault : Fault}
    (h : scanFrom offset text = .error fault) :
    ∃ front back, text = front ++ back ∧ offset + Text.width front = fault.offset := by
  cases text with
  | nil =>
    rw [scanFrom] at h
    cases h
  | cons c cs =>
    rcases scanFrom_cons_error.mp h with
      ⟨-, rfl⟩ | ⟨pattern, piece, rest, hfirst, hpiece, hrest, h'⟩
    · exact ⟨[], c :: cs, rfl, rfl⟩
    · have hdecreasing : rest.length < (c :: cs).length := by
        rw [hrest]
        exact Pattern.length_drop_reach_lt hfirst
      obtain ⟨front, back, hsplit, hwidth⟩ := boundary_of_scanFrom_error h'
      refine ⟨piece ++ front, back, ?_, ?_⟩
      · rw [List.append_assoc, ← hsplit, hpiece, hrest, List.take_append_drop]
      · rw [Text.width_append, ← hwidth]
        omega
termination_by text.length

/-! ### Spans in the whole text -/

namespace Partition

variable {offset : Nat} {front text : List Char} {tokens : List Token}

/-- No token starts in front of the text that it is read from. -/
theorem offset_le (h : Partition offset text tokens) :
    ∀ token ∈ tokens, offset ≤ token.span.start := by
  induction h with
  | close =>
    intro token htoken
    rw [List.mem_singleton] at htoken
    rw [htoken]
    exact Nat.le_add_right _ _
  | @token offset start _ _ _ _ _ _ _ _ _ hstart hstop _ ih =>
    intro token htoken
    rcases List.mem_cons.mp htoken with rfl | hrest
    · show offset ≤ start
      omega
    · have := ih token hrest
      omega

/-- Tokens follow one another without overlap. -/
theorem pairwise (h : Partition offset text tokens) :
    tokens.Pairwise fun token next => token.span.stop ≤ next.span.start := by
  induction h with
  | close => exact List.pairwise_singleton _ _
  | token _ _ _ _ _ hrest ih => exact .cons hrest.offset_le ih

/-- The last token is the only end token, at the end of the text. Every other one stands at its span
in the text, and is not empty. -/
theorem exists_body (h : Partition offset text tokens) (hfront : Text.width front = offset) :
    ∃ body, tokens = body ++ [eof (Text.width (front ++ text))] ∧
      ∀ token ∈ body, token.kind ≠ .eof ∧ token.span.start < token.span.stop ∧
        ∃ back, Text.Cut (front ++ text) token.span token.text.toList back := by
  -- What has been scanned is collected in front, so that spans can be compared with the whole text.
  induction h generalizing front with
  | close =>
    refine ⟨[], ?_, by simp⟩
    rw [Text.width_append, hfront]
    rfl
  | @token _ start stop gap piece rest kind tokens _ hpiece hkind hstart hstop _ ih =>
    have hwidth := Text.width_pos hpiece
    have hnext : Text.width (front ++ gap ++ piece) = stop := by
      rw [Text.width_append, Text.width_append]
      omega
    have hsource : front ++ gap ++ piece ++ rest = front ++ (gap ++ piece ++ rest) := by
      simp only [List.append_assoc]
    obtain ⟨body, rfl, hbody⟩ := ih hnext
    rw [hsource] at hbody ⊢
    refine ⟨_ :: body, rfl, List.forall_mem_cons.mpr ⟨⟨hkind, ?_, rest, front ++ gap, ?_, ?_, ?_⟩,
      hbody⟩⟩
    · show start < stop
      omega
    · rw [String.toList_ofList]
      exact hsource.symm
    · show Text.width (front ++ gap) = start
      rw [Text.width_append]
      omega
    · rw [String.toList_ofList]
      exact hnext

/-- In front of each token, from where the one before it stops, there is a gap. -/
theorem exists_gap (h : Partition offset text tokens) (hfront : Text.width front = offset)
    {earlier later : List Token} {token : Token} (htokens : tokens = earlier ++ token :: later) :
    ∃ gap back, Gap gap back ∧ Text.Cut (front ++ text)
      ⟨(earlier.getLast?.map fun last => last.span.stop).getD offset, token.span.start⟩
      gap back := by
  induction h generalizing front earlier with
  | @close offset gap hgap =>
    cases earlier with
    | nil =>
      obtain ⟨rfl, -⟩ := List.cons.inj htokens
      refine ⟨gap, [], hgap, front, (List.append_nil _).symm, hfront, ?_⟩
      rw [Text.width_append, hfront]
      rfl
    | cons first earlier => simp at htokens
  | @token offset start stop gap piece rest kind tokens hgap _ _ hstart hstop _ ih =>
    cases earlier with
    | nil =>
      obtain ⟨rfl, -⟩ := List.cons.inj htokens
      refine ⟨gap, piece ++ rest, hgap, front, ?_, hfront, ?_⟩
      · simp only [List.append_assoc]
      · show Text.width (front ++ gap) = start
        rw [Text.width_append]
        omega
    | cons first earlier =>
      obtain ⟨rfl, hrest⟩ := List.cons.inj htokens
      have hnext : Text.width (front ++ gap ++ piece) = stop := by
        rw [Text.width_append, Text.width_append]
        omega
      have hsource : front ++ gap ++ piece ++ rest = front ++ (gap ++ piece ++ rest) := by
        simp only [List.append_assoc]
      have hgap := ih hnext hrest
      rw [hsource] at hgap
      -- The token before is the first one, unless there are others in between.
      cases hlast : earlier.getLast? with
      | none =>
        rw [List.getLast?_eq_none_iff] at hlast
        subst hlast
        exact hgap
      | some last =>
        rw [hlast] at hgap
        rw [List.getLast?_cons, hlast]
        exact hgap

end Partition

/-- Tokens and gaps partition a text. Tokens follow one another without overlap. Every token but
the last one is the piece of the text at its span, which is not empty and is cut at character
boundaries; the last one is the only end token and stands at the end of the text. Each gap in front
of a token, from the end of the token before it or from the beginning of the text, consists of
blanks and comments. -/
theorem scan_partition {text : String} {tokens : List Token} (h : scan text = .ok tokens) :
    (tokens.Pairwise fun token next => token.span.stop ≤ next.span.start) ∧
    (∃ body, tokens = body ++ [eof text.utf8ByteSize] ∧
      ∀ token ∈ body, token.kind ≠ .eof ∧ token.span.start < token.span.stop ∧
        ∃ back, Text.Cut text.toList token.span token.text.toList back) ∧
    ∀ earlier token later, tokens = earlier ++ token :: later →
      ∃ gap back, Gap gap back ∧ Text.Cut text.toList
        ⟨(earlier.getLast?.map fun last => last.span.stop).getD 0, token.span.start⟩ gap back := by
  have hpartition := partition_scanFrom h
  refine ⟨hpartition.pairwise, ?_, ?_⟩
  · obtain ⟨body, hbody⟩ := hpartition.exists_body (rfl : Text.width [] = 0)
    rw [List.nil_append, Text.width_toList] at hbody
    exact ⟨body, hbody⟩
  · intro earlier token later htokens
    exact hpartition.exists_gap (rfl : Text.width [] = 0) htokens

/-- A text with a blank and a letter that take two bytes each. The comment at its end is the gap in
front of the end token. -/
theorem scan_partition_remark :
    ∃ tokens, scan "x\u00a0= 1; // é" = .ok tokens ∧
      (tokens.map Token.span) = [⟨0, 1⟩, ⟨3, 4⟩, ⟨5, 6⟩, ⟨6, 7⟩, ⟨13, 13⟩] ∧
      (tokens.Pairwise fun token next => token.span.stop ≤ next.span.start) ∧
      ∃ gap back, Gap gap back ∧ Text.Cut "x\u00a0= 1; // é".toList ⟨7, 13⟩ gap back := by
  have hscan : scan "x\u00a0= 1; // é" = .ok
      [⟨.identifier, "x", ⟨0, 1⟩⟩, ⟨.assignment, "=", ⟨3, 4⟩⟩, ⟨.number, "1", ⟨5, 6⟩⟩,
        ⟨.semicolon, ";", ⟨6, 7⟩⟩, eof 13] := by
    have hrun : (scan "x\u00a0= 1; // é").toOption = some
        [⟨.identifier, "x", ⟨0, 1⟩⟩, ⟨.assignment, "=", ⟨3, 4⟩⟩, ⟨.number, "1", ⟨5, 6⟩⟩,
          ⟨.semicolon, ";", ⟨6, 7⟩⟩, eof 13] := by
      decide +kernel
    cases hresult : scan "x\u00a0= 1; // é" with
    | error fault => simp [hresult, Except.toOption] at hrun
    | ok tokens => rw [hresult] at hrun; exact congrArg _ (Option.some.inj hrun)
  obtain ⟨hpairwise, -, hgap⟩ := scan_partition hscan
  exact ⟨_, hscan, rfl, hpairwise, hgap [_, _, _, _] (eof 13) [] rfl⟩

end Token

end ArrayScript
