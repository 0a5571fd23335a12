import ArrayScript.Datum
import ArrayScript.Proofs.LongestMatch
import ArrayScript.Proofs.Numeral
import ArrayScript.Proofs.Printing

/-!
# `ArrayScript.Proofs.Literal`: written data are read back

A datum is written as the text of an expression (`Datum.expr`): a number as its numeral, behind a
dash if its sign is set, and a list as its items in brackets. Reading goes the same way back, in
three steps.

* `Datum.scans_text`: the text is scanned into the tokens of the expression. Its pieces are put
  together one by one (`Token.Scans`), and each of them says what may follow it: only a comma, a
  bracket or the end can follow an item, so no numeral is ever continued.
* `exists_parse`: the tokens are parsed as the expression.
* `Datum.ofExpr?_expr`: the expression denotes the datum.

`Datum.read_text` is the whole way.
-/

set_option autoImplicit false

namespace ArrayScript

open Grammar
open Decimal (Binary Numeral)
open Token (Cursor)

/-! ### Pieces of a text -/

namespace Token

/-- In front of every text that satisfies `follow`, some characters are scanned into tokens with the
given terminals. What follows has to be restricted, because a pattern takes as much as it can: a
numeral in front of a digit would be read as a longer one. -/
def Scans (follow : List Char → Prop) (chars : List Char) (terminals : List Terminal) : Prop :=
  ∀ offset rest, follow rest → ∃ tokens, tokens.map Token.terminal = terminals ∧
    ∀ more, scanFrom (offset + Text.width chars) rest = .ok more →
      scanFrom offset (chars ++ rest) = .ok (tokens ++ more)

/-- A text that starts with a digit. It is what follows a dash in the text of a datum, and it keeps
the dash from being read as part of an operator. -/
def Digital (rest : List Char) : Prop :=
  rest.head?.any Char.isDigit = true

/-- A text that does not start with white space. It is what follows a blank in the text of a datum,
and it makes the blank a piece of its own. -/
def Solid (rest : List Char) : Prop :=
  rest.head?.any Text.isBlank = false

/-- A text that starts with what can stand behind an item of a list, if it does not end at once.
Every datum is written in such a place, so this is what its text may be followed by. -/
def Delimited (rest : List Char) : Prop :=
  ∀ c ∈ rest.head?, c = ',' ∨ c = ']'

/-- Two pieces in a row are scanned into their tokens in a row, if the second piece is something
that may follow the first. All texts below are put together by this lemma, and it leaves one
obligation for each seam. -/
theorem Scans.append {follow follow' : List Char → Prop} {chars chars' : List Char}
    {terminals terminals' : List Terminal} (h : Scans follow chars terminals)
    (h' : Scans follow' chars' terminals')
    (hfollow : ∀ rest, follow' rest → follow (chars' ++ rest)) :
    Scans follow' (chars ++ chars') (terminals ++ terminals') := by
  intro offset rest hrest
  obtain ⟨tokens, hterminals, hscan⟩ := h offset (chars' ++ rest) (hfollow rest hrest)
  obtain ⟨tokens', hterminals', hscan'⟩ := h' (offset + Text.width chars) rest hrest
  refine ⟨tokens ++ tokens', by rw [List.map_append, hterminals, hterminals'], ?_⟩
  intro more hmore
  rw [Text.width_append, ← Nat.add_assoc] at hmore
  rw [List.append_assoc, List.append_assoc]
  exact hscan _ (hscan' _ hmore)

/-- A piece is cut off by the pattern that reaches to its end. It turns what is known of a single
pattern into a step of scanning, after which scanning goes on behind the piece. -/
theorem scanFrom_piece {pattern : Pattern} {piece rest : List Char} {offset : Nat}
    {more : List Token} (hfirst : Pattern.first? (piece ++ rest) = some pattern)
    (hreach : pattern.reach (piece ++ rest) = piece.length)
    (hmore : scanFrom (offset + Text.width piece) rest = .ok more) :
    scanFrom offset (piece ++ rest) = .ok ((ofPiece? pattern offset piece).toList ++ more) := by
  cases piece with
  | nil =>
    have hpos := Pattern.reach_pos_of_first? hfirst
    rw [hreach] at hpos
    exact absurd hpos (Nat.lt_irrefl 0)
  | cons c cs =>
    rw [List.cons_append] at *
    refine scanFrom_cons_ok.2 ⟨pattern, c :: cs, rest, more, hfirst, ?_, ?_, hmore, rfl⟩
    · rw [hreach, ← List.cons_append, List.take_left]
    · rw [hreach, ← List.cons_append, List.drop_left]

/-! Marks and blanks. -/

/-- A mark of one character is scanned into its token, provided that the pattern found first in
front of what follows is that of the mark. That proviso is where longer operators with the same
first character have to be excluded. -/
theorem scans_mark {follow : List Char → Prop} {c : Char} {kind : Kind} (literal : String)
    (hkind : kind.isMark = true)
    (hfirst : ∀ rest, follow rest → Pattern.first? (c :: rest) = some (.mark [c] literal kind)) :
    Scans follow [c] [.mark kind] := by
  intro offset rest hrest
  refine ⟨[⟨kind, String.ofList [c], ⟨offset, offset + Text.width [c]⟩⟩], ?_, fun more hmore => ?_⟩
  · exact congrArg (· :: []) (terminal_eq_mark_iff.2 ⟨rfl, hkind⟩)
  · exact scanFrom_piece (hfirst rest hrest) (by simp [Pattern.reach]) hmore

/-- An opening bracket is always a token by itself, as no longer mark starts with it. -/
theorem scans_openBracket : Scans (fun _ => True) ['['] [.mark .openBracket] :=
  scans_mark "[" rfl fun _ _ => rfl

/-- A closing bracket is always a token by itself. It is stated for what may stand behind an item,
since the bracket is the last character of one. -/
theorem scans_closeBracket : Scans Delimited [']'] [.mark .closeBracket] :=
  scans_mark "]" rfl fun _ _ => rfl

/-- A comma is always a token by itself, whatever comes behind it. -/
theorem scans_comma : Scans (fun _ => True) [','] [.mark .comma] :=
  scans_mark "," rfl fun _ _ => rfl

/-- A dash in front of a digit is no part of a longer operator. It is the only mark in the text of a
datum for which what follows matters. -/
theorem scans_dash : Scans Digital ['-'] [.mark .dash] := by
  refine scans_mark "-" rfl fun rest hrest => ?_
  cases rest with
  | nil => cases hrest
  | cons c cs =>
    have hne : '=' ≠ c := by
      rintro rfl
      cases hrest
    simp [Pattern.first?, Pattern.table, Pattern.reach, isWordStart]
    exact ⟨rfl, hne⟩

/-- A blank in front of anything but white space is dropped by itself. Blanks yield no token, so it
contributes nothing to the terminals. -/
theorem scans_blank : Scans Solid [' '] [] := by
  intro offset rest hrest
  have hreach : Pattern.blank.reach (' ' :: rest) = 1 := by
    cases rest with
    | nil => rfl
    | cons c cs =>
      have hc : ¬ Text.isBlank c = true := by
        rw [show Text.isBlank c = false from hrest]
        decide
      show (List.takeWhile Text.isBlank (' ' :: c :: cs)).length = 1
      rw [List.takeWhile_cons_of_pos (by rfl), List.takeWhile_cons_of_neg hc]
      rfl
  exact ⟨[], rfl, fun more hmore => @scanFrom_piece .blank [' '] rest _ _ rfl hreach hmore⟩

/-! Numerals. -/

/-- What may stand behind an item is nothing, a comma or a closing bracket. In each of these cases
the reach of the pattern for numerals can be computed. -/
theorem Delimited.cases {rest : List Char} (h : Delimited rest) :
    rest = [] ∨ (∃ cs, rest = ',' :: cs) ∨ ∃ cs, rest = ']' :: cs := by
  cases rest with
  | nil => exact .inl rfl
  | cons c cs =>
    rcases h c rfl with rfl | rfl
    · exact .inr (.inl ⟨cs, rfl⟩)
    · exact .inr (.inr ⟨cs, rfl⟩)

/-- A closing bracket may stand behind an item: the seam between the last item of a list and its
end. -/
theorem delimited_closeBracket (rest : List Char) : Delimited (']' :: rest) := by
  intro c hc
  exact .inr (Option.some.inj hc).symm

/-- A numeral ends in front of a delimiter: that is neither a digit nor a point. Without a fraction
the point is what matters, since a point would start one. -/
theorem reach_numeral (n : Numeral) {rest : List Char} (h : Delimited rest) :
    Pattern.numeral.reach (n.text ++ rest) = n.text.length := by
  have hrest : rest.head?.any Char.isDigit = false := by
    rcases h.cases with rfl | ⟨cs, rfl⟩ | ⟨cs, rfl⟩ <;> rfl
  unfold Numeral.text
  by_cases hfraction : n.fraction = []
  · obtain ⟨htake, -⟩ := Decimal.span_digits n.isDigit_whole hrest
    rw [if_pos hfraction]
    simp only [Pattern.reach, htake, List.drop_left]
    rcases h.cases with rfl | ⟨cs, rfl⟩ | ⟨cs, rfl⟩ <;> rfl
  · obtain ⟨htake, -⟩ := @Decimal.span_digits _ ('.' :: (n.fraction ++ rest)) n.isDigit_whole rfl
    obtain ⟨htake', -⟩ := Decimal.span_digits n.isDigit_fraction hrest
    rw [if_neg hfraction, List.append_assoc, List.cons_append]
    simp only [Pattern.reach, htake, htake', List.drop_left]
    rw [if_neg (by simp [hfraction, n.whole_ne_nil]), List.length_append, List.length_cons]
    omega

/-- A numeral is found by the pattern for numerals. Patterns are tried in order, and the only one in
front of it, that for words, does not match a digit. -/
theorem first?_numeral (n : Numeral) {rest : List Char} (h : Delimited rest) :
    Pattern.first? (n.text ++ rest) = some .numeral := by
  obtain ⟨c, cs, htext, hc⟩ := n.exists_head
  have hword : Pattern.word.reach (n.text ++ rest) = 0 := by
    rw [htext]
    refine if_neg ?_
    show ¬ isWordStart c = true
    rw [isWordStart_of_isDigit hc]
    decide
  have hnumeral : 0 < Pattern.numeral.reach (n.text ++ rest) := by
    rw [reach_numeral n h, htext]
    exact Nat.zero_lt_succ _
  unfold Pattern.first? Pattern.table
  rw [List.find?_cons_of_neg (by simp [hword]), List.find?_cons_of_pos (by simpa using hnumeral)]

section

variable {x : Float} (h : x.isFinite = true) (hsign : (Binary.ofFloat x).negative = false)
include h hsign

/-- The text of a finite number without a sign starts with a digit, so that a dash may stand in
front of it. -/
theorem digital_write (rest : List Char) : Digital ((Decimal.write x).toList ++ rest) := by
  obtain ⟨n, htext, -⟩ := Decimal.exists_numeral h hsign
  obtain ⟨c, cs, hhead, hc⟩ := n.exists_head
  rw [htext, hhead]
  exact hc

/-- The text of a finite number without a sign is scanned into one token, which holds that text. It
is the shortest numeral that reads back as the number, of which only the shape matters here. -/
theorem scans_write : Scans Delimited (Decimal.write x).toList [.number (Decimal.write x)] := by
  obtain ⟨n, htext, -⟩ := Decimal.exists_numeral h hsign
  intro offset rest hrest
  refine ⟨(ofPiece? .numeral offset n.text).toList, ?_, fun more hmore => ?_⟩
  · rw [← @String.ofList_toList (Decimal.write x), htext]
    rfl
  · rw [htext] at hmore ⊢
    exact scanFrom_piece (first?_numeral n hrest) (reach_numeral n hrest) hmore

end

end Token

/-! ### Data as expressions -/

namespace Datum

mutual

/-- Whether all numbers in a datum are finite. Infinities and what is no number are written as
words, which are not read back as numbers. -/
def isFinite : Datum → Bool
  | number value => value.isFinite
  | array items => isFiniteAll items

/-- Whether all numbers in some data are finite, one datum after the other. -/
def isFiniteAll : List Datum → Bool
  | [] => true
  | d :: ds => isFinite d && isFiniteAll ds

end

mutual

/-- The expression that a datum is written as. A number whose sign is set becomes a negation,
because numerals have no sign of their own. -/
def expr : Datum → Expr
  | number value =>
    if (Binary.ofFloat value).negative then .unary .blank .negation (.number .blank (-value))
    else .number .blank value
  | array items => .list .blank (exprAll items)

/-- The expressions that some data are written as, one for each datum. -/
def exprAll : List Datum → List Expr
  | [] => []
  | d :: ds => expr d :: exprAll ds

end

mutual

/-- Spans have no part in what an expression denotes. Parsing yields the expression that was printed
only up to its spans, so they have to be taken out of the way. -/
theorem ofExpr?_bare : ∀ e : Expr, ofExpr? e.bare = ofExpr? e
  | .number _ _ => by rw [Expr.bare, ofExpr?, ofExpr?]
  | .unary _ .negation operand => by rw [Expr.bare, ofExpr?, ofExpr?, ofExpr?_bare operand]
  | .unary _ .inversion _ => rfl
  | .list _ items => by rw [Expr.bare, ofExpr?, ofExpr?, ofExprs?_bare items]
  | .newArray .. => rfl
  | .var .. => rfl
  | .call .. => rfl
  | .binary .. => rfl

/-- Spans have no part in what the items of a list denote. It is proved together with the statement
about a single expression. -/
theorem ofExprs?_bare : ∀ es : List Expr, ofExprs? (Expr.bareAll es) = ofExprs? es
  | [] => rfl
  | e :: es => by rw [Expr.bareAll, ofExprs?, ofExprs?, ofExpr?_bare e, ofExprs?_bare es]

end

mutual

/-- The expression that a datum is written as denotes the datum. For a number with a sign this is
because negating twice yields the same double, bit by bit. -/
theorem ofExpr?_expr : ∀ {d : Datum}, d.isFinite = true → ofExpr? d.expr = some d
  | .number value, h => by
    unfold expr
    split
    · simp [ofExpr?, Binary.neg_neg_of_isFinite h]
    · rfl
  | .array items, h => by
    rw [expr, ofExpr?, ofExprs?_exprAll h]
    rfl

/-- The expressions that some data are written as denote these data, in the same order. It is the
case of lists in the statement about a single datum. -/
theorem ofExprs?_exprAll : ∀ {ds : List Datum}, isFiniteAll ds = true →
    ofExprs? (exprAll ds) = some ds
  | [], _ => rfl
  | d :: ds, h => by
    have h := Bool.and_eq_true_iff.1 h
    rw [exprAll, ofExprs?, ofExpr?_expr h.1, ofExprs?_exprAll h.2]
    rfl

end

mutual

/-- The expression of a datum can be printed: its numbers have numerals that read back as them. The
numbers in it are never negative, as signs have become negations. -/
theorem printable_expr : ∀ {d : Datum}, d.isFinite = true → d.expr.Printable Decimal.write
  | .number value, h => by
    unfold expr
    split
    · refine ⟨rfl, fun x hx => ?_⟩
      rw [List.mem_singleton.1 hx, Decimal.read?_write (Binary.isFinite_neg h)]
    · refine ⟨rfl, fun x hx => ?_⟩
      rw [List.mem_singleton.1 hx, Decimal.read?_write h]
  | .array items, h => printable_exprAll h

/-- The expressions of some data can be printed. The two conditions of printing are collected along
the list, the one as a conjunction and the other over the numbers of all items. -/
theorem printable_exprAll : ∀ {ds : List Datum}, isFiniteAll ds = true →
    Expr.sizedAll (exprAll ds) = true
      ∧ ∀ x ∈ Expr.numbersAll (exprAll ds), Decimal.read? (Decimal.write x) = some x
  | [], _ => ⟨rfl, fun x hx => by cases hx⟩
  | d :: ds, h => by
    have h := Bool.and_eq_true_iff.1 h
    obtain ⟨hsized, hnumbers⟩ := printable_expr h.1
    obtain ⟨hsizedAll, hnumbersAll⟩ := printable_exprAll h.2
    refine ⟨?_, fun x hx => (List.mem_append.1 hx).elim (hnumbers x) (hnumbersAll x)⟩
    rw [exprAll, Expr.sizedAll, hsized, hsizedAll]
    rfl

end

/-! ### Data as texts -/

/-- The characters of data that each stand behind a comma. Together with the first item they make up
the inside of a list, which is how printing and parsing see it too. -/
def continuation : List Datum → List Char
  | [] => []
  | d :: ds => [','] ++ ([' '] ++ (d.text.toList ++ continuation ds))

/-- Items joined by commas are the first item and the continuation. The text is made by joining
strings, and this brings it into the form that the recursion on the data needs. -/
theorem toList_intercalate_textAll (d : Datum) (ds : List Datum) :
    (", ".intercalate (textAll (d :: ds))).toList = d.text.toList ++ continuation ds := by
  induction ds generalizing d with
  | nil => simp [textAll, continuation]
  | cons e es ih =>
    rw [textAll, textAll, String.intercalate_cons_cons, ← textAll, String.toList_append,
      String.toList_append, ih e, List.append_assoc]
    rfl

/-- The characters of a list that is not empty, nested to the right, so that the pieces can be put
together one by one from the end. -/
theorem toList_text_array (d : Datum) (ds : List Datum) :
    (text (array (d :: ds))).toList = ['['] ++ (d.text.toList ++ (continuation ds ++ [']'])) := by
  rw [text, String.toList_append, String.toList_append, toList_intercalate_textAll,
    List.append_assoc, List.append_assoc]
  rfl

/-- What stands behind an item is delimited, be it another item or what follows the last one. This
settles all seams between items at once. -/
theorem delimited_continuation (ds : List Datum) {rest : List Char} (h : Token.Delimited rest) :
    Token.Delimited (continuation ds ++ rest) := by
  cases ds with
  | nil => exact h
  | cons d ds =>
    intro c hc
    exact .inl (Option.some.inj hc).symm

/-- The text of a datum does not start with white space: it starts with a bracket, a dash or a
digit. Hence the blank behind a comma ends there. -/
theorem solid_text {d : Datum} (h : d.isFinite = true) (rest : List Char) :
    Token.Solid (d.text.toList ++ rest) := by
  cases d with
  | array items =>
    rw [text, String.toList_append, String.toList_append]
    rfl
  | number value =>
    rw [text]
    cases hsign : (Binary.ofFloat value).negative with
    | true =>
      rw [Decimal.toList_write_of_negative h hsign]
      rfl
    | false =>
      obtain ⟨n, htext, -⟩ := Decimal.exists_numeral h hsign
      obtain ⟨c, cs, hhead, hc⟩ := n.exists_head
      rw [htext, hhead]
      exact Token.isBlank_of_isDigit hc

mutual

/-- The text of a datum is scanned into the tokens of its expression. The recursion is on the datum,
and each piece of its text is followed by something that the piece allows for. -/
theorem scans_text : ∀ {d : Datum}, d.isFinite = true →
    Token.Scans Token.Delimited d.text.toList ((d.expr.print Decimal.write).map Token.terminal)
  | .number value, h => by
    rw [text, expr]
    cases hsign : (Binary.ofFloat value).negative with
    | false => exact Token.scans_write h hsign
    | true =>
      have hfinite := Binary.isFinite_neg h
      have hclear := Binary.negative_neg h hsign
      rw [Decimal.toList_write_of_negative h hsign]
      exact Token.scans_dash.append (Token.scans_write hfinite hclear)
        fun rest _ => Token.digital_write hfinite hclear rest
  | .array [], _ => Token.scans_openBracket.append Token.scans_closeBracket fun _ _ => trivial
  | .array (d :: ds), h => by
    have h := Bool.and_eq_true_iff.1 h
    have hmore := (scans_continuation h.2).append Token.scans_closeBracket
      fun rest _ => Token.delimited_closeBracket rest
    -- Behind the first item stands a comma or the closing bracket.
    have hitems := (scans_text h.1).append hmore fun rest _ => by
      rw [List.append_assoc]
      exact delimited_continuation ds (Token.delimited_closeBracket rest)
    rw [toList_text_array, expr, exprAll, Expr.print, Expr.printSeparated]
    simp only [List.map_cons, List.map_append, List.map_nil, List.append_assoc]
    exact Token.scans_openBracket.append hitems fun _ _ => trivial

/-- The text of data behind commas is scanned into the tokens of a continued list. Each round takes
a comma, a blank and an item, and leaves what is delimited. -/
theorem scans_continuation : ∀ {ds : List Datum}, isFiniteAll ds = true →
    Token.Scans Token.Delimited (continuation ds)
      ((Expr.printContinued Decimal.write (exprAll ds)).map Token.terminal)
  | [], _ => fun _ _ _ => ⟨[], rfl, fun _ hmore => hmore⟩
  | d :: ds, h => by
    have h := Bool.and_eq_true_iff.1 h
    have hitems := (scans_text h.1).append (scans_continuation h.2)
      fun rest hrest => delimited_continuation ds hrest
    have hblank := Token.scans_blank.append hitems fun rest _ => by
      rw [List.append_assoc]
      exact solid_text h.1 _
    rw [exprAll, Expr.printContinued, List.map_cons, List.map_append]
    exact Token.scans_comma.append hblank fun _ _ => trivial

end

end Datum

/-! ### Reading -/

/-- Tokens with the terminals of a printed expression are parsed as this expression, up to spans.
Texts and spans of the tokens are free, so it does not matter where in a text they were scanned. -/
theorem exists_parse {numeral : Float → String} {e : Expr} (he : e.Printable numeral)
    {tokens : List Token} {last : Token} (hlast : last.kind = .eof)
    (htokens : tokens.map Token.terminal = (e.print numeral).map Token.terminal) :
    ∃ e', Expr.parse (tokens ++ [last]) = .ok e' ∧ e'.bare = e.bare := by
  -- The printed terminals are the yield of a tree, and parsing follows every tree to its end.
  obtain ⟨t, ht, hyield⟩ := (spells_print e he).logical []
  have hstart := @Cursor.ahead_start tokens last hlast
  rw [htokens, ← List.append_nil (List.map _ (e.print numeral)), hyield] at hstart
  obtain ⟨e', c, hc, hrun, hbare, hend⟩ := (Cursor.parsed_of_derives ht).gives_expression
    (by decide : Power.lowest.rank ≤ 5) (by decide) hstart (stops_nil _)
  refine ⟨e', Expr.parse_eq_ok.mpr ⟨c, hc, hrun, ?_⟩, hbare⟩
  rw [hend.current_nil]
  exact hlast

/-- The text of a datum is read as this datum, however its arrays are nested and with the sign of
every zero, if all of its numbers are finite. -/
theorem Datum.read_text {d : Datum} (h : d.isFinite = true) : Datum.read d.text = .ok d := by
  have hend : Token.Delimited [] := by
    intro c hc
    cases hc
  obtain ⟨tokens, hterminals, hscan⟩ := scans_text h 0 [] hend
  have htokens := hscan [Token.eof (0 + Text.width d.text.toList)] (by rw [Token.scanFrom])
  rw [List.append_nil] at htokens
  have hlast : (Token.eof (0 + Text.width d.text.toList)).kind = .eof := rfl
  obtain ⟨e, hparse, hbare⟩ := exists_parse (printable_expr h) hlast hterminals
  have hexpr : Token.scan d.text >>= Expr.parse = .ok e := by
    unfold Token.scan
    rw [htokens]
    exact hparse
  have hdatum : ofExpr? e = some d := by
    rw [← ofExpr?_bare, hbare, ofExpr?_bare, ofExpr?_expr h]
  unfold Datum.read
  rw [hexpr]
  dsimp only
  rw [hdatum]

end ArrayScript
