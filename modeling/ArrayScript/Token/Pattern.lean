import ArrayScript.Text.Blank
import ArrayScript.Token.Kind

/-!
# `ArrayScript.Token.Pattern`: the pieces that a program text is made of

A pattern is a class of pieces: names and reserved words, numerals, blanks, comments, and one class
for each operator or bracket. `Pattern.reach` says how far a pattern goes into a text, and
`Pattern.piece` what is then taken: an operator or bracket has a text of its own, which is taken
without another look at the text that is scanned. The table
lists the patterns in the order in which they are tried, and `Pattern.first?` picks the first one
that applies: every operator stands after those that it begins with, so `<=` is never read as `<`
and `=`.
-/

set_option autoImplicit false

namespace ArrayScript.Token

/-- Whether a character can begin a name. -/
def isWordStart (c : Char) : Bool :=
  c.isAlpha || c = '_'

/-- Whether a character can continue a name. -/
def isWordPart (c : Char) : Bool :=
  c.isAlphanum || c = '_'

/-- A class of pieces. An operator or bracket has a sample, with which a text has to begin for the
class to apply, and a literal, which becomes the token. Nothing in the type makes the two the
same. -/
inductive Pattern where
  | word
  | numeral
  | blank
  | comment
  | mark (sample : List Char) (literal : String) (kind : Kind)
deriving DecidableEq, Repr

namespace Pattern

/-- The number of characters of the longest prefix of a text that a pattern matches. No pattern
matches an empty piece, so zero means that it does not apply. -/
def reach : Pattern → List Char → Nat
  | word, text =>
    if text.head?.any isWordStart then (text.takeWhile isWordPart).length else 0
  | numeral, text =>
    let whole := (text.takeWhile Char.isDigit).length
    match text.drop whole with
    | '.' :: rest =>
      let fraction := (rest.takeWhile Char.isDigit).length
      if whole = 0 ∨ fraction = 0 then whole else whole + 1 + fraction
    | _ => whole
  | blank, text => (text.takeWhile Text.isBlank).length
  | comment, text =>
    match text with
    | '/' :: '/' :: rest => 2 + (rest.takeWhile (· ≠ '\n')).length
    | _ => 0
  | mark sample _ _, text => if sample.isPrefixOf text then sample.length else 0

/-- The patterns in the order in which they are tried. -/
def table : List Pattern :=
  [ word, numeral, blank, comment,
    mark ['['] "[" .openBracket, mark [']'] "]" .closeBracket,
    mark ['{'] "\x7b" .openCurly, mark ['}'] "\x7d" .closeCurly,
    mark ['('] "(" .openParen, mark [')'] ")" .closeParen,
    mark ['=', '='] "==" .equals, mark ['!', '='] "!=" .notEquals,
    mark ['!'] "!" .bang, mark ['='] "=" .assignment,
    mark ['<', '='] "<=" .lessEquals, mark ['<'] "<" .less,
    mark ['>', '='] ">=" .greaterEquals, mark ['>'] ">" .greater,
    mark ['|', '|'] "||" .orOr, mark ['&', '&'] "&&" .andAnd,
    mark [';'] ";" .semicolon, mark [':'] ":" .colon,
    mark [','] "," .comma, mark ['+', '='] "+=" .plusEquals,
    mark ['-', '='] "-=" .minusEquals, mark ['*', '='] "*=" .starEquals,
    mark ['/', '='] "/=" .slashEquals, mark ['%', '='] "%=" .percentEquals,
    mark ['+'] "+" .plus, mark ['-'] "-" .dash,
    mark ['/'] "/" .slash, mark ['*'] "*" .star,
    mark ['%'] "%" .percent ]

/-- The first pattern of the table that applies to a text. -/
def first? (text : List Char) : Option Pattern :=
  table.find? fun pattern => 0 < pattern.reach text

/-- A pattern that is picked takes at least one character. -/
theorem reach_pos_of_first? {text : List Char} {pattern : Pattern}
    (h : first? text = some pattern) : 0 < pattern.reach text := by
  simpa using List.find?_some h

/-- The text that an operator or bracket has whatever is scanned. -/
def literal? : Pattern → Option String
  | mark _ literal _ => some literal
  | _ => none

/-- What a pattern takes when it applies to a text: its literal, or as much of the text as it
matches. -/
def piece (pattern : Pattern) (text : List Char) : List Char :=
  (pattern.literal?.map String.toList).getD (text.take (pattern.reach text))

/-- No literal is empty. -/
theorem literal_ne_nil {pattern : Pattern} (h : pattern ∈ table) {literal : String}
    (hliteral : pattern.literal? = some literal) : literal.toList ≠ [] := by
  have hall : (table.all fun pattern => pattern.literal?.all fun literal =>
      !literal.toList.isEmpty) = true := by
    decide
  have hsome := List.all_eq_true.mp hall pattern h
  rw [hliteral] at hsome
  simpa using hsome

/-- A pattern that is picked takes something, whether that is its literal or a part of the text. -/
theorem width_piece_pos {text : List Char} {pattern : Pattern}
    (h : first? text = some pattern) : 0 < Text.width (pattern.piece text) := by
  refine Text.width_pos ?_
  unfold piece
  cases hliteral : pattern.literal? with
  | some literal => exact literal_ne_nil (List.mem_of_find?_eq_some h) hliteral
  | none =>
    have hpos := reach_pos_of_first? h
    have hne : text ≠ [] := by
      rintro rfl
      cases h
    simp [Nat.pos_iff_ne_zero.mp hpos, hne]

/-- The kind of token that a piece becomes. Blanks and comments become none. -/
def kind? : Pattern → (piece : String) → Option Kind
  | word, piece => some ((reservedKind? piece).getD .identifier)
  | numeral, _ => some .number
  | blank, _ | comment, _ => none
  | mark _ _ kind, _ => some kind

end Pattern

end ArrayScript.Token
