import ArrayScript.Error.Basic
import ArrayScript.Token.Pattern

/-!
# `ArrayScript.Token.Scan`: from text to tokens

A text is taken apart from its beginning, one piece at a time. The pieces that are not blank
become tokens, and an end token closes the list. A character at which no pattern applies is an
error.
-/

set_option autoImplicit false

namespace ArrayScript.Token

/-- The token of a piece that starts at `offset`, if the piece is not blank. Its span goes as far as
the piece is wide. Neither end is cut to 32 bits, so that the text is meant to have less than 2 ^ 32
bytes. -/
def ofPiece? (pattern : Pattern) (offset : Nat) (piece : List Char) : Option Token :=
  let text := String.ofList piece
  (pattern.kind? text).map fun kind => ⟨kind, text, ⟨offset, offset + Text.width piece⟩⟩

/-- The tokens of the text that starts at `offset`. The first pattern that applies takes its piece,
and scanning goes on as many bytes later as that piece is wide. No piece is empty. -/
def scanFrom (offset : Nat) (text : List Char) : Except Fault (List Token) :=
  match text with
  | [] => .ok [eof offset]
  | c :: cs =>
    match _h : Pattern.first? (c :: cs) with
    | none => .error ⟨.unrecognised (String.singleton c), offset⟩
    | some pattern =>
      let piece := pattern.piece (c :: cs)
      let width := Text.width piece
      do
        let tokens ← scanFrom (offset + width) (Text.skip width (c :: cs))
        return (ofPiece? pattern offset piece).toList ++ tokens
termination_by text.length
decreasing_by exact Text.length_skip_lt (Pattern.width_piece_pos _h)

/-- The tokens of a program text, closed by an end token. -/
def scan (text : String) : Except Fault (List Token) :=
  scanFrom 0 text.toList

end ArrayScript.Token
