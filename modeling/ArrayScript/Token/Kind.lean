import ArrayScript.Text.Position

/-!
# `ArrayScript.Token.Kind`: tokens

A token is a kind, the piece of text it was read from, and where that piece stands. The kind alone
decides how a token is parsed; the text matters for names, numbers and error messages.
-/

set_option autoImplicit false

namespace ArrayScript

namespace Token

/-- The kinds of tokens. -/
inductive Kind where
  | eof
  | number
  | identifier
  | openBracket
  | closeBracket
  | openCurly
  | closeCurly
  | openParen
  | closeParen
  | assignment
  | equals
  | bang
  | notEquals
  | less
  | lessEquals
  | greater
  | greaterEquals
  | orOr
  | andAnd
  | semicolon
  | colon
  | comma
  | plusEquals
  | minusEquals
  | starEquals
  | slashEquals
  | percentEquals
  | plus
  | dash
  | slash
  | star
  | percent
  | fnWord
  | returnWord
  | ifWord
  | elseWord
  | newWord
  | numberWord
deriving DecidableEq, Repr

namespace Kind

/-- Every kind, in the order of the declaration. -/
def all : List Kind :=
  [ eof, number, identifier, openBracket, closeBracket, openCurly, closeCurly, openParen,
    closeParen, assignment, equals, bang, notEquals, less, lessEquals, greater, greaterEquals,
    orOr, andAnd, semicolon, colon, comma, plusEquals, minusEquals, starEquals, slashEquals,
    percentEquals, plus, dash, slash, star, percent, fnWord, returnWord, ifWord, elseWord, newWord,
    numberWord ]

theorem mem_all (kind : Kind) : kind ∈ all := by
  cases kind <;> decide

/-- The name of a kind. -/
def name : Kind → String
  | eof => "EOF"
  | number => "Number"
  | identifier => "Identifier"
  | openBracket => "OpenBracket"
  | closeBracket => "CloseBracket"
  | openCurly => "OpenCurly"
  | closeCurly => "CloseCurly"
  | openParen => "OpenParen"
  | closeParen => "CloseParen"
  | assignment => "Assignment"
  | equals => "Equals"
  | bang => "Not"
  | notEquals => "NotEquals"
  | less => "Less"
  | lessEquals => "LessEquals"
  | greater => "Greater"
  | greaterEquals => "GreaterEquals"
  | orOr => "Or"
  | andAnd => "And"
  | semicolon => "Semicolon"
  | colon => "Colon"
  | comma => "Comma"
  | plusEquals => "PlusEquals"
  | minusEquals => "MinusEquals"
  | starEquals => "StarEquals"
  | slashEquals => "SlashEquals"
  | percentEquals => "PercentEquals"
  | plus => "Plus"
  | dash => "Dash"
  | slash => "Slash"
  | star => "Star"
  | percent => "Percent"
  | fnWord => "Fn"
  | returnWord => "Return"
  | ifWord => "If"
  | elseWord => "Else"
  | newWord => "New"
  | numberWord => "NumberType"

/-- The kind with a given name. -/
def ofName? (name : String) : Option Kind :=
  all.find? fun kind => kind.name == name

end Kind

/-- The words that cannot be names, with the kinds they have instead. -/
def reserved : List (String × Kind) :=
  [ ("fn", .fnWord), ("return", .returnWord), ("if", .ifWord), ("else", .elseWord),
    ("new", .newWord), ("number", .numberWord) ]

/-- The kind of a reserved word. -/
def reservedKind? (word : String) : Option Kind :=
  reserved.lookup word

end Token

/-- A kind, the text it was read from, and the place of that text. -/
structure Token where
  kind : Token.Kind
  text : String
  span : Span
deriving DecidableEq, Repr

/-- The token that stands at the end of a text, `offset` bytes long. As in every span, the offset is
not cut to 32 bits, so the text is meant to have less than 2 ^ 32 bytes. -/
def Token.eof (offset : Nat) : Token :=
  ⟨.eof, "EOF", ⟨offset, offset⟩⟩

/-- A token as a listing shows it. -/
def Token.describe (token : Token) : String :=
  s!"Token \x7b\nkind: {token.kind.name},\nvalue: {token.text}\x7d"

end ArrayScript
