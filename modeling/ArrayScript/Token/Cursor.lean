import ArrayScript.Error.Basic
import ArrayScript.Token.Kind

/-!
# `ArrayScript.Token.Cursor`: reading a token list from left to right

A cursor holds the tokens that are still to be read. The end token that closes every list is kept
apart and is never consumed, so a cursor always has a current token. A reader that succeeds
returns the cursor behind what it has read, together with the fact that it took at least one token
(`Cursor.After`) or that it put none back (`Cursor.From`); loops over readers end by that fact.
-/

set_option autoImplicit false

namespace ArrayScript.Token

/-- The tokens still to be read, the end token that closes them, and where the token consumed last
ended. -/
structure Cursor where
  rest : List Token
  close : Token
  stop : Nat

namespace Cursor

/-- A cursor at the beginning of a token list. A list that does not end with an end token is closed
by one where its last token ends. -/
def start (tokens : List Token) : Cursor :=
  match tokens.getLast? with
  | none => ⟨[], eof 0, 0⟩
  | some last =>
    if last.kind = .eof then ⟨tokens.dropLast, last, 0⟩ else ⟨tokens, eof last.span.stop, 0⟩

/-- The number of tokens still to be read. -/
def size (c : Cursor) : Nat :=
  c.rest.length

/-- The token that is read next. -/
def current (c : Cursor) : Token :=
  c.rest.headD c.close

/-- The cursors that have moved past at least one token of `c`. -/
abbrev After (c : Cursor) : Type :=
  { d : Cursor // d.size < c.size }

/-- The cursors that stand at `c` or further on. -/
abbrev From (c : Cursor) : Type :=
  { d : Cursor // d.size ≤ c.size }

/-- Nothing has been read yet. -/
def here (c : Cursor) : c.From :=
  ⟨c, Nat.le_refl _⟩

/-- A reader that starts after `c` ends after `c`. -/
def After.within {c d : Cursor} (hd : d.size < c.size) (f : d.After) : c.After :=
  ⟨f.1, Nat.lt_trans f.2 hd⟩

/-- A reader that starts after `c` ends after `c`, also if it takes no token. -/
def From.within {c d : Cursor} (hd : d.size < c.size) (f : d.From) : c.After :=
  ⟨f.1, Nat.lt_of_le_of_lt f.2 hd⟩

/-- A reader that starts at `c` or further on and takes a token ends after `c`. -/
def After.beyond {c d : Cursor} (hd : d.size ≤ c.size) (f : d.After) : c.After :=
  ⟨f.1, Nat.lt_of_lt_of_le f.2 hd⟩

/-- A cursor after `c` has in particular put nothing back. -/
def After.toFrom {c : Cursor} (d : c.After) : c.From :=
  ⟨d.1, Nat.le_of_lt d.2⟩

@[simp] theorem val_here (c : Cursor) : c.here.1 = c := rfl

@[simp] theorem After.val_within {c d : Cursor} (hd : d.size < c.size) (f : d.After) :
    (f.within hd).1 = f.1 := rfl

@[simp] theorem From.val_within {c d : Cursor} (hd : d.size < c.size) (f : d.From) :
    (f.within hd).1 = f.1 := rfl

@[simp] theorem After.val_beyond {c d : Cursor} (hd : d.size ≤ c.size) (f : d.After) :
    (f.beyond hd).1 = f.1 := rfl

@[simp] theorem After.val_toFrom {c : Cursor} (d : c.After) : d.toFrom.1 = d.1 := rfl

/-- The current token is not what the grammar asks for. -/
def unexpected (c : Cursor) : Fault :=
  ⟨.unexpected c.current.text, c.current.span.start⟩

/-- The current token is not what the grammar asks for, and what that is has a name. -/
def unexpectedFor (c : Cursor) (expectation : Expectation) : Fault :=
  ⟨.unexpectedFor c.current.text expectation, c.current.span.start⟩

/-- The current token and the cursor behind it, unless only the end token is left. -/
def next? (c : Cursor) : Option (Token × c.After) :=
  match h : c.rest with
  | [] => none
  | token :: rest => some (token, ⟨⟨rest, c.close, token.span.stop⟩, by simp [size, h]⟩)

/-- The cursor behind the current token, if that has the given kind. -/
def skip? (c : Cursor) (kind : Kind) : Option c.After :=
  match c.next? with
  | some (token, d) => if token.kind = kind then some d else none
  | none => none

/-- Consumes a token of the given kind; any other one is the fault `otherwise`. -/
def expectOr (c : Cursor) (kind : Kind) (otherwise : Fault) : Except Fault (Token × c.After) :=
  match c.next? with
  | some (token, d) => if token.kind = kind then .ok (token, d) else .error otherwise
  | none => .error otherwise

/-- Consumes a token of the given kind. -/
def expect (c : Cursor) (kind : Kind) : Except Fault (Token × c.After) :=
  c.expectOr kind c.unexpected

end Cursor

end ArrayScript.Token
