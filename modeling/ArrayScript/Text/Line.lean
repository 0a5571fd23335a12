import ArrayScript.Text.Position

/-!
# `ArrayScript.Text.Line`: the line around an offset

A text is cut after each line break, so every line but perhaps the last one ends with its break
(`lines`); `rows` are the lines without their breaks. `lineAt?` finds the line that holds a byte
offset by walking along the lines with a count of them (`findLine`). The end of the text is in none
of them and belongs to the last one, which is then given without its line break.
-/

set_option autoImplicit false

namespace ArrayScript.Text

/-- A line of a text: its number, counted from one, its characters, and the byte offset inside it
that was asked for. -/
structure Line where
  number : Nat
  text : List Char
  column : Nat
deriving DecidableEq, Repr

/-- Puts a character in front of a text that is already cut into lines. -/
def consLine (c : Char) (rest : List (List Char)) : List (List Char) :=
  if c = '\n' then [c] :: rest
  else match rest with
    | [] => [[c]]
    | line :: more => (c :: line) :: more

/-- The lines of a text, each with its line break. An empty text has none. -/
def lines (text : List Char) : List (List Char) :=
  text.foldr consLine []

/-- Cutting into lines loses nothing. -/
theorem flatten_lines (text : List Char) : (lines text).flatten = text := by
  induction text with
  | nil => rfl
  | cons c cs ih =>
    have step : lines (c :: cs) = consLine c (lines cs) := rfl
    rw [step]
    unfold consLine
    split
    · simp [ih]
    · cases h : lines cs with
      | nil => rw [h] at ih; simp [← ih]
      | cons line more => rw [h] at ih; simp [← ih]

/-- The lines of a text without their line breaks. A line break may be written with a carriage
return in front of it, which then belongs to it; a carriage return alone is a character like any
other. -/
def rows : List Char → List (List Char)
  | [] => []
  | '\n' :: rest => [] :: rows rest
  | '\r' :: '\n' :: rest => [] :: rows rest
  | c :: rest =>
    match rows rest with
    | [] => [[c]]
    | row :: more => (c :: row) :: more

/-- Goes through `lines`, the first of which has number `number` and starts at `start`, until one of
them holds `offset`. When none does, what comes back is the number that the next line would
have. -/
def findLine (offset : Nat) : (number start : Nat) → (lines : List (List Char)) → Except Nat Line
  | number, _, [] => .error number
  | number, start, line :: rest =>
    if start ≤ offset ∧ offset < start + width line then .ok ⟨number, line, offset - start⟩
    else findLine offset (number + 1) (start + width line) rest

/-- The line around a byte offset. An offset behind the end has none, and neither has an empty
text. At the end itself no line holds the offset: the search has then counted one line too many, and
the last line is given as it stands without its line break. -/
def lineAt? (text : List Char) (offset : Nat) : Option Line :=
  if width text < offset then none
  else match findLine offset 1 0 (lines text) with
    | .ok line => some line
    | .error next => (rows text).getLast?.map fun row => ⟨max (next - 1) 1, row, width row⟩

end ArrayScript.Text
