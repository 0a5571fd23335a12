import ArrayScript.Text.Blank
import ArrayScript.Text.Line

/-!
# `ArrayScript.Text.Excerpt`: pointing at a place in a program

An excerpt shows the line of an error and draws an arrow under it:

    -> file.arr
       |
    20 | x = y + 1;
       | ----^

The indentation of the line is left out, and the arrow is as long as the bytes before the error.
-/

set_option autoImplicit false

namespace ArrayScript.Text

/-- Whether a character indents a line. -/
def isIndent (c : Char) : Bool :=
  c = ' ' || c = '\t'

/-- The line as an excerpt shows it: without indentation and without blanks at its end. -/
def Line.shown (line : Line) : List Char :=
  ((line.text.dropWhile isIndent).reverse.dropWhile isBlank).reverse

/-- How many dashes lead up to the arrow's head. -/
def Line.dashes (line : Line) : Nat :=
  line.column - (line.text.takeWhile isIndent).length

/-- The four lines of an excerpt, for the file shown as `path`. -/
def Line.excerpt (line : Line) (path : String) : String :=
  let number := toString line.number
  let margin := "".pushn ' ' (number.length + 1) ++ "|"
  "-> " ++ path ++ "\n" ++
  margin ++ "\n" ++
  number ++ " | " ++ String.ofList line.shown ++ "\n" ++
  margin ++ " " ++ "".pushn '-' line.dashes ++ "^"

/-- The excerpt of `text` around an offset, if the offset lies in it. -/
def excerpt? (text : String) (offset : Nat) (path : String) : Option String :=
  (lineAt? text.toList offset).map fun line => line.excerpt path

end ArrayScript.Text
