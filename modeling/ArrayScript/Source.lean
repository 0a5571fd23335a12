import ArrayScript.Analysis.Function
import ArrayScript.Decl.Parse
import ArrayScript.Token.Scan

/-!
# `ArrayScript.Source`: from a program text to a program

A text with the name of its file goes through reading, parsing and analysis, and the first fault on
the way is the error of the whole.
-/

set_option autoImplicit false

namespace ArrayScript

/-- A program text and the name that its positions carry. -/
structure Source where
  file : String
  text : String

namespace Source

/-- Turns a fault in the text into an error. -/
def orError {α : Type} (source : Source) : Except Fault α → Except Error α
  | .ok a => .ok a
  | .error fault => .error (fault.inFile source.file)

/-- The tokens of a text. -/
def tokens (source : Source) : Except Error (List Token) :=
  source.orError (Token.scan source.text)

/-- The declarations of a text. -/
def decls (source : Source) : Except Error (List Decl) := do
  let tokens ← source.tokens
  source.orError (Decl.parse tokens)

/-- The expression that a text consists of. -/
def expr (source : Source) : Except Error Expr := do
  let tokens ← source.tokens
  source.orError (Expr.parse tokens)

/-- The program of a text. -/
def compile (source : Source) : Except Error Program := do
  let decls ← source.decls
  Program.ofDecls source.file decls

end Source

end ArrayScript
