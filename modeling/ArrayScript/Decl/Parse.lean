import ArrayScript.Decl.Basic
import ArrayScript.Stmt.Parse

/-!
# `ArrayScript.Decl.Parse`: declarations from tokens

A declaration is a name, behind the word `fn` or not, its parameters in parentheses, and a block.
Declarations follow one another until an end token.
-/

set_option autoImplicit false

namespace ArrayScript

open Token (Cursor)

namespace Token.Cursor

/-- The dimensions of a parameter, each in square brackets and possibly left open. -/
def dimensions (c : Cursor) : Except Fault (List (Option Expr) × c.From) :=
  match c.skip? .openBracket with
  | none => .ok ([], c.here)
  | some ⟨d, hd⟩ =>
    match d.skip? .closeBracket with
    | some ⟨f, hf⟩ => do
      let (dims, g) ← dimensions f
      return (none :: dims, ((g.within hf).within hd).toFrom)
    | none => do
      let (e, ⟨f, hf⟩) ← d.expression .lowest
      let (_, ⟨g, hg⟩) ← f.expect .closeBracket
      let (dims, k) ← dimensions g
      return (some e :: dims, (((k.within hg).within hf).within hd).toFrom)
termination_by c.size

/-- One parameter: a name and its type. -/
def parameter (c : Cursor) : Except Fault (Param × c.After) := do
  let (name, ⟨d, hd⟩) ← c.expectOr .identifier (c.unexpectedFor .parameterName)
  let (_, ⟨f, hf⟩) ← d.expect .colon
  let (_, ⟨g, hg⟩) ← f.expectOr .numberWord (f.unexpectedFor .numberType)
  let (dims, k) ← g.dimensions
  return (⟨name.text, dims, ⟨name.span.start, k.1.stop⟩⟩, ((k.within hg).within hf).within hd)

/-- At least one parameter, between commas, up to and including the closing parenthesis. -/
def parametersOne (c : Cursor) : Except Fault (List Param × c.After) := do
  let (p, ⟨d, hd⟩) ← c.parameter
  match d.skip? .comma with
  | some ⟨f, hf⟩ => do
    let (ps, g) ← parametersOne f
    return (p :: ps, (g.within hf).within hd)
  | none => do
    let (_, f) ← d.expect .closeParen
    return ([p], f.within hd)
termination_by c.size

/-- Parameters between commas, up to and including the closing parenthesis. -/
def parameters (c : Cursor) : Except Fault (List Param × c.After) :=
  match c.skip? .closeParen with
  | some d => .ok ([], d)
  | none => parametersOne c

/-- A declaration from its name on; it began at `start`. -/
def declarationFrom (start : Nat) (c : Cursor) : Except Fault (Decl × c.After) := do
  let (name, ⟨d, hd⟩) ← c.expectOr .identifier (c.unexpectedFor .functionName)
  let (_, ⟨f, hf⟩) ← d.expect .openParen
  let (params, ⟨g, hg⟩) ← f.parameters
  let (body, k) ← g.block
  return (⟨name.text, params, body, ⟨start, k.1.stop⟩⟩, ((k.within hg).within hf).within hd)

/-- One declaration. -/
def declaration (c : Cursor) : Except Fault (Decl × c.After) :=
  match c.skip? .fnWord with
  | some ⟨d, hd⟩ => do
    let (decl, f) ← d.declarationFrom c.current.span.start
    return (decl, f.within hd)
  | none => c.declarationFrom c.current.span.start

/-- Declarations up to an end token. -/
def declarations (c : Cursor) : Except Fault (List Decl) :=
  if c.current.kind = .eof then .ok []
  else do
    let (decl, ⟨d, _hd⟩) ← c.declaration
    let decls ← declarations d
    return decl :: decls
termination_by c.size

end Token.Cursor

/-- The declarations that a token list holds. -/
def Decl.parse (tokens : List Token) : Except Fault (List Decl) :=
  (Cursor.start tokens).declarations

end ArrayScript
