import ArrayScript.Expr.Parse
import ArrayScript.Stmt.Basic

/-!
# `ArrayScript.Stmt.Parse`: statements from tokens

The first token decides what a statement is: a branch, a return, or an assignment. The arm of a
branch is a block in curly brackets or a single statement.
-/

set_option autoImplicit false

namespace ArrayScript.Token.Cursor

/-- An assignment whose first token, a name, has just been read. -/
def assignment (name : Token) (c : Cursor) : Except Fault (Stmt × c.After) := do
  let (indices, ⟨d, hd⟩) ← c.bracketed
  let target : Target := ⟨name.text, indices, ⟨name.span.start, d.stop⟩⟩
  match d.next? with
  | none => .error (d.unexpectedFor .assignmentOperator)
  | some (token, ⟨f, hf⟩) =>
    if token.kind = .assignment then do
      let (value, ⟨g, hg⟩) ← f.expression .lowest
      let (_, k) ← g.expect .semicolon
      return (.assign ⟨name.span.start, k.1.stop⟩ target value,
        ((k.within hg).within hf).beyond hd)
    else match CompoundOp.ofKind? token.kind with
      | some op => do
        let (value, ⟨g, hg⟩) ← f.expression .lowest
        let (_, k) ← g.expect .semicolon
        return (.update ⟨name.span.start, k.1.stop⟩ op target value,
          ((k.within hg).within hf).beyond hd)
      | none => .error (d.unexpectedFor .assignmentOperator)

mutual

/-- One statement. -/
def statement (c : Cursor) : Except Fault (Stmt × c.After) :=
  match c.next? with
  | none => .error (c.unexpectedFor .statement)
  | some (token, ⟨d, hd⟩) =>
    match token.kind with
    | .ifWord => do
      let (_, ⟨f, hf⟩) ← d.expect .openParen
      let (condition, ⟨g, hg⟩) ← f.expression .lowest
      let (_, ⟨k, hk⟩) ← g.expect .closeParen
      let whole (m : k.After) : c.After := (((m.within hk).within hg).within hf).within hd
      let (pass, ⟨m, hm⟩) ← arm k
      match m.skip? .elseWord with
      | none => return (.branch ⟨token.span.start, m.stop⟩ condition pass none, whole ⟨m, hm⟩)
      | some ⟨n, hn⟩ => do
        let (fail, q) ← arm n
        return (.branch ⟨token.span.start, q.1.stop⟩ condition pass (some fail),
          whole ((q.within hn).within hm))
    | .returnWord => do
      let (value, ⟨f, hf⟩) ← d.expression .lowest
      let (_, g) ← f.expect .semicolon
      return (.ret ⟨token.span.start, g.1.stop⟩ value, (g.within hf).within hd)
    | .identifier => do
      let (s, f) ← assignment token d
      return (s, f.within hd)
    | _ => .error (c.unexpectedFor .statement)
termination_by 3 * c.size

/-- What a branch does on one of its paths: a block or a single statement. -/
def arm (c : Cursor) : Except Fault (List Stmt × c.After) :=
  match c.skip? .openCurly with
  | some ⟨d, hd⟩ => do
    let (body, f) ← statements d
    return (body, f.within hd)
  | none => do
    let (s, d) ← statement c
    return ([s], d)
termination_by 3 * c.size + 1

/-- The statements of a block, up to and including its closing bracket. -/
def statements (c : Cursor) : Except Fault (List Stmt × c.After) :=
  match c.skip? .closeCurly with
  | some d => .ok ([], d)
  | none =>
    if c.current.kind = .eof then .error c.unexpected
    else do
      let (s, ⟨d, hd⟩) ← statement c
      let (rest, f) ← statements d
      return (s :: rest, f.within hd)
termination_by 3 * c.size + 1

end

/-- A block in curly brackets. -/
def block (c : Cursor) : Except Fault (List Stmt × c.After) := do
  let (_, ⟨d, hd⟩) ← c.expect .openCurly
  let (body, f) ← d.statements
  return (body, f.within hd)

end ArrayScript.Token.Cursor
