import ArrayScript.Expr.Basic
import ArrayScript.Token.Cursor

/-!
# `ArrayScript.Expr.Parse`: expressions from tokens

An expression is an operand followed by links: binary operators, argument lists and indices. Each
link binds with a power, and an expression that is read at some power takes the links that bind
more strongly and leaves the others to whoever asked for it. Binary operators therefore group to
the left, and the operand of a prefix operator takes only argument lists and indices.
-/

set_option autoImplicit false

namespace ArrayScript

open Token (Kind Cursor)

/-- How strongly an operator holds on to its operands, weakest first. -/
inductive Power where
  | lowest
  | logical
  | relational
  | additive
  | multiplicative
  | unary
  | call
  | member
deriving DecidableEq, Repr

/-- The place of a power in the order from weak to strong. -/
def Power.rank : Power → Nat
  | lowest => 0
  | logical => 1
  | relational => 2
  | additive => 3
  | multiplicative => 4
  | unary => 5
  | call => 6
  | member => 7

/-- The power of a binary operator. Conjunction and disjunction share one. -/
def BinaryOp.power : BinaryOp → Power
  | conjunction | disjunction => .logical
  | lesser | greater | noGreater | noLesser | equal | inequal => .relational
  | sum | difference => .additive
  | product | quotient | remainder => .multiplicative

/-- What a token can do to the expression in front of it. -/
inductive Link where
  | binary (op : BinaryOp)
  | call
  | index
deriving DecidableEq, Repr

/-- The link that a token stands for. -/
def Link.ofKind? : Kind → Option Link
  | .openParen => some call
  | .openBracket => some index
  | kind => (BinaryOp.ofKind? kind).map binary

/-- The power of a link. -/
def Link.power : Link → Power
  | binary op => op.power
  | call => .call
  | index => .member

/-- The link at a token that binds more strongly than `power`. -/
def Link.above? (power : Power) (kind : Kind) : Option Link :=
  (Link.ofKind? kind).filter fun link => power.rank < link.power.rank

namespace Token.Cursor

mutual

/-- An expression whose links bind more strongly than `power`. -/
def expression (power : Power) (c : Cursor) : Except Fault (Expr × c.After) := do
  let (left, ⟨d, hd⟩) ← operand c
  let (e, f) ← links power left d
  return (e, f.within hd)
termination_by 4 * c.size + 1

/-- An expression without links at its end. Parentheses leave no trace but their grouping. -/
def operand (c : Cursor) : Except Fault (Expr × c.After) :=
  match c.next? with
  | none => .error c.unexpected
  | some (token, ⟨d, hd⟩) =>
    match token.kind with
    | .number =>
      match Decimal.read? token.text with
      | some value => .ok (.number token.span value, ⟨d, hd⟩)
      | none => .error ⟨.invalidNumber token.text, token.span.start⟩
    | .identifier => .ok (.var token.span token.text [], ⟨d, hd⟩)
    | .openParen => do
      let (e, ⟨f, hf⟩) ← expression .lowest d
      let (_, g) ← f.expect .closeParen
      return (e, (g.within hf).within hd)
    | .openBracket => do
      let (items, f) ← expressions .closeBracket d
      return (.list ⟨token.span.start, f.1.stop⟩ items, f.within hd)
    | .newWord => do
      let (_, ⟨f, hf⟩) ← d.expect .numberWord
      let (sizes, g) ← bracketed f
      if sizes.isEmpty then .error (g.1.unexpectedFor .dimension)
      else return (.newArray ⟨token.span.start, g.1.stop⟩ sizes, (g.within hf).within hd)
    | kind =>
      match PrefixOp.ofKind? kind with
      | some op => do
        let (e, f) ← expression .unary d
        return (.unary ⟨token.span.start, e.span.stop⟩ op e, f.within hd)
      | none => .error c.unexpected
termination_by 4 * c.size

/-- The expression that `left` becomes with the links that follow it and bind more strongly than
`power`. -/
def links (power : Power) (left : Expr) (c : Cursor) : Except Fault (Expr × c.From) :=
  match c.next? with
  | none => .ok (left, c.here)
  | some (token, ⟨d, hd⟩) =>
    match Link.above? power token.kind, left with
    | none, _ => .ok (left, c.here)
    | some (.binary op), _ => do
      let (right, ⟨f, hf⟩) ← expression op.power d
      let (e, g) ← links power (.binary ⟨left.span.start, right.span.stop⟩ op left right) f
      return (e, ((g.within hf).within hd).toFrom)
    | some .call, .var span name [] => do
      let (args, ⟨f, hf⟩) ← expressions .closeParen d
      let (e, g) ← links power (.call ⟨span.start, f.stop⟩ name args) f
      return (e, ((g.within hf).within hd).toFrom)
    | some .call, _ => .error (c.unexpectedFor .namedFunction)
    | some .index, .var span name indices => do
      let (index, ⟨f, hf⟩) ← expression .lowest d
      let (_, ⟨g, hg⟩) ← f.expect .closeBracket
      let (e, k) ← links power (.var ⟨span.start, g.stop⟩ name (indices ++ [index])) g
      return (e, (((k.within hg).within hf).within hd).toFrom)
    | some .index, _ => .error (c.unexpectedFor .indexedVariable)
termination_by 4 * c.size

/-- Expressions between commas, up to and including the token that closes them. -/
def expressions (close : Kind) (c : Cursor) : Except Fault (List Expr × c.After) :=
  match c.skip? close with
  | some d => .ok ([], d)
  | none => expressionsOne close c
termination_by 4 * c.size + 3

/-- At least one expression, between commas, up to and including the token that closes them. -/
def expressionsOne (close : Kind) (c : Cursor) : Except Fault (List Expr × c.After) := do
  let (e, ⟨d, hd⟩) ← expression .lowest c
  match d.skip? .comma with
  | some ⟨f, hf⟩ => do
    let (es, g) ← expressionsOne close f
    return (e :: es, (g.within hf).within hd)
  | none => do
    let (_, f) ← d.expect close
    return ([e], f.within hd)
termination_by 4 * c.size + 2

/-- Any number of expressions, each in square brackets. -/
def bracketed (c : Cursor) : Except Fault (List Expr × c.From) :=
  match c.skip? .openBracket with
  | none => .ok ([], c.here)
  | some ⟨d, hd⟩ => do
    let (e, ⟨f, hf⟩) ← expression .lowest d
    let (_, ⟨g, hg⟩) ← f.expect .closeBracket
    let (es, k) ← bracketed g
    return (e :: es, (((k.within hg).within hf).within hd).toFrom)
termination_by 4 * c.size

end

end Token.Cursor

/-- The expression that a token list holds, and nothing else. -/
def Expr.parse (tokens : List Token) : Except Fault Expr := do
  let (e, ⟨c, _⟩) ← (Cursor.start tokens).expression .lowest
  if c.current.kind = .eof then return e else .error c.unexpected

end ArrayScript
