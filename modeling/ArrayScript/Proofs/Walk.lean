import ArrayScript.Decl.Parse

/-!
# `ArrayScript.Proofs.Walk`: parsing with a position in a list of tokens

The parser of the library reads from a cursor, whose type says that a reader moves forward, and its
recursion ends by that. This module is a parser that takes nothing for granted. It has a list of
tokens and a position in it (`Walk`). It looks at the token at the position, which may not be there;
it moves one token forward, but not past the last one (`Walk.advance`); and each of its functions is
given a number of nested calls that it may still make. To look where there is no token, or to call
once too often, gives `none` and ends everything.

In `ArrayScript.Proofs.Progress` this is shown never to happen, and the two parsers to agree.
-/

set_option autoImplicit false

namespace ArrayScript

open Token (Kind)

/-- A reader with a position: it gives a result and the position behind it, a fault, or nothing at
all. -/
def Walk (α : Type) : Type :=
  (tokens : List Token) → (pos : Nat) → Option (Except Fault (α × Nat))

namespace Walk

instance : Monad Walk where
  pure a := fun _ pos => some (.ok (a, pos))
  bind m k := fun tokens pos =>
    match m tokens pos with
    | none => none
    | some (.error fault) => some (.error fault)
    | some (.ok (a, next)) => k a tokens next

/-! ### Single tokens -/

section

variable {α : Type}

/-- No more calls may be made. -/
def exhausted : Walk α := fun _ _ => none

/-- A fault. -/
def fail (fault : Fault) : Walk α := fun _ _ => some (.error fault)

/-- The token at the position. -/
def current : Walk Token := fun tokens pos => tokens[pos]?.map fun token => .ok (token, pos)

/-- Takes the token at the position and moves behind it, but never behind the last one. -/
def advance : Walk Token := fun tokens pos =>
  tokens[pos]?.map fun token => .ok (token, if pos < tokens.length - 1 then pos + 1 else pos)

/-- Where the token in front of the position ends. -/
def stop : Walk Nat := fun tokens pos =>
  if pos = 0 then some (.ok (0, pos))
  else tokens[pos - 1]?.map fun token => .ok (token.span.stop, pos)

/-- The current token is not what the grammar asks for. -/
def unexpected : Walk α := do
  let token ← current
  fail ⟨.unexpected token.text, token.span.start⟩

/-- The current token is not what the grammar asks for, and what that is has a name. -/
def unexpectedFor (expectation : Expectation) : Walk α := do
  let token ← current
  fail ⟨.unexpectedFor token.text expectation, token.span.start⟩

/-- Takes a token of the given kind, or goes on with `otherwise`. -/
def expectOr (kind : Kind) (otherwise : Walk Token) : Walk Token := do
  let token ← current
  if token.kind = kind then advance else otherwise

/-- Takes a token of the given kind. -/
def expect (kind : Kind) : Walk Token :=
  expectOr kind unexpected

end

/-! ### Expressions -/

mutual

/-- An expression whose links bind more strongly than `power`. -/
def expression : (calls : Nat) → Power → Walk Expr
  | 0, _ => exhausted
  | calls + 1, power => do
    let left ← operand calls
    links calls power left

/-- An expression without links at its end. -/
def operand : (calls : Nat) → Walk Expr
  | 0 => exhausted
  | calls + 1 => do
    let token ← current
    match token.kind with
    | .number => do
      let _ ← advance
      match Decimal.read? token.text with
      | some value => return .number token.span value
      | none => fail ⟨.invalidNumber token.text, token.span.start⟩
    | .identifier => do
      let _ ← advance
      return .var token.span token.text []
    | .openParen => do
      let _ ← advance
      let e ← expression calls .lowest
      let _ ← expect .closeParen
      return e
    | .openBracket => do
      let _ ← advance
      let items ← expressions calls .closeBracket
      return .list ⟨token.span.start, ← stop⟩ items
    | .newWord => do
      let _ ← advance
      let _ ← expect .numberWord
      let sizes ← bracketed calls
      if sizes.isEmpty then unexpectedFor .dimension
      else return .newArray ⟨token.span.start, ← stop⟩ sizes
    | kind =>
      match PrefixOp.ofKind? kind with
      | some op => do
        let _ ← advance
        let e ← expression calls .unary
        return .unary ⟨token.span.start, e.span.stop⟩ op e
      | none => unexpected

/-- The expression that `left` becomes with the links that follow it. -/
def links : (calls : Nat) → Power → Expr → Walk Expr
  | 0, _, _ => exhausted
  | calls + 1, power, left => do
    let token ← current
    match Link.above? power token.kind, left with
    | none, _ => return left
    | some (.binary op), _ => do
      let _ ← advance
      let right ← expression calls op.power
      links calls power (.binary ⟨left.span.start, right.span.stop⟩ op left right)
    | some .call, .var span name [] => do
      let _ ← advance
      let args ← expressions calls .closeParen
      links calls power (.call ⟨span.start, ← stop⟩ name args)
    | some .call, _ => unexpectedFor .namedFunction
    | some .index, .var span name indices => do
      let _ ← advance
      let index ← expression calls .lowest
      let _ ← expect .closeBracket
      links calls power (.var ⟨span.start, ← stop⟩ name (indices ++ [index]))
    | some .index, _ => unexpectedFor .indexedVariable

/-- Expressions between commas, up to and including the token that closes them. -/
def expressions : (calls : Nat) → Kind → Walk (List Expr)
  | 0, _ => exhausted
  | calls + 1, close => do
    let token ← current
    if token.kind = close then do
      let _ ← advance
      return []
    else expressionsOne calls close

/-- At least one expression, between commas, up to and including the token that closes them. -/
def expressionsOne : (calls : Nat) → Kind → Walk (List Expr)
  | 0, _ => exhausted
  | calls + 1, close => do
    let e ← expression calls .lowest
    let token ← current
    if token.kind = .comma then do
      let _ ← advance
      let es ← expressionsOne calls close
      return e :: es
    else do
      let _ ← expect close
      return [e]

/-- Any number of expressions, each in square brackets. -/
def bracketed : (calls : Nat) → Walk (List Expr)
  | 0 => exhausted
  | calls + 1 => do
    let token ← current
    if token.kind = .openBracket then do
      let _ ← advance
      let e ← expression calls .lowest
      let _ ← expect .closeBracket
      let es ← bracketed calls
      return e :: es
    else return []

end

/-! ### Statements -/

/-- An assignment whose first token, a name, has just been read. -/
def assignment (calls : Nat) (name : Token) : Walk Stmt := do
  let indices ← bracketed calls
  let target : Target := ⟨name.text, indices, ⟨name.span.start, ← stop⟩⟩
  let token ← current
  if token.kind = .assignment then do
    let _ ← advance
    let value ← expression calls .lowest
    let _ ← expect .semicolon
    return .assign ⟨name.span.start, ← stop⟩ target value
  else match CompoundOp.ofKind? token.kind with
    | some op => do
      let _ ← advance
      let value ← expression calls .lowest
      let _ ← expect .semicolon
      return .update ⟨name.span.start, ← stop⟩ op target value
    | none => unexpectedFor .assignmentOperator

mutual

/-- One statement. -/
def statement : (calls : Nat) → Walk Stmt
  | 0 => exhausted
  | calls + 1 => do
    let token ← current
    match token.kind with
    | .ifWord => do
      let _ ← advance
      let _ ← expect .openParen
      let condition ← expression calls .lowest
      let _ ← expect .closeParen
      let pass ← arm calls
      let next ← current
      if next.kind = .elseWord then do
        let _ ← advance
        let fail ← arm calls
        return .branch ⟨token.span.start, ← stop⟩ condition pass (some fail)
      else return .branch ⟨token.span.start, ← stop⟩ condition pass none
    | .returnWord => do
      let _ ← advance
      let value ← expression calls .lowest
      let _ ← expect .semicolon
      return .ret ⟨token.span.start, ← stop⟩ value
    | .identifier => do
      let _ ← advance
      assignment calls token
    | _ => unexpectedFor .statement

/-- What a branch does on one of its paths: a block or a single statement. -/
def arm : (calls : Nat) → Walk (List Stmt)
  | 0 => exhausted
  | calls + 1 => do
    let token ← current
    if token.kind = .openCurly then do
      let _ ← advance
      statements calls
    else do
      let s ← statement calls
      return [s]

/-- The statements of a block, up to and including its closing bracket. -/
def statements : (calls : Nat) → Walk (List Stmt)
  | 0 => exhausted
  | calls + 1 => do
    let token ← current
    if token.kind = .closeCurly then do
      let _ ← advance
      return []
    else if token.kind = .eof then unexpected
    else do
      let s ← statement calls
      let rest ← statements calls
      return s :: rest

end

/-- A block in curly brackets. -/
def block (calls : Nat) : Walk (List Stmt) := do
  let _ ← expect .openCurly
  statements calls

/-! ### Declarations -/

/-- The dimensions of a parameter, each in square brackets and possibly left open. -/
def dimensions : (calls : Nat) → Walk (List (Option Expr))
  | 0 => exhausted
  | calls + 1 => do
    let token ← current
    if token.kind = .openBracket then do
      let _ ← advance
      let next ← current
      if next.kind = .closeBracket then do
        let _ ← advance
        let dims ← dimensions calls
        return none :: dims
      else do
        let e ← expression calls .lowest
        let _ ← expect .closeBracket
        let dims ← dimensions calls
        return some e :: dims
    else return []

/-- One parameter: a name and its type. -/
def parameter (calls : Nat) : Walk Param := do
  let name ← expectOr .identifier (unexpectedFor .parameterName)
  let _ ← expect .colon
  let _ ← expectOr .numberWord (unexpectedFor .numberType)
  let dims ← dimensions calls
  return ⟨name.text, dims, ⟨name.span.start, ← stop⟩⟩

/-- At least one parameter, between commas, up to and including the closing parenthesis. -/
def parametersOne : (calls : Nat) → Walk (List Param)
  | 0 => exhausted
  | calls + 1 => do
    let p ← parameter calls
    let token ← current
    if token.kind = .comma then do
      let _ ← advance
      let ps ← parametersOne calls
      return p :: ps
    else do
      let _ ← expect .closeParen
      return [p]

/-- Parameters between commas, up to and including the closing parenthesis. -/
def parameters (calls : Nat) : Walk (List Param) := do
  let token ← current
  if token.kind = .closeParen then do
    let _ ← advance
    return []
  else parametersOne calls

/-- A declaration from its name on; it began at `start`. -/
def declarationFrom (calls start : Nat) : Walk Decl := do
  let name ← expectOr .identifier (unexpectedFor .functionName)
  let _ ← expect .openParen
  let params ← parameters calls
  let body ← block calls
  return ⟨name.text, params, body, ⟨start, ← stop⟩⟩

/-- One declaration. -/
def declaration (calls : Nat) : Walk Decl := do
  let token ← current
  if token.kind = .fnWord then do
    let _ ← advance
    declarationFrom calls token.span.start
  else declarationFrom calls token.span.start

/-- Declarations up to an end token. -/
def declarations : (calls : Nat) → Walk (List Decl)
  | 0 => exhausted
  | calls + 1 => do
    let token ← current
    if token.kind = .eof then return []
    else do
      let decl ← declaration calls
      let decls ← declarations calls
      return decl :: decls

/-! ### Whole lists -/

/-- A list of tokens with an end token at its end: its own, or one where the last token ends. -/
def closed (tokens : List Token) : List Token :=
  match tokens.getLast? with
  | none => [Token.eof 0]
  | some last => if last.kind = .eof then tokens else tokens ++ [Token.eof last.span.stop]

/-- What a walk from a position gives, wherever it ends. -/
def run {α : Type} (walk : Walk α) (tokens : List Token) (pos : Nat) :
    Option (Except Fault α) :=
  (walk tokens pos).map fun outcome => outcome.map Prod.fst

/-- The expression that a token list holds, and nothing else. -/
def wholeExpression (calls : Nat) : Walk Expr := do
  let e ← expression calls .lowest
  let _ ← expect .eof
  return e

end Walk

end ArrayScript
