import ArrayScript.Decl.Parse
import ArrayScript.Proofs.Parsing
import ArrayScript.Proofs.Sized
import ArrayScript.Token.Pattern

/-!
# `ArrayScript.Proofs.Printing`: parsing undoes printing

A printer for programs, and the proof that the parser reads back what it writes.

The printer writes parentheses only where the powers of operators ask for them: around a left
operand that is weaker than its operator, around a right operand that is not stronger, and around a
binary operation behind a prefix operator. Each arm of a branch is a block. The word `fn` may stand
in front of a declaration or not, and how a number is written is a parameter of the printer.

Printed expressions are derived by the grammar (`spells_print`), so that
`ArrayScript.Proofs.Parsing` says how they are read. Statements and declarations are read by running
the parser on what is printed, one function at a time.
-/

set_option autoImplicit false

namespace ArrayScript

open Grammar
open Token (Kind Cursor)

/-! ### The printer -/

/-- How a token is written whose kind leaves no choice. -/
def Token.Kind.text (kind : Kind) : String :=
  match Token.reserved.find? fun word => word.2 = kind with
  | some word => word.1
  | none => (Token.Pattern.table.findSome? fun
    | .mark _ literal k => if k = kind then some literal else none
    | _ => none).getD ""

/-- A printed token of a kind that leaves no choice. -/
def Token.mark (kind : Kind) : Token :=
  ⟨kind, kind.text, .blank⟩

/-- A printed name. -/
def Token.named (name : String) : Token :=
  ⟨.identifier, name, .blank⟩

/-- The token kind that the operator of a compound assignment is written as. -/
def CompoundOp.kind : CompoundOp → Kind
  | addition => .plusEquals
  | subtraction => .minusEquals
  | multiplication => .starEquals
  | division => .slashEquals
  | modulo => .percentEquals

namespace Expr

/-- How strongly an expression holds together. -/
def power : Expr → Power
  | .binary _ op _ _ => op.power
  | .unary .. => .unary
  | .call .. => .call
  | _ => .member

/-- Whether an expression is a binary operation. -/
def isBinary : Expr → Bool
  | .binary .. => true
  | _ => false

/-- Tokens, in parentheses if these are needed. -/
def parenthesize (needed : Bool) (tokens : List Token) : List Token :=
  if needed then .mark .openParen :: (tokens ++ [.mark .closeParen]) else tokens

section

variable (numeral : Float → String)

mutual

/-- The tokens of an expression. -/
def print : Expr → List Token
  | .number _ value => [⟨.number, numeral value, .blank⟩]
  | .newArray _ sizes => .mark .newWord :: .mark .numberWord :: printBracketed sizes
  | .list _ items => .mark .openBracket :: (printSeparated items ++ [.mark .closeBracket])
  | .var _ name indices => .named name :: printBracketed indices
  | .call _ name args =>
    .named name :: .mark .openParen :: (printSeparated args ++ [.mark .closeParen])
  | .unary _ op operand => .mark op.kind :: parenthesize operand.isBinary (print operand)
  | .binary _ op left right =>
    parenthesize (left.power.rank < op.power.rank) (print left) ++
      .mark op.kind :: parenthesize (right.power.rank ≤ op.power.rank) (print right)

/-- The tokens of several expressions, with commas between them. -/
def printSeparated : List Expr → List Token
  | [] => []
  | e :: es => print e ++ printContinued es

/-- The tokens of several expressions, each behind a comma. -/
def printContinued : List Expr → List Token
  | [] => []
  | e :: es => .mark .comma :: (print e ++ printContinued es)

/-- The tokens of several expressions, each in square brackets. -/
def printBracketed : List Expr → List Token
  | [] => []
  | e :: es => .mark .openBracket :: (print e ++ .mark .closeBracket :: printBracketed es)

end

end

end Expr

/-- The tokens of the left side of an assignment. -/
def Target.print (numeral : Float → String) (target : Target) : List Token :=
  .named target.name :: Expr.printBracketed numeral target.indices

section

variable (numeral : Float → String)

mutual

/-- The tokens of a statement. -/
def Stmt.print : Stmt → List Token
  | .branch _ condition pass none =>
    .mark .ifWord :: .mark .openParen :: (condition.print numeral ++ .mark .closeParen ::
      .mark .openCurly :: (Stmt.printAll pass ++ [.mark .closeCurly]))
  | .branch _ condition pass (some fail) =>
    .mark .ifWord :: .mark .openParen :: (condition.print numeral ++ .mark .closeParen ::
      .mark .openCurly :: (Stmt.printAll pass ++ .mark .closeCurly ::
        .mark .elseWord :: .mark .openCurly :: (Stmt.printAll fail ++ [.mark .closeCurly])))
  | .assign _ target value =>
    target.print numeral ++ .mark .assignment :: (value.print numeral ++ [.mark .semicolon])
  | .update _ op target value =>
    target.print numeral ++ .mark op.kind :: (value.print numeral ++ [.mark .semicolon])
  | .ret _ value => .mark .returnWord :: (value.print numeral ++ [.mark .semicolon])

/-- The tokens of several statements. -/
def Stmt.printAll : List Stmt → List Token
  | [] => []
  | s :: rest => Stmt.print s ++ Stmt.printAll rest

end

/-- The tokens of the dimensions of a parameter, each in square brackets and possibly left open. -/
def Param.printDims : List (Option Expr) → List Token
  | [] => []
  | none :: dims => .mark .openBracket :: .mark .closeBracket :: Param.printDims dims
  | some e :: dims =>
    .mark .openBracket :: (e.print numeral ++ .mark .closeBracket :: Param.printDims dims)

/-- The tokens of a parameter. -/
def Param.print (p : Param) : List Token :=
  .named p.name :: .mark .colon :: .mark .numberWord :: Param.printDims numeral p.dims

/-- The tokens of several parameters, each behind a comma. -/
def Param.printContinued (params : List Param) : List Token :=
  params.flatMap fun p => .mark .comma :: p.print numeral

/-- The tokens of several parameters, with commas between them. -/
def Param.printSeparated : List Param → List Token
  | [] => []
  | p :: params => p.print numeral ++ Param.printContinued numeral params

/-- The tokens of a declaration, behind the word `fn` or not. -/
def Decl.print (keyword : Bool) (decl : Decl) : List Token :=
  (if keyword then [.mark .fnWord] else []) ++
    .named decl.name :: .mark .openParen :: (Param.printSeparated numeral decl.params ++
      .mark .closeParen :: .mark .openCurly ::
        (Stmt.printAll numeral decl.body ++ [.mark .closeCurly]))

/-- The tokens of a program: for each declaration, whether it is written with the word `fn`. -/
def Decl.printAll (decls : List (Bool × Decl)) : List Token :=
  decls.flatMap fun decl => decl.2.print numeral decl.1

end

/-! ### Trees without spans -/

/-- A target without its spans. -/
def Target.bare (target : Target) : Target :=
  ⟨target.name, target.indices.map Expr.bare, .blank⟩

mutual

/-- A statement without its spans. -/
def Stmt.bare : Stmt → Stmt
  | .branch _ condition pass none => .branch .blank condition.bare (Stmt.bareAll pass) none
  | .branch _ condition pass (some fail) =>
    .branch .blank condition.bare (Stmt.bareAll pass) (some (Stmt.bareAll fail))
  | .assign _ target value => .assign .blank target.bare value.bare
  | .update _ op target value => .update .blank op target.bare value.bare
  | .ret _ value => .ret .blank value.bare

/-- Several statements without their spans. -/
def Stmt.bareAll : List Stmt → List Stmt
  | [] => []
  | s :: rest => s.bare :: Stmt.bareAll rest

end

/-- A parameter without its spans. -/
def Param.bare (p : Param) : Param :=
  ⟨p.name, p.dims.map (Option.map Expr.bare), .blank⟩

/-- A declaration without its spans. -/
def Decl.bare (decl : Decl) : Decl :=
  ⟨decl.name, decl.params.map Param.bare, Stmt.bareAll decl.body, .blank⟩

/-! ### What can be printed -/

mutual

/-- The numbers that are written in an expression. -/
def Expr.numbers : Expr → List Float
  | .number _ value => [value]
  | .newArray _ sizes => Expr.numbersAll sizes
  | .list _ items => Expr.numbersAll items
  | .var _ _ indices => Expr.numbersAll indices
  | .call _ _ args => Expr.numbersAll args
  | .unary _ _ operand => operand.numbers
  | .binary _ _ left right => left.numbers ++ right.numbers

/-- The numbers that are written in several expressions. -/
def Expr.numbersAll : List Expr → List Float
  | [] => []
  | e :: es => e.numbers ++ Expr.numbersAll es

end

/-- Whether every array constructor in an expression has a size, and every number is the value of
its numeral. -/
def Expr.Printable (numeral : Float → String) (e : Expr) : Prop :=
  e.sized = true ∧ ∀ x ∈ e.numbers, Decimal.read? (numeral x) = some x

instance (numeral : Float → String) (e : Expr) : Decidable (e.Printable numeral) :=
  inferInstanceAs (Decidable (_ ∧ _))

mutual

/-- The expressions in a statement. -/
def Stmt.exprs : Stmt → List Expr
  | .branch _ condition pass none => condition :: Stmt.exprsAll pass
  | .branch _ condition pass (some fail) =>
    condition :: (Stmt.exprsAll pass ++ Stmt.exprsAll fail)
  | .assign _ target value => value :: target.indices
  | .update _ _ target value => value :: target.indices
  | .ret _ value => [value]

/-- The expressions in several statements. -/
def Stmt.exprsAll : List Stmt → List Expr
  | [] => []
  | s :: rest => s.exprs ++ Stmt.exprsAll rest

end

/-- The expressions in a declaration: those in the types of its parameters and in its body. -/
def Decl.exprs (decl : Decl) : List Expr :=
  decl.params.flatMap (fun p => p.dims.filterMap id) ++ Stmt.exprsAll decl.body

/-! ### Printed expressions are derived -/

section

variable {numeral : Float → String}

/-- A printed mark is seen as this mark, if the grammar sees no more of it than its kind. -/
theorem Token.terminal_mark {kind : Kind} (h : kind.isMark = true) :
    (Token.mark kind).terminal = .mark kind :=
  terminal_eq_mark_iff.mpr ⟨rfl, h⟩

/-- A printed name is seen as this name. -/
@[simp]
theorem Token.terminal_named (name : String) : (Token.named name).terminal = .name name :=
  rfl

/-- A compound operator is seen by its kind only. -/
theorem CompoundOp.isMark_kind (op : CompoundOp) : op.kind.isMark := by
  cases op <;> rfl

/-- The numbers in several expressions are those in each of them. -/
theorem Expr.mem_numbersAll {es : List Expr} {x : Float} :
    x ∈ Expr.numbersAll es ↔ ∃ e ∈ es, x ∈ e.numbers := by
  induction es with
  | nil => simp [Expr.numbersAll]
  | cons e es ih => simp [Expr.numbersAll, ih]

/-- Expressions can be printed together when each of them can. -/
theorem Expr.printable_of_all {es : List Expr} (hsized : Expr.sizedAll es = true)
    (hnumbers : ∀ x ∈ Expr.numbersAll es, Decimal.read? (numeral x) = some x) :
    ∀ e ∈ es, e.Printable numeral := fun e he =>
  ⟨Expr.sizedAll_iff.mp hsized e he,
    fun x hx => hnumbers x (Expr.mem_numbersAll.mpr ⟨e, he, hx⟩)⟩

/-- The layer that an expression is printed in. -/
def Expr.layer : Expr → Layer
  | .binary _ op _ _ => layerOf op
  | .unary .. => .unary
  | _ => .suffixed

/-- The layer that an expression is printed in is as strong as the power by which parentheses are
decided. Suffixes are the strongest that a layer can be. -/
theorem Expr.rank_layer (e : Expr) : e.layer.rank = min e.power.rank 6 := by
  cases e with
  | binary _ op _ _ => cases op <;> rfl
  | _ => rfl

/-- What is no binary expression can be the operand of a prefix operator as it is. -/
theorem Expr.unary_rank_le {e : Expr} (h : e.isBinary = false) :
    Layer.unary.rank ≤ e.layer.rank := by
  rw [e.rank_layer]
  cases e with
  | binary _ _ _ _ => cases h
  | unary _ _ _ => exact Nat.le_refl 5
  | _ => exact Nat.le_succ 5

/-- An operand that is no weaker than an operator belongs to the operator's layer. -/
theorem BinaryOp.rank_layerOf_le {op : BinaryOp} {e : Expr}
    (h : op.power.rank ≤ e.power.rank) : (layerOf op).rank ≤ e.layer.rank := by
  have hfour := op.rank_power_le
  rw [e.rank_layer, ← op.rank_power]
  omega

/-- An operand that is stronger than an operator is a term of the operator's layer. -/
theorem BinaryOp.rank_next_layerOf_le {op : BinaryOp} {e : Expr}
    (h : op.power.rank < e.power.rank) : (layerOf op).next.rank ≤ e.layer.rank := by
  have hfour := op.rank_power_le
  rw [e.rank_layer, ← op.layer_power, op.power.rank_layer]
  omega

/-- Whether some tokens are read as an expression of a layer, whatever follows. -/
def Spells (layer : Layer) (e : Expr) (tokens : List Token) : Prop :=
  ∀ rest, Consumes layer e (tokens.map Token.terminal ++ rest) rest

/-- What is printed in some layer can stand where any expression can. -/
theorem Spells.logical {layer : Layer} {e : Expr} {tokens : List Token}
    (h : Spells layer e tokens) : Spells .logical e tokens :=
  fun rest => (h rest).lift (by cases layer <;> decide)

/-- Parentheses make an expression of every layer; without them it has to be one already. -/
theorem Spells.parenthesize {layer target : Layer} {e : Expr} {tokens : List Token} {needed : Bool}
    (h : Spells layer e tokens) (hle : needed = false → target.rank ≤ layer.rank) :
    Spells target e (Expr.parenthesize needed tokens) := by
  intro rest
  cases needed with
  | false => exact (h rest).lift (hle rfl)
  | true =>
    -- Inside parentheses the weakest layer is enough, and outside they are a primary expression.
    have hinner : Consumes .logical e (tokens.map Token.terminal ++ .mark .closeParen :: rest)
        (.mark .closeParen :: rest) := h.logical _
    simp only [Expr.parenthesize, if_true, List.map_cons, List.map_append, List.map_nil,
      List.cons_append, List.append_assoc, List.nil_append]
    exact hinner.group.lift (by cases target <;> decide)

/-- A name is derived as a variable without indices, on which indices and arguments are put. -/
theorem consumes_name (span : Span) (name : String) (rest : List Terminal) :
    Consumes .suffixed (.var span name []) (.name name :: rest) rest :=
  Consumes.suffixed ⟨.name name, .name, rfl⟩

/-- Indices are put behind a variable one after the other. -/
theorem consumes_indices {span : Span} {name : String} {todo : List Expr}
    (h : ∀ e ∈ todo, Spells .logical e (e.print numeral)) :
    ∀ {done : List Expr} {all rest : List Terminal},
      Consumes .suffixed (.var span name done) all
        ((Expr.printBracketed numeral todo).map Token.terminal ++ rest) →
      Consumes .suffixed (.var span name (done ++ todo)) all rest := by
  induction todo with
  | nil =>
    intro done all rest hbase
    simpa [Expr.printBracketed] using hbase
  | cons e todo ih =>
    intro done all rest hbase
    obtain ⟨he, htodo⟩ := List.forall_mem_cons.mp h
    simp only [Expr.printBracketed, List.map_cons, List.map_append, List.cons_append,
      List.append_assoc] at hbase
    have hindexed := ih htodo (hbase.index (he _))
    rwa [List.append_assoc] at hindexed

/-- Expressions printed behind commas are derived behind commas, if each of them is derived from
what is printed for it. -/
theorem consumesAll_continued {es : List Expr}
    (h : ∀ e ∈ es, Spells .logical e (e.print numeral)) (rest : List Terminal) :
    ConsumesAll Tree.continued es
      ((Expr.printContinued numeral es).map Token.terminal ++ rest) rest := by
  induction es with
  | nil => exact .nil _ rfl
  | cons e es ih =>
    obtain ⟨he, hes⟩ := List.forall_mem_cons.mp h
    simp only [Expr.printContinued, List.map_cons, List.map_append, List.cons_append,
      List.append_assoc]
    exact .continued (he _) (ih hes)

/-- Expressions printed with commas between them are derived that way. -/
theorem consumesAll_separated {es : List Expr}
    (h : ∀ e ∈ es, Spells .logical e (e.print numeral)) (rest : List Terminal) :
    ConsumesAll Tree.separated es
      ((Expr.printSeparated numeral es).map Token.terminal ++ rest) rest := by
  cases es with
  | nil => exact .nil _ rfl
  | cons e es => exact (consumesAll_continued h rest).separated (List.cons_ne_nil e es)

/-- Expressions printed in brackets are derived in brackets. -/
theorem consumesAll_bracketed {es : List Expr}
    (h : ∀ e ∈ es, Spells .logical e (e.print numeral)) (rest : List Terminal) :
    ConsumesAll Tree.bracketed es
      ((Expr.printBracketed numeral es).map Token.terminal ++ rest) rest := by
  induction es with
  | nil => exact .nil _ rfl
  | cons e es ih =>
    obtain ⟨he, hes⟩ := List.forall_mem_cons.mp h
    simp only [Expr.printBracketed, List.map_cons, List.map_append, List.cons_append,
      List.append_assoc]
    exact .bracketed (he _) (ih hes)

/-- What is printed for an expression is derived as that expression, in the layer of its power. -/
theorem spells_print : ∀ (e : Expr), e.Printable numeral → Spells e.layer e (e.print numeral)
  | .number _ value, h => by
    intro rest
    have hread := h.2 value List.mem_cons_self
    exact Consumes.suffixed ⟨.number (numeral value), .number hread, rfl⟩
  | .newArray _ sizes, h => by
    intro rest
    obtain ⟨hsized, hnumbers⟩ := h
    simp only [Expr.sized, Bool.and_eq_true, Bool.not_eq_true'] at hsized
    have hsizes : ∀ e ∈ sizes, Spells .logical e (e.print numeral) := fun e he =>
      (spells_print e (Expr.printable_of_all hsized.2 hnumbers e he)).logical
    exact ((consumesAll_bracketed hsizes rest).newArray hsized.1).suffixed
  | .list _ items, h => by
    intro rest
    have hitems : ∀ e ∈ items, Spells .logical e (e.print numeral) := fun e he =>
      (spells_print e (Expr.printable_of_all h.1 h.2 e he)).logical
    simp only [Expr.print, List.map_cons, List.map_append, List.map_nil, List.cons_append,
      List.append_assoc, List.nil_append]
    exact (consumesAll_separated hitems _).list.suffixed
  | .var span name indices, h => by
    intro rest
    have hindices : ∀ e ∈ indices, Spells .logical e (e.print numeral) := fun e he =>
      (spells_print e (Expr.printable_of_all h.1 h.2 e he)).logical
    exact consumes_indices hindices (consumes_name span name _)
  | .call span name args, h => by
    intro rest
    have hargs : ∀ e ∈ args, Spells .logical e (e.print numeral) := fun e he =>
      (spells_print e (Expr.printable_of_all h.1 h.2 e he)).logical
    simp only [Expr.print, List.map_cons, List.map_append, List.map_nil, List.cons_append,
      List.append_assoc, List.nil_append]
    exact (consumes_name span name _).call (consumesAll_separated hargs _)
  | .unary _ op operand, h => by
    intro rest
    have hoperand : Spells .unary operand
        (Expr.parenthesize operand.isBinary (operand.print numeral)) :=
      (spells_print operand h).parenthesize Expr.unary_rank_le
    simp only [Expr.print, List.map_cons, List.cons_append,
      Token.terminal_mark op.isMark_kind]
    exact (hoperand rest).unary
  | .binary _ op left right, h => by
    intro rest
    obtain ⟨hsized, hnumbers⟩ := h
    simp only [Expr.sized, Bool.and_eq_true] at hsized
    have hl : left.Printable numeral :=
      ⟨hsized.1, fun x hx => hnumbers x (List.mem_append_left _ hx)⟩
    have hr : right.Printable numeral :=
      ⟨hsized.2, fun x hx => hnumbers x (List.mem_append_right _ hx)⟩
    -- The chain goes on to the left, so the right operand alone has to be a term of the layer.
    have hleft : Spells (layerOf op) left
        (Expr.parenthesize (left.power.rank < op.power.rank) (left.print numeral)) :=
      (spells_print left hl).parenthesize fun hnot =>
        BinaryOp.rank_layerOf_le (Nat.not_lt.mp (of_decide_eq_false hnot))
    have hright : Spells (layerOf op).next right
        (Expr.parenthesize (right.power.rank ≤ op.power.rank) (right.print numeral)) :=
      (spells_print right hr).parenthesize fun hnot =>
        BinaryOp.rank_next_layerOf_le (Nat.not_le.mp (of_decide_eq_false hnot))
    simp only [Expr.print, List.map_append, List.map_cons, List.append_assoc, List.cons_append,
      Token.terminal_mark op.isMark_kind]
    exact (hleft _).binary (hright rest)

/-! ### Printed statements are read back -/

namespace Token.Cursor

variable {close : Token} {rest : List Terminal} {c : Cursor}

/-- A printed expression is read in front of what is no operator. -/
theorem gives_print {e : Expr} (he : e.Printable numeral) {first : Terminal}
    (hfirst : first.rank = 0)
    (hahead : c.Ahead close ((e.print numeral).map Token.terminal ++ first :: rest)) :
    Gives (c.expression .lowest) fun e' d =>
      e'.bare = e.bare ∧ d.Ahead close (first :: rest) := by
  obtain ⟨t, ht, hyield⟩ := (spells_print e he).logical (first :: rest)
  rw [hyield] at hahead
  exact (parsed_of_derives ht).gives_lowest hahead hfirst

/-- Indices are read back, if no further bracket follows. -/
theorem gives_printBracketed {es : List Expr} (hes : ∀ e ∈ es, e.Printable numeral)
    (hrest : rest.head? ≠ some (.mark .openBracket))
    (hahead : c.Ahead close ((Expr.printBracketed numeral es).map Token.terminal ++ rest)) :
    Gives c.bracketed fun es' d =>
      es'.map Expr.bare = es.map Expr.bare ∧ d.Ahead close rest := by
  obtain ⟨parts, hparts, hbare, hyield⟩ :=
    consumesAll_bracketed (fun e he => (spells_print e (hes e he)).logical) rest
  rw [hyield] at hahead
  rw [← hbare]
  exact gives_bracketed hrest (fun part hpart => parsed_of_derives (hparts part hpart)) hahead

/-- A printed assignment or compound assignment is read back from its first index on. -/
theorem gives_assignment {name : Token} {target : Target} {value : Expr} {span : Span} {kind : Kind}
    {s : Stmt} (hs : kind = .assignment ∧ s = .assign span target value ∨
      ∃ op : CompoundOp, kind = op.kind ∧ s = .update span op target value)
    (hname : name.text = target.name) (hindices : ∀ e ∈ target.indices, e.Printable numeral)
    (hvalue : value.Printable numeral)
    (hahead : c.Ahead close ((Expr.printBracketed numeral target.indices).map Token.terminal ++
      .mark kind :: ((value.print numeral).map Token.terminal ++ .mark .semicolon :: rest))) :
    Gives (c.assignment name) fun s' d => s'.bare = s.bare ∧ d.Ahead close rest := by
  have hbracket : kind ≠ .openBracket := by
    rcases hs with ⟨rfl, -⟩ | ⟨op, rfl, -⟩
    · decide
    · cases op <;> decide
  refine (gives_printBracketed hindices (by simpa using hbracket) hahead).bind
    fun indices d hd htarget => ?_
  obtain ⟨token, f, hf, hnext, htoken, hf'⟩ := htarget.2.next?_cons
  have hkind := (terminal_eq_mark_iff.mp htoken).1
  dsimp only
  rw [hnext]
  dsimp only
  -- The plain sign is tried first, then those of compound assignments.
  rcases hs with ⟨rfl, rfl⟩ | ⟨op, rfl, rfl⟩
  · rw [if_pos hkind]
    refine (gives_print hvalue rfl hf').bind fun v g _ hv => ?_
    refine hv.2.gives_expect.bind fun _ k _ hk => .ok ⟨?_, hk⟩
    simp [Stmt.bare, Target.bare, hname, htarget.1, hv.1]
  · have hne : token.kind ≠ .assignment := by rw [hkind]; cases op <;> decide
    have hop : CompoundOp.ofKind? token.kind = some op := by rw [hkind]; cases op <;> rfl
    rw [if_neg hne, hop]
    refine (gives_print hvalue rfl hf').bind fun v g _ hv => ?_
    refine hv.2.gives_expect.bind fun _ k _ hk => .ok ⟨?_, hk⟩
    simp [Stmt.bare, Target.bare, hname, htarget.1, hv.1]

/-- A printed statement starts with a token that neither closes a block nor goes on with the
statement in front of it. -/
theorem exists_first_print (numeral : Float → String) (s : Stmt) :
    ∃ first more, (s.print numeral).map Token.terminal = first :: more ∧
      first ≠ .mark .closeCurly ∧ first ≠ .mark .elseWord ∧ first ≠ .mark .eof := by
  cases s with
  | branch _ _ _ fail =>
    cases fail <;> exact ⟨.mark .ifWord, _, rfl, by decide, by decide, by decide⟩
  | assign _ target _ => exact ⟨.name target.name, _, rfl, by simp, by simp, by simp⟩
  | update _ _ target _ => exact ⟨.name target.name, _, rfl, by simp, by simp, by simp⟩
  | ret _ _ => exact ⟨.mark .returnWord, _, rfl, by decide, by decide, by decide⟩

/-- An arm in curly brackets is read as the statements between them. -/
theorem Ahead.gives_arm {text : List Terminal} {post : List Stmt → Cursor → Prop}
    (hahead : c.Ahead close (.mark .openCurly :: text))
    (h : ∀ {d : Cursor}, d.Ahead close text → Gives d.statements post) : Gives c.arm post := by
  obtain ⟨d, hd, hskip, hd'⟩ := hahead.skip?_mark
  rw [arm, hskip]
  exact (h hd').bind fun body f _ hbody => .ok hbody

mutual

/-- A statement is read back. No `else` may follow, because it would be taken for a part of the
statement. -/
theorem gives_statement : ∀ (s : Stmt) {c : Cursor} {rest : List Terminal},
    (∀ e ∈ s.exprs, e.Printable numeral) →
    c.Ahead close ((s.print numeral).map Token.terminal ++ rest) →
    rest.head? ≠ some (.mark .elseWord) →
    Gives c.statement fun s' d => s'.bare = s.bare ∧ d.Ahead close rest
  | .branch span condition pass none, c, rest, hs, hahead, hrest => by
    obtain ⟨hcondition, hpass⟩ := List.forall_mem_cons.mp hs
    have hbranch : c.Ahead close (.mark .ifWord :: .mark .openParen ::
        ((condition.print numeral).map Token.terminal ++ .mark .closeParen :: .mark .openCurly ::
          ((Stmt.printAll numeral pass).map Token.terminal ++ .mark .closeCurly :: rest))) := by
      simpa (disch := decide) [Stmt.print, Token.terminal_mark] using hahead
    obtain ⟨token, d, hd, hnext, htoken, hd'⟩ := hbranch.next?_cons
    rw [statement, hnext]
    dsimp only
    rw [(terminal_eq_mark_iff.mp htoken).1]
    refine hd'.gives_expect.bind fun _ f hf hf' => ?_
    refine (gives_print hcondition rfl hf').bind fun e g hg he => ?_
    refine he.2.gives_expect.bind fun _ k hk hk' => ?_
    refine (hk'.gives_arm (gives_statements pass hpass)).bind fun body m hm hbody => ?_
    dsimp only
    -- No `else` is taken from what follows.
    rw [hbody.2.skip?_none rfl hrest]
    exact .ok ⟨by simp [Stmt.bare, he.1, hbody.1], hbody.2⟩
  | .branch span condition pass (some fail), c, rest, hs, hahead, _ => by
    obtain ⟨hcondition, harms⟩ := List.forall_mem_cons.mp hs
    obtain ⟨hpass, hfail⟩ := List.forall_mem_append.mp harms
    have hbranch : c.Ahead close (.mark .ifWord :: .mark .openParen ::
        ((condition.print numeral).map Token.terminal ++ .mark .closeParen :: .mark .openCurly ::
          ((Stmt.printAll numeral pass).map Token.terminal ++ .mark .closeCurly ::
            .mark .elseWord :: .mark .openCurly ::
              ((Stmt.printAll numeral fail).map Token.terminal ++
                .mark .closeCurly :: rest)))) := by
      simpa (disch := decide) [Stmt.print, Token.terminal_mark] using hahead
    obtain ⟨token, d, hd, hnext, htoken, hd'⟩ := hbranch.next?_cons
    rw [statement, hnext]
    dsimp only
    rw [(terminal_eq_mark_iff.mp htoken).1]
    refine hd'.gives_expect.bind fun _ f hf hf' => ?_
    refine (gives_print hcondition rfl hf').bind fun e g hg he => ?_
    refine he.2.gives_expect.bind fun _ k hk hk' => ?_
    refine (hk'.gives_arm (gives_statements pass hpass)).bind fun body m hm hbody => ?_
    obtain ⟨n, hn, hskip, hn'⟩ := hbody.2.skip?_mark
    dsimp only
    rw [hskip]
    refine (hn'.gives_arm (gives_statements fail hfail)).bind fun body' q _ hbody' => ?_
    exact .ok ⟨by simp [Stmt.bare, he.1, hbody.1, hbody'.1], hbody'.2⟩
  | .assign span target value, c, rest, hs, hahead, _ => by
    obtain ⟨hvalue, hindices⟩ := List.forall_mem_cons.mp hs
    have hassign : c.Ahead close (.name target.name ::
        ((Expr.printBracketed numeral target.indices).map Token.terminal ++ .mark .assignment ::
          ((value.print numeral).map Token.terminal ++ .mark .semicolon :: rest))) := by
      simpa (disch := decide) [Stmt.print, Target.print, Token.terminal_mark] using hahead
    obtain ⟨token, d, hd, hnext, htoken, hd'⟩ := hassign.next?_cons
    obtain ⟨hkind, htext⟩ := terminal_eq_name_iff.mp htoken
    rw [statement, hnext]
    dsimp only
    rw [hkind]
    exact (gives_assignment (.inl ⟨rfl, rfl⟩) htext hindices hvalue hd').bind
      fun s f _ hs => .ok hs
  | .update span op target value, c, rest, hs, hahead, _ => by
    obtain ⟨hvalue, hindices⟩ := List.forall_mem_cons.mp hs
    have hupdate : c.Ahead close (.name target.name ::
        ((Expr.printBracketed numeral target.indices).map Token.terminal ++ .mark op.kind ::
          ((value.print numeral).map Token.terminal ++ .mark .semicolon :: rest))) := by
      simpa (disch := decide) [Stmt.print, Target.print, Token.terminal_mark,
        Token.terminal_mark op.isMark_kind] using hahead
    obtain ⟨token, d, hd, hnext, htoken, hd'⟩ := hupdate.next?_cons
    obtain ⟨hkind, htext⟩ := terminal_eq_name_iff.mp htoken
    rw [statement, hnext]
    dsimp only
    rw [hkind]
    exact (gives_assignment (.inr ⟨op, rfl, rfl⟩) htext hindices hvalue hd').bind
      fun s f _ hs => .ok hs
  | .ret span value, c, rest, hs, hahead, _ => by
    have hvalue := hs value List.mem_cons_self
    have hreturn : c.Ahead close (.mark .returnWord ::
        ((value.print numeral).map Token.terminal ++ .mark .semicolon :: rest)) := by
      simpa (disch := decide) [Stmt.print, Token.terminal_mark] using hahead
    obtain ⟨token, d, hd, hnext, htoken, hd'⟩ := hreturn.next?_cons
    rw [statement, hnext]
    dsimp only
    rw [(terminal_eq_mark_iff.mp htoken).1]
    refine (gives_print hvalue rfl hd').bind fun e f _ he => ?_
    exact he.2.gives_expect.bind fun _ g _ hg => .ok ⟨by simp [Stmt.bare, he.1], hg⟩

/-- The statements of a block are read back, up to the curly bracket that closes it. Each is
followed by another one or by that bracket, so the condition on `else` is met. -/
theorem gives_statements : ∀ (body : List Stmt) {c : Cursor} {rest : List Terminal},
    (∀ e ∈ Stmt.exprsAll body, e.Printable numeral) →
    c.Ahead close ((Stmt.printAll numeral body).map Token.terminal ++ .mark .closeCurly :: rest) →
    Gives c.statements fun body' d =>
      Stmt.bareAll body' = Stmt.bareAll body ∧ d.Ahead close rest
  | [], c, rest, _, hahead => by
    obtain ⟨d, hd, hskip, hd'⟩ := hahead.skip?_mark
    rw [statements, hskip]
    exact .ok ⟨rfl, hd'⟩
  | s :: body, c, rest, hbody, hahead => by
    obtain ⟨hs, hmore⟩ := List.forall_mem_append.mp hbody
    rw [Stmt.printAll, List.map_append, List.append_assoc] at hahead
    -- What follows the statement is another one or the end of the block.
    have helse : ((Stmt.printAll numeral body).map Token.terminal ++
        .mark .closeCurly :: rest).head? ≠ some (.mark .elseWord) := by
      cases body with
      | nil => simp [Stmt.printAll]
      | cons next body =>
        obtain ⟨first, more, hnext, -, hne, -⟩ := exists_first_print numeral next
        simpa [Stmt.printAll, hnext] using hne
    obtain ⟨first, more, hfirst, hcurly, -, heof⟩ := exists_first_print numeral s
    have hcurrent : c.Ahead close (first :: (more ++
        ((Stmt.printAll numeral body).map Token.terminal ++ .mark .closeCurly :: rest))) := by
      rwa [hfirst, List.cons_append] at hahead
    rw [statements, hcurrent.skip?_none rfl (by simpa using hcurly)]
    dsimp only
    rw [if_neg (hcurrent.current_kind_ne rfl heof)]
    refine (gives_statement s hs hahead helse).bind fun s' d _ hs' => ?_
    refine (gives_statements body hmore hs'.2).bind fun body' f _ hbody' => ?_
    exact .ok ⟨by rw [Stmt.bareAll, Stmt.bareAll, hs'.1, hbody'.1], hbody'.2⟩

end

/-! ### Printed declarations are read back -/

/-- A printed expression does not begin with a closing bracket. -/
theorem head?_print_ne {e : Expr} (he : e.Printable numeral) (rest : List Terminal) :
    ((e.print numeral).map Token.terminal ++ rest).head? ≠ some (.mark .closeBracket) := by
  obtain ⟨t, ht, hyield⟩ := (spells_print e he).logical rest
  rw [hyield]
  exact ht.head?_ne (.inr rfl) rest

/-- A name is consumed where one is asked for. -/
theorem Ahead.gives_expectOr_name {name : String} (hahead : c.Ahead close (.name name :: rest))
    (fault : Fault) :
    Gives (c.expectOr .identifier fault) fun token d => token.text = name ∧ d.Ahead close rest := by
  obtain ⟨token, d, hd, hnext, htoken, hd'⟩ := hahead.next?_cons
  obtain ⟨hkind, htext⟩ := terminal_eq_name_iff.mp htoken
  refine ⟨token, d, hd, ?_, htext, hd'⟩
  simp [expectOr, hnext, hkind]

/-- The dimensions of a parameter are read back, those without an expression too. -/
theorem gives_dimensions (hrest : rest.head? ≠ some (.mark .openBracket)) :
    ∀ (dims : List (Option Expr)) {c : Cursor},
      (∀ e ∈ dims.filterMap id, e.Printable numeral) →
      c.Ahead close ((Param.printDims numeral dims).map Token.terminal ++ rest) →
      Gives c.dimensions fun dims' d =>
        dims'.map (Option.map Expr.bare) = dims.map (Option.map Expr.bare) ∧ d.Ahead close rest
  | [], c, _, hahead => by
    rw [dimensions, hahead.skip?_none rfl hrest]
    exact .ok ⟨rfl, hahead⟩
  | none :: dims, c, hdims, hahead => by
    have hopen : c.Ahead close (.mark .openBracket :: .mark .closeBracket ::
        ((Param.printDims numeral dims).map Token.terminal ++ rest)) := by
      simpa (disch := decide) [Param.printDims, Token.terminal_mark] using hahead
    obtain ⟨d, hd, hskip, hd'⟩ := hopen.skip?_mark
    obtain ⟨f, hf, hclose, hf'⟩ := hd'.skip?_mark
    rw [dimensions, hskip]
    dsimp only
    rw [hclose]
    refine (gives_dimensions hrest dims hdims hf').bind fun dims' g _ hdims' => ?_
    exact .ok ⟨by simp [hdims'.1], hdims'.2⟩
  | some e :: dims, c, hdims, hahead => by
    have hsize : c.Ahead close (.mark .openBracket :: ((e.print numeral).map Token.terminal ++
        .mark .closeBracket :: ((Param.printDims numeral dims).map Token.terminal ++ rest))) := by
      simpa (disch := decide) [Param.printDims, Token.terminal_mark] using hahead
    obtain ⟨he, hmore⟩ := List.forall_mem_cons.mp hdims
    obtain ⟨d, hd, hskip, hd'⟩ := hsize.skip?_mark
    rw [dimensions, hskip]
    dsimp only
    -- A size is not taken for a dimension that is left open.
    rw [hd'.skip?_none rfl (head?_print_ne he _)]
    refine (gives_print he rfl hd').bind fun e' f _ he' => ?_
    refine he'.2.gives_expect.bind fun _ g _ hg => ?_
    refine (gives_dimensions hrest dims hmore hg).bind fun dims' k _ hdims' => ?_
    exact .ok ⟨by simp [he'.1, hdims'.1], hdims'.2⟩

/-- A parameter is read back, if no further bracket follows. -/
theorem gives_parameter {p : Param} (hp : ∀ e ∈ p.dims.filterMap id, e.Printable numeral)
    (hrest : rest.head? ≠ some (.mark .openBracket))
    (hahead : c.Ahead close ((p.print numeral).map Token.terminal ++ rest)) :
    Gives c.parameter fun p' d => p'.bare = p.bare ∧ d.Ahead close rest := by
  have hparam : c.Ahead close (.name p.name :: .mark .colon :: .mark .numberWord ::
      ((Param.printDims numeral p.dims).map Token.terminal ++ rest)) := by
    simpa (disch := decide) [Param.print, Token.terminal_mark] using hahead
  refine (hparam.gives_expectOr_name _).bind fun name d _ hname => ?_
  refine hname.2.gives_expect.bind fun _ f _ hf => ?_
  refine (hf.gives_expectOr _).bind fun _ g _ hg => ?_
  refine (gives_dimensions hrest p.dims hp hg).bind fun dims k _ hdims => ?_
  exact .ok ⟨by simp [Param.bare, hname.1, hdims.1], hdims.2⟩

/-- One parameter or more are read back, up to the closing parenthesis. -/
theorem gives_parametersOne :
    ∀ (p : Param) (params : List Param) {c : Cursor},
      (∀ q ∈ p :: params, ∀ e ∈ q.dims.filterMap id, e.Printable numeral) →
      c.Ahead close ((Param.printSeparated numeral (p :: params)).map Token.terminal ++
        .mark .closeParen :: rest) →
      Gives c.parametersOne fun params' d =>
        params'.map Param.bare = (p :: params).map Param.bare ∧ d.Ahead close rest
  | p, [], c, hparams, hahead => by
    rw [Param.printSeparated, Param.printContinued, List.flatMap_nil, List.append_nil] at hahead
    rw [parametersOne]
    refine (gives_parameter (hparams p List.mem_cons_self) (by simp) hahead).bind
      fun p' d _ hp' => ?_
    dsimp only
    rw [hp'.2.skip?_none rfl (by simp)]
    refine hp'.2.gives_expect.bind fun _ f _ hf => .ok ⟨by simp [hp'.1], hf⟩
  | p, q :: params, c, hparams, hahead => by
    have hmore : c.Ahead close ((p.print numeral).map Token.terminal ++ .mark .comma ::
        ((Param.printSeparated numeral (q :: params)).map Token.terminal ++
          .mark .closeParen :: rest)) := by
      simpa (disch := decide) [Param.printSeparated, Param.printContinued, Token.terminal_mark]
        using hahead
    rw [parametersOne]
    refine (gives_parameter (hparams p List.mem_cons_self) (by simp) hmore).bind
      fun p' d _ hp' => ?_
    obtain ⟨f, hf, hcomma, hf'⟩ := hp'.2.skip?_mark
    dsimp only
    rw [hcomma]
    refine (gives_parametersOne q params (fun r hr => hparams r (List.mem_cons_of_mem _ hr))
      hf').bind fun params' g _ hparams' => ?_
    exact .ok ⟨by rw [List.map_cons, List.map_cons, hp'.1, hparams'.1], hparams'.2⟩

/-- Parameters are read back, up to the closing parenthesis. -/
theorem gives_parameters {params : List Param}
    (hparams : ∀ p ∈ params, ∀ e ∈ p.dims.filterMap id, e.Printable numeral)
    (hahead : c.Ahead close ((Param.printSeparated numeral params).map Token.terminal ++
      .mark .closeParen :: rest)) :
    Gives c.parameters fun params' d =>
      params'.map Param.bare = params.map Param.bare ∧ d.Ahead close rest := by
  rw [parameters]
  cases params with
  | nil =>
    obtain ⟨d, hd, hskip, hd'⟩ := hahead.skip?_mark
    rw [hskip]
    exact .ok ⟨rfl, hd'⟩
  | cons p params =>
    have hskip : c.skip? .closeParen = none :=
      hahead.skip?_none rfl (by simp [Param.printSeparated, Param.print])
    rw [hskip]
    exact gives_parametersOne p params hparams hahead

/-- A declaration is read back from its name on, whatever offset it is said to start at. -/
theorem gives_declarationFrom {decl : Decl} (hdecl : ∀ e ∈ decl.exprs, e.Printable numeral)
    (hahead : c.Ahead close ((decl.print numeral false).map Token.terminal ++ rest))
    (start : Nat) :
    Gives (c.declarationFrom start) fun decl' d => decl'.bare = decl.bare ∧ d.Ahead close rest := by
  obtain ⟨hparams, hbody⟩ := List.forall_mem_append.mp hdecl
  have hfrom : c.Ahead close (.name decl.name :: .mark .openParen ::
      ((Param.printSeparated numeral decl.params).map Token.terminal ++ .mark .closeParen ::
        .mark .openCurly :: ((Stmt.printAll numeral decl.body).map Token.terminal ++
          .mark .closeCurly :: rest))) := by
    simpa (disch := decide) [Decl.print, Token.terminal_mark] using hahead
  have hdims : ∀ p ∈ decl.params, ∀ e ∈ p.dims.filterMap id, e.Printable numeral :=
    fun p hp e he => hparams e (List.mem_flatMap.mpr ⟨p, hp, he⟩)
  refine (hfrom.gives_expectOr_name _).bind fun name d _ hname => ?_
  refine hname.2.gives_expect.bind fun _ f _ hf => ?_
  refine (gives_parameters hdims hf).bind fun params g _ hparams' => ?_
  have hblock : Gives g.block fun body d =>
      Stmt.bareAll body = Stmt.bareAll decl.body ∧ d.Ahead close rest :=
    hparams'.2.gives_expect.bind fun _ k _ hk =>
      (gives_statements decl.body hbody hk).bind fun body m _ hbody' => .ok hbody'
  refine hblock.bind fun body k _ hbody' => .ok ⟨?_, hbody'.2⟩
  simp [Decl.bare, hname.1, hparams'.1, hbody'.1]

/-- A declaration is read back, whether the word that introduces it is printed or not. -/
theorem gives_declaration {keyword : Bool} {decl : Decl}
    (hdecl : ∀ e ∈ decl.exprs, e.Printable numeral)
    (hahead : c.Ahead close ((decl.print numeral keyword).map Token.terminal ++ rest)) :
    Gives c.declaration fun decl' d => decl'.bare = decl.bare ∧ d.Ahead close rest := by
  rw [declaration]
  cases keyword with
  | false =>
    rw [hahead.skip?_none rfl (by simp [Decl.print])]
    exact gives_declarationFrom hdecl hahead _
  | true =>
    have hfn : c.Ahead close (.mark .fnWord ::
        ((decl.print numeral false).map Token.terminal ++ rest)) := by
      simpa (disch := decide) [Decl.print, Token.terminal_mark] using hahead
    obtain ⟨d, hd, hskip, hd'⟩ := hfn.skip?_mark
    rw [hskip]
    exact (gives_declarationFrom hdecl hd' _).bind fun decl' f _ h => .ok h

/-- Printed declarations are read up to the end token. -/
theorem declarations_print (hclose : close.kind = .eof) :
    ∀ (decls : List (Bool × Decl)) {c : Cursor},
      (∀ decl ∈ decls, ∀ e ∈ decl.2.exprs, e.Printable numeral) →
      c.Ahead close ((Decl.printAll numeral decls).map Token.terminal) →
      ∃ decls', c.declarations = .ok decls' ∧
        decls'.map Decl.bare = decls.map fun decl => decl.2.bare
  | [], c, _, hahead => by
    rw [declarations, if_pos (by rw [hahead.current_nil, hclose])]
    exact ⟨[], rfl, rfl⟩
  | (keyword, decl) :: decls, c, hdecls, hahead => by
    rw [Decl.printAll, List.flatMap_cons, List.map_append] at hahead
    obtain ⟨decl', d, hd, hrun, hbare, hd'⟩ :=
      gives_declaration (hdecls (keyword, decl) List.mem_cons_self) hahead
    obtain ⟨decls', hmore, hall⟩ := declarations_print hclose decls
      (fun pair hpair => hdecls pair (List.mem_cons_of_mem _ hpair)) hd'
    have heof : c.current.kind ≠ .eof := by
      cases keyword <;>
        exact Ahead.current_kind_ne hahead rfl (by simp [Token.named, Token.mark, Token.terminal])
    refine ⟨decl' :: decls', ?_, by rw [List.map_cons, List.map_cons, hbare, hall]⟩
    rw [declarations, if_neg heof, hrun]
    simp [bind, Except.bind, hmore, pure, Except.pure]

end Token.Cursor

/-- Parsing undoes printing. If every array constructor in some declarations has a size and every
number is the value of its numeral, then any tokens that spell the printed ones are read as these
declarations, wherever the tokens stand in a text. -/
theorem Decl.parse_print {decls : List (Bool × Decl)} {tokens : List Token} {last : Token}
    (hdecls : ∀ decl ∈ decls, ∀ e ∈ decl.2.exprs, e.Printable numeral)
    (htokens : tokens.map Token.terminal = (Decl.printAll numeral decls).map Token.terminal)
    (hlast : last.kind = .eof) :
    ∃ decls', Decl.parse (tokens ++ [last]) = .ok decls' ∧
      decls'.map Decl.bare = decls.map fun decl => decl.2.bare := by
  have hstart : (Cursor.start (tokens ++ [last])).Ahead last (tokens.map Token.terminal) :=
    Cursor.ahead_start hlast
  rw [htokens] at hstart
  exact Cursor.declarations_print hlast decls hdecls hstart

end

/-- A function with a sized and an open dimension, a branch on `!(x - (y - 0.5))`, a compound
assignment of a new array, and a call behind `else`. -/
def Decl.patch : Decl :=
  ⟨"patch", [⟨"a", [some (.var .blank "n" []), none], .blank⟩],
    [.branch .blank
      (.unary .blank .inversion (.binary .blank .difference (.var .blank "x" [])
        (.binary .blank .difference (.var .blank "y" []) (.number .blank 0.5))))
      [.update .blank .addition ⟨"a", [.number .blank 1], .blank⟩
        (.newArray .blank [.number .blank 2])]
      (some [.ret .blank (.call .blank "patch" [.list .blank []])])], .blank⟩

/-- Numbers are written with the fewest digits, and the whole declaration is read back. -/
theorem Decl.parse_print_patch :
    (∀ decl ∈ [(true, Decl.patch)], ∀ e ∈ decl.2.exprs, e.Printable Decimal.write) ∧
      (Token.eof 0).kind = .eof ∧
      ∃ decls', Decl.parse
          (Decl.printAll Decimal.write [(true, Decl.patch)] ++ [Token.eof 0]) = .ok decls' ∧
        decls'.map Decl.bare = [Decl.patch.bare] := by
  have hdecls : ∀ decl ∈ [(true, Decl.patch)], ∀ e ∈ decl.2.exprs, e.Printable Decimal.write := by
    decide +kernel
  exact ⟨hdecls, rfl, Decl.parse_print hdecls rfl rfl⟩

end ArrayScript
