import ArrayScript.Token.Kind

/-!
# `ArrayScript.Operator`: operators on numbers

Prefix and binary operators, each of which takes numbers to a number, and the operators of
compound assignments, which abbreviate a binary one. Every operator belongs to one token kind.
-/

set_option autoImplicit false

namespace ArrayScript

open Token (Kind)

/-- An operator in front of its operand. -/
inductive PrefixOp where
  | negation
  | inversion
deriving DecidableEq, Repr

/-- An operator between its operands. -/
inductive BinaryOp where
  | sum
  | difference
  | product
  | quotient
  | remainder
  | conjunction
  | disjunction
  | lesser
  | greater
  | noGreater
  | noLesser
  | equal
  | inequal
deriving DecidableEq, Repr

/-- The operator of a compound assignment. -/
inductive CompoundOp where
  | addition
  | subtraction
  | multiplication
  | division
  | modulo
deriving DecidableEq, Repr

namespace PrefixOp

/-- The word for an operator. -/
def name : PrefixOp → String
  | negation => "negation"
  | inversion => "inversion"

/-- The prefix operator that a token stands for. -/
def ofKind? : Kind → Option PrefixOp
  | .dash => some negation
  | .bang => some inversion
  | _ => none

end PrefixOp

namespace BinaryOp

/-- The word for an operator. -/
def name : BinaryOp → String
  | sum => "sum"
  | difference => "difference"
  | product => "product"
  | quotient => "quotient"
  | remainder => "remainder"
  | conjunction => "conjunction"
  | disjunction => "disjunction"
  | lesser => "lesser"
  | greater => "greater"
  | noGreater => "nogreater"
  | noLesser => "nolesser"
  | equal => "equal"
  | inequal => "inequal"

/-- The binary operator that a token stands for. -/
def ofKind? : Kind → Option BinaryOp
  | .plus => some sum
  | .dash => some difference
  | .star => some product
  | .slash => some quotient
  | .percent => some remainder
  | .andAnd => some conjunction
  | .orOr => some disjunction
  | .less => some lesser
  | .greater => some greater
  | .lessEquals => some noGreater
  | .greaterEquals => some noLesser
  | .equals => some equal
  | .notEquals => some inequal
  | _ => none

end BinaryOp

namespace CompoundOp

/-- The word for an operator. -/
def name : CompoundOp → String
  | addition => "Addition"
  | subtraction => "Subtraction"
  | multiplication => "Multiplication"
  | division => "Division"
  | modulo => "Modulo"

/-- The compound operator that a token stands for. -/
def ofKind? : Kind → Option CompoundOp
  | .plusEquals => some addition
  | .minusEquals => some subtraction
  | .starEquals => some multiplication
  | .slashEquals => some division
  | .percentEquals => some modulo
  | _ => none

/-- The binary operator that a compound assignment applies. -/
def longhand : CompoundOp → BinaryOp
  | addition => .sum
  | subtraction => .difference
  | multiplication => .product
  | division => .quotient
  | modulo => .remainder

end CompoundOp

end ArrayScript
