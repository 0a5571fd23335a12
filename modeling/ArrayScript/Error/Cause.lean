import ArrayScript.Decimal.Notation

/-!
# `ArrayScript.Error.Cause`: what can go wrong

One constructor for each reason to reject a program, to refuse a call or to end a run. The wording
of all of them stands here and nowhere else: the message, the category, the tip that goes with
some of them, and a code by which tools can tell them apart.
-/

set_option autoImplicit false

namespace ArrayScript

/-- What the grammar asks for where it finds something else. -/
inductive Expectation where
  | namedFunction
  | indexedVariable
  | dimension
  | numberType
  | statement
  | assignmentOperator
  | parameterName
  | functionName
deriving DecidableEq, Repr

/-- The words that follow an unexpected token. -/
def Expectation.text : Expectation → String
  | namedFunction => "only named functions can be called"
  | indexedVariable => "only variables can be indexed"
  | dimension => "expected at least one array dimension"
  | numberType => "expected type 'number'"
  | statement => "expected a statement"
  | assignmentOperator => "expected an assignment operator"
  | parameterName => "expected parameter name"
  | functionName => "expected function name"

/-- The family that a cause belongs to. -/
inductive Category where
  | grammar
  | declaration
  | typing
  | shape
  | reference
  | recursion
  | arity
  | controlFlow
  | execution
deriving DecidableEq, Repr

/-- The name of a category. -/
def Category.text : Category → String
  | grammar => "SyntaxError"
  | declaration => "DeclarationError"
  | typing => "TypeError"
  | shape => "ShapeError"
  | reference => "ReferenceError"
  | recursion => "RecursionError"
  | arity => "ArityError"
  | controlFlow => "ControlFlowError"
  | execution => "RuntimeError"

/-- The reason for an error. -/
inductive Cause where
  -- reading a program
  | unrecognised (text : String)
  | unexpected (text : String)
  | unexpectedFor (text : String) (expectation : Expectation)
  | invalidNumber (text : String)
  -- declarations
  | builtinRedeclared (function : String)
  | functionRedeclared (function : String)
  | parameterRedeclared (parameter : String)
  -- types
  | conditionNotNumber
  | dimensionNotNumber (index : Nat)
  | indexNotNumber (variableName : String) (index : Nat)
  | elementMismatch (index : Nat)
  | operandNotNumber (operation : String)
  | leftOperandNotNumber (operation : String)
  | rightOperandNotNumber (operation : String)
  | assignmentNotNumber (variableName : String)
  | variableMustBeNumber (variableName : String)
  | argumentMismatch (function : String) (index : Nat)
  -- shapes
  | tooManyIndices (variableName : String) (dimensions : Nat)
  | notAnArray (variableName : String)
  | assignmentShape (variableName : String) (dimensions : Nat)
  | emptyList
  -- names
  | undeclaredVariable (variableName : String)
  | indexingUndeclared (variableName : String)
  | functionNotValue (function : String)
  | undeclaredFunction (function : String)
  | notAFunction (name : String)
  | unknownFunction (function : String)
  -- calls
  | resultUnknown (function : String)
  | argumentCount (function : String) (expected received : Nat)
  -- control flow
  | returnBeforeEnd
  | missingReturn
  | resultMismatch
  | complexityOverflow
  -- runs
  | indexOutOfBounds (index length : Nat)
  | invalidIndex (value : Float)
  | invalidDimension (value : Float)
  | notIndexable
  | numberExpected
  | uninitialized (variableName : String)
  | hostArgumentCount (function : String) (expected received : Nat)
  | hostArgumentType (function : String) (index : Nat)
  | callDepthExceeded (function : String) (limit : Nat)

namespace Cause

/-- The sentence that describes a cause. -/
def message : Cause → String
  | unrecognised text => s!"Unrecognised token `{text}'."
  | unexpected text => s!"Unexpected token `{text}'."
  | unexpectedFor text expectation => s!"Unexpected token `{text}', {expectation.text}."
  | invalidNumber text => s!"Invalid number `{text}'."
  | builtinRedeclared f => s!"Redeclaration of builtin function `{f}'."
  | functionRedeclared f => s!"Multiple declarations of function `{f}'."
  | parameterRedeclared p => s!"Multiple declarations of parameter `{p}'."
  | conditionNotNumber => "The condition must evaluate to a number."
  | dimensionNotNumber i => s!"Dimension {i} of the new array must be a number."
  | indexNotNumber v i => s!"Index {i} of variable `{v}' must be a number."
  | elementMismatch i => s!"Element {i} must be of the same type as the first."
  | operandNotNumber op => s!"Expected a number as the operand of the operation `{op}'."
  | leftOperandNotNumber op =>
    s!"Expected a number on the left hand side of the operation `{op}'."
  | rightOperandNotNumber op =>
    s!"Expected a number on the right hand side of the operation `{op}'."
  | assignmentNotNumber v => s!"The right hand side of the assignment to `{v}' must be a number."
  | variableMustBeNumber v => s!"The variable `{v}' must be a number."
  | argumentMismatch f i => s!"Argument {i} of the function call to `{f}' is invalid."
  | tooManyIndices v n => s!"The array `{v}' only has {n} dimensions."
  | notAnArray v => s!"The variable `{v}' is not an array."
  | assignmentShape v n =>
    s!"The right hand side of the assignment to `{v}' must be an array of {n} dimensions."
  | emptyList => "An array literal must have at least one element."
  | undeclaredVariable v => s!"The variable `{v}' is not defined."
  | indexingUndeclared v => s!"Indexing a variable `{v}' which is not defined."
  | functionNotValue f => s!"The function `{f}' is not a value."
  | undeclaredFunction f => s!"Calling undeclared function `{f}'."
  | notAFunction name => s!"The global, `{name}', is not a function."
  | unknownFunction f => s!"No function named `{f}' was declared."
  | resultUnknown f => s!"Recursively calling function `{f}' before determining its return type."
  | argumentCount f expected _ => s!"The function `{f}' expects {expected} arguments."
  | returnBeforeEnd => "The function returns before the end of its body."
  | missingReturn => "The function does not return a value on every path."
  | resultMismatch => "Multiple types of return values."
  | complexityOverflow => "The cyclomatic complexity is too large to count."
  | indexOutOfBounds i n => s!"Index {i} is out of bounds for an array of length {n}."
  | invalidIndex x => s!"Index {Decimal.write x} is not a non-negative integer."
  | invalidDimension x => s!"Array dimension {Decimal.write x} is not a non-negative integer."
  | notIndexable => "Indexing a value which is not an array."
  | numberExpected => "Expected a number but found an array."
  | uninitialized v => s!"The variable `{v}' is read before it is assigned."
  | hostArgumentCount f expected received =>
    s!"The function `{f}' expects {expected} arguments, received {received}."
  | hostArgumentType f i => s!"Argument {i} passed to `{f}' has the wrong kind."
  | callDepthExceeded f limit => s!"Call depth exceeded {limit} while calling `{f}'."

/-- The category of a cause. -/
def category : Cause → Category
  | unrecognised _ | unexpected _ | unexpectedFor .. | invalidNumber _ => .grammar
  | builtinRedeclared _ | functionRedeclared _ | parameterRedeclared _ => .declaration
  | conditionNotNumber | dimensionNotNumber _ | indexNotNumber .. | elementMismatch _
  | operandNotNumber _ | leftOperandNotNumber _ | rightOperandNotNumber _
  | assignmentNotNumber _ | variableMustBeNumber _ | argumentMismatch .. => .typing
  | tooManyIndices .. | notAnArray _ | assignmentShape .. | emptyList => .shape
  | undeclaredVariable _ | indexingUndeclared _ | functionNotValue _ | undeclaredFunction _
  | notAFunction _ | unknownFunction _ => .reference
  | resultUnknown _ => .recursion
  | argumentCount .. => .arity
  | returnBeforeEnd | missingReturn | resultMismatch | complexityOverflow => .controlFlow
  | indexOutOfBounds .. | invalidIndex _ | invalidDimension _ | notIndexable | numberExpected
  | uninitialized _ | hostArgumentCount .. | hostArgumentType .. | callDepthExceeded .. =>
    .execution

/-- Advice on how to mend the program, for the causes that have some. -/
def tip? : Cause → Option String
  | unexpected _ => some "did you miss a semicolon?"
  | resultUnknown f => some s!"return from `{f}` on a base case before calling it again"
  | undeclaredFunction f =>
    some s!"functions must be declared before use; move `{f}` above its caller"
  | missingReturn => some "end the function body with a `return`"
  | returnBeforeEnd => some "wrap the early return in an `if` whose other path continues"
  | argumentCount _ expected received =>
    some s!"expected {expected} arguments, received {received}"
  | _ => none

/-- A code for tools, the same for all causes of one kind. -/
def code : Cause → String
  | unrecognised _ => "UnrecognisedToken"
  | unexpected _ => "UnexpectedToken"
  | unexpectedFor .. => "UnexpectedTokenDetailed"
  | invalidNumber _ => "NumberParseError"
  | builtinRedeclared _ => "BuiltinRedeclared"
  | functionRedeclared _ => "FunctionAlreadyDeclared"
  | parameterRedeclared _ => "ParameterAlreadyDeclared"
  | conditionNotNumber => "ConditionNotNumber"
  | dimensionNotNumber _ => "DimensionNotNumber"
  | indexNotNumber .. => "IndexNotNumber"
  | elementMismatch _ => "ElementTypeMatchError"
  | operandNotNumber _ => "OperandNotNumber"
  | leftOperandNotNumber _ => "LeftOperandNotNumber"
  | rightOperandNotNumber _ => "RightOperandNotNumber"
  | assignmentNotNumber _ => "AssignmentNotNumber"
  | variableMustBeNumber _ => "VariableMustBeNumber"
  | argumentMismatch .. => "ArgumentTypeMatchError"
  | tooManyIndices .. => "TooManyIndices"
  | notAnArray _ => "NotAnArray"
  | assignmentShape .. => "AssignmentShapeMismatch"
  | emptyList => "EmptyList"
  | undeclaredVariable _ => "VariableNotDeclared"
  | indexingUndeclared _ => "IndexingUndeclared"
  | functionNotValue _ => "FunctionNotValue"
  | undeclaredFunction _ => "UndeclaredFunction"
  | notAFunction _ => "NotAFunction"
  | unknownFunction _ => "UnknownFunction"
  | resultUnknown _ => "ReturnTypeUnknown"
  | argumentCount .. => "ArgumentCountMismatch"
  | returnBeforeEnd => "ReturnBeforeEnd"
  | missingReturn => "MissingReturn"
  | resultMismatch => "MultipleReturnTypes"
  | complexityOverflow => "ComplexityOverflow"
  | indexOutOfBounds .. => "IndexOutOfBounds"
  | invalidIndex _ => "InvalidIndex"
  | invalidDimension _ => "InvalidDimension"
  | notIndexable => "NotIndexable"
  | numberExpected => "ExpectedNumber"
  | uninitialized _ => "UninitializedVariable"
  | hostArgumentCount .. => "HostArgumentCount"
  | hostArgumentType .. => "HostArgumentType"
  | callDepthExceeded .. => "CallDepthExceeded"

end Cause

end ArrayScript
