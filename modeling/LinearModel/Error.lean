import LinearModel.Expr.Text

/-!
# Errors

A cause says what went wrong, with the things it went wrong about. Causes fall into kinds. Those
of the first fourteen kinds are errors of the model or its data: they are reported with the
statement and the iterator bindings under which they arose. The other kinds are misuses of the
library, and carry no such context.
-/
namespace LinearModel

inductive ErrorKind where
  | parsing
  | declaration
  | domainNotFound
  | missingOuterIndex
  | expansionDepth
  | unboundName
  | dimensionMismatch
  | missingIndexedValue
  | nonScalarParameter
  | typeCoercion
  | nonLinearTerm
  | cyclicDecisionExpression
  | keyLookup
  | unknownField
  /-- A request that makes no sense for the object it was made of. -/
  | request
  | badDigits
  | missingKey
  | wrongKind
  /-- A definition that never ends. -/
  | endless
  /-- A whole number beyond the range of scalars. -/
  | outOfRange
  | notAMap
  | noOperand
  | wrongLength
  deriving DecidableEq, Repr

/-- Whether errors of a kind concern the model or its data. -/
def ErrorKind.isOfModel : ErrorKind → Bool
  | .request | .badDigits | .missingKey | .wrongKind | .endless | .outOfRange | .notAMap
  | .noOperand | .wrongLength => false
  | _ => true

/-- What went wrong. -/
inductive Cause (K : Type) where
  -- Reading a statement
  | unterminatedString (position : Nat) (text : String)
  | unexpectedCharacter (c : Char) (position : Nat) (text : String)
  | unexpectedToken (token expected : String)
  | expectedIdentifier (token : String)
  | unexpectedOperand (token : String)
  | trailingToken (token : String)
  | trailingInExpression (token text : String)
  | unsupportedFunction (name : String)
  | strayTupleLiteral
  | assignmentInExpression
  | assignmentInConstraint
  | expectedComparison (token : String)
  | chainedComparison
  | endBefore (symbol : String)
  | sumWithoutTerm (head : String)
  | unrelatedSides (operator : String)
  -- Declarations
  | duplicateField (field schema : String)
  | unknownKeyField (field schema : String)
  | unsupportedFieldType (type schema : String)
  | undeclaredElementType (type : String)
  | severalSetIndices (set : String)
  | indexedSetNotComputed (set : String)
  | namedIndicesWithArray (parameter : String)
  | unnamedIndices (parameter : String)
  | unsupportedVariableType (type : String)
  | tooManyDimensions (dvar : String) (count : Nat)
  | alreadyDeclared (symbol : String)
  | variableNameTaken (reference name : String)
  | setHasElements (set : String)
  | secondObjective (problem : String)
  -- Domains
  | domainNotDeclared (symbol : String)
  | tupleSetNotDeclared (symbol : String)
  | primitiveSetNotDeclared (symbol : String)
  | outerIndexNotBound (set iterator : String)
  | tooManyIterators (limit : Nat)
  | tooManyExpansions (limit : Nat)
  -- Names
  | nameNotBound (name : String)
  | variableWithoutValue (name : String)
  | parameterNotDeclared (symbol : String)
  | variableNotDeclared (symbol : String)
  | dexprNotDeclared (symbol : String)
  | symbolNotDeclared (symbol : String)
  -- Dimensions
  | missingField (schema field : String)
  | fieldCount (schema : String) (expected given : Nat)
  | parameterIndexCount (parameter : String) (expected given : Nat)
  | variableIndexCount (dvar : String) (expected given : Nat)
  | dexprWithoutIndex (symbol : String)
  | dexprWithIndex (symbol : String)
  | dexprIndexCount (symbol : String)
  | keyCount (set : String) (expected given : Nat)
  | arrayLength (parameter : String) (expected : Nat) (domain : String)
  | arrayTooDeep (parameter : String)
  -- Parameter values
  | noValue (parameter : String)
  | noValueAt (parameter : String) (index : Index K)
  | missingIndex (parameter : String)
  | scalarForIndexed (parameter : String)
  -- Types
  | notOfType (value : Value K) (type : TypeName)
  | notNumeric (value : Value K) (context : Option String)
  | fieldOfNonRecord (field : String) (base : Expr K)
  | lookupAsNumber (lookup : Expr K)
  | recordsUnordered (operator : RelOp)
  | nonIntegralBound (bound : Expr K) (value : Value K)
  | foreignRecord (set expected given : String)
  | literalAsNumber (literal : Expr K)
  -- Linearity
  | nonLinearProduct (product : Expr K)
  | nonLinearDivision (division : Expr K)
  | logicalTerm (term : Expr K)
  | unclassifiedTerm (term : Expr K)
  | sumNotFlattened (sum : Expr K)
  | cyclicDexpr (symbol : String) (path : List String)
  -- Records
  | keyNotFound (set : String) (key : Index K)
  | unknownField (schema field : String)
  -- Requests
  | unknownOperator (kind symbol : String)
  | exchangeNotBuilt
  | exchangeWithoutObjective
  | matrixNotBuilt
  | notExpandable (statement : String)
  | nothingToRead
  | badDigits
  | missingKey
  | wrongKind
  | endless
  | outOfRange
  | notAMap
  | noOperand
  | wrongLength

namespace Cause

variable {K : Type} [Scalar K]

def kind : Cause K → ErrorKind
  | .unterminatedString .. | .unexpectedCharacter .. | .unexpectedToken .. | .expectedIdentifier ..
  | .unexpectedOperand .. | .trailingToken .. | .trailingInExpression .. | .unsupportedFunction ..
  | .strayTupleLiteral | .assignmentInExpression | .assignmentInConstraint
  | .expectedComparison .. | .chainedComparison | .endBefore .. | .sumWithoutTerm ..
  | .unrelatedSides .. => .parsing
  | .duplicateField .. | .unknownKeyField .. | .unsupportedFieldType .. | .undeclaredElementType ..
  | .severalSetIndices .. | .indexedSetNotComputed .. | .namedIndicesWithArray ..
  | .unnamedIndices .. | .unsupportedVariableType .. | .tooManyDimensions .. | .alreadyDeclared ..
  | .variableNameTaken .. | .setHasElements .. | .secondObjective .. => .declaration
  | .domainNotDeclared .. | .tupleSetNotDeclared .. | .primitiveSetNotDeclared .. => .domainNotFound
  | .outerIndexNotBound .. => .missingOuterIndex
  | .tooManyIterators .. | .tooManyExpansions .. => .expansionDepth
  | .nameNotBound .. | .variableWithoutValue .. | .parameterNotDeclared .. | .variableNotDeclared ..
  | .dexprNotDeclared .. | .symbolNotDeclared .. => .unboundName
  | .missingField .. | .fieldCount .. | .parameterIndexCount .. | .variableIndexCount ..
  | .dexprWithoutIndex .. | .dexprWithIndex .. | .dexprIndexCount .. | .keyCount ..
  | .arrayLength .. | .arrayTooDeep .. => .dimensionMismatch
  | .noValue .. | .noValueAt .. => .missingIndexedValue
  | .missingIndex .. | .scalarForIndexed .. => .nonScalarParameter
  | .notOfType .. | .notNumeric .. | .fieldOfNonRecord .. | .lookupAsNumber ..
  | .recordsUnordered .. | .nonIntegralBound .. | .foreignRecord .. | .literalAsNumber .. =>
    .typeCoercion
  | .nonLinearProduct .. | .nonLinearDivision .. | .logicalTerm .. | .unclassifiedTerm .. =>
    .nonLinearTerm
  | .cyclicDexpr .. => .cyclicDecisionExpression
  | .keyNotFound .. => .keyLookup
  | .unknownField .. => .unknownField
  | .sumNotFlattened .. | .unknownOperator .. | .exchangeNotBuilt | .exchangeWithoutObjective
  | .matrixNotBuilt | .notExpandable .. | .nothingToRead => .request
  | .badDigits => .badDigits
  | .missingKey => .missingKey
  | .wrongKind => .wrongKind
  | .endless => .endless
  | .outOfRange => .outOfRange
  | .notAMap => .notAMap
  | .noOperand => .noOperand
  | .wrongLength => .wrongLength

def message : Cause K → String
  | .unterminatedString p s =>
    s!"OPL lexer encountered an unterminated string literal at position {natText p} of '{s}'"
  | .unexpectedCharacter c p s =>
    let shown := String.singleton c
    s!"OPL lexer encountered an unexpected character '{shown}' at position {natText p} of '{s}'"
  | .unexpectedToken t e =>
    s!"OPL parser encountered an unexpected token '{t}' while expecting the token '{e}'"
  | .expectedIdentifier t =>
    s!"OPL parser encountered an unexpected token '{t}' while expecting an identifier"
  | .unexpectedOperand t =>
    s!"OPL parser encountered an unexpected token '{t}' while parsing an operand"
  | .trailingToken t =>
    s!"OPL parser encountered an unexpected token '{t}' at the end of a statement"
  | .trailingInExpression t s =>
    s!"OPL parser encountered an unexpected token '{t}' in expression '{s}'"
  | .unsupportedFunction f => s!"OPL parser encountered the unsupported function '{f}'"
  | .strayTupleLiteral =>
    "OPL parser encountered a tuple literal outside of a tuple definition or item() lookup"
  | .assignmentInExpression =>
    "OPL parser encountered the assignment operator '=' in an expression; use '=='"
  | .assignmentInConstraint =>
    "OPL parser encountered the assignment operator '=' in a constraint; use '=='"
  | .expectedComparison t =>
    s!"OPL parser encountered the token '{t}' while expecting a relational operator"
  | .chainedComparison => "OPL parser does not support chained relations in constraints"
  | .endBefore s => s!"OPL parser reached the end of the statement while searching for '{s}'"
  | .sumWithoutTerm h => s!"Summation '{h}' has no term"
  | .unrelatedSides op => s!"Operator '{op}' cannot relate the sides of a linear equation"
  | .duplicateField f s => s!"Field '{f}' is declared more than once in tuple '{s}'"
  | .unknownKeyField f s => s!"Key field '{f}' is not a field of tuple '{s}'"
  | .unsupportedFieldType t s => s!"Field type '{t}' of tuple '{s}' is not supported"
  | .undeclaredElementType t => s!"Set element type '{t}' is not declared"
  | .severalSetIndices s => s!"Indexed set '{s}' must be indexed by exactly one iterator"
  | .indexedSetNotComputed s => s!"Indexed set '{s}' must be defined by a set comprehension"
  | .namedIndicesWithArray p =>
    s!"Parameter '{p}' with named indices must be defined by an expression"
  | .unnamedIndices p =>
    s!"Indexed parameter '{p}' must name every index to be defined by an expression"
  | .unsupportedVariableType t => s!"Variable type '{t}' is not supported"
  | .tooManyDimensions v n =>
    s!"Decision variable '{v}' is indexed over {natText n} dimensions; at most 2 are supported"
  | .alreadyDeclared s => s!"Symbol '{s}' is already declared"
  | .variableNameTaken r n =>
    s!"Decision variable '{r}' is named '{n}', which is already the name of a scalar variable"
  | .setHasElements s => s!"Set '{s}' is initialized in the model and cannot be assigned data"
  | .secondObjective p => s!"Problem '{p}' already has an objective"
  | .domainNotDeclared s => s!"Domain '{s}' is not declared"
  | .tupleSetNotDeclared s => s!"Tuple set '{s}' is not declared"
  | .primitiveSetNotDeclared s => s!"Primitive set '{s}' is not declared"
  | .outerIndexNotBound s i => s!"Computed set '{s}' is indexed by '{i}', which is not bound"
  | .tooManyIterators n =>
    s!"Expansion exceeds the maximum nesting depth of {natText n} iterators"
  | .tooManyExpansions n => s!"Summation expander exceeded {natText n} expansions"
  | .nameNotBound s => s!"Name '{s}' is not bound"
  | .variableWithoutValue s => s!"Decision variable '{s}' has no value in the current environment"
  | .parameterNotDeclared s => s!"Parameter '{s}' is not declared"
  | .variableNotDeclared s => s!"Decision variable '{s}' is not declared"
  | .dexprNotDeclared s => s!"Decision expression '{s}' is not declared"
  | .symbolNotDeclared s => s!"Symbol '{s}' is not declared"
  | .missingField s f => s!"Tuple '{s}' requires a value for field '{f}'"
  | .fieldCount s n m =>
    s!"Tuple '{s}' has {natText n} fields but {natText m} values were supplied"
  | .parameterIndexCount p n m =>
    s!"Parameter '{p}' expects {natText n} indices but {natText m} were supplied"
  | .variableIndexCount v n m =>
    s!"Decision variable '{v}' expects {natText n} indices but {natText m} were supplied"
  | .dexprWithoutIndex s => s!"Indexed decision expression '{s}' is referenced without an index"
  | .dexprWithIndex s => s!"Scalar decision expression '{s}' is referenced with an index"
  | .dexprIndexCount s => s!"Decision expression '{s}' accepts at most one index"
  | .keyCount s n m =>
    s!"Tuple set '{s}' is keyed by {natText n} fields but {natText m} key values were supplied"
  | .arrayLength p n d =>
    s!"Array literal of parameter '{p}' does not match the {natText n} elements of '{d}'"
  | .arrayTooDeep p => s!"Array literal of parameter '{p}' has too many dimensions"
  | .noValue p => s!"Parameter '{p}' has not been assigned a value"
  | .noValueAt p idx =>
    let at_ := Value.indexLiteral idx
    s!"Parameter '{p}' has no value at index {at_}"
  | .missingIndex p => s!"Indexed parameter '{p}' is referenced without an index"
  | .scalarForIndexed p => s!"Indexed parameter '{p}' cannot be assigned a scalar value"
  | .notOfType v t =>
    let shown := v.text
    let type := t.name
    match t with
    | .record _ => s!"Value '{shown}' cannot be coerced to tuple type '{type}'"
    | _ => s!"Value '{shown}' cannot be coerced to type '{type}'"
  | .notNumeric v none =>
    let shown := v.text
    s!"Value '{shown}' is not numeric"
  | .notNumeric v (some c) =>
    let shown := v.text
    s!"Value '{shown}' of '{c}' is not numeric"
  | .fieldOfNonRecord f e =>
    let base := e.literal
    s!"Field '{f}' is accessed on '{base}', which is not a tuple"
  | .lookupAsNumber e =>
    let shown := e.literal
    s!"Tuple lookup '{shown}' cannot be used as a number"
  | .recordsUnordered op =>
    let sign := op.symbol
    s!"Tuples cannot be ordered with operator '{sign}'"
  | .nonIntegralBound e v =>
    let bound := e.literal
    let shown := v.text
    s!"Range bound '{bound}' evaluates to the non-integral value {shown}"
  | .foreignRecord set t u =>
    s!"Tuple set '{set}' of type '{t}' cannot hold an instance of type '{u}'"
  | .literalAsNumber e =>
    let shown := e.literal
    s!"Value '{shown}' cannot be used as a number"
  | .nonLinearProduct e =>
    let shown := e.literal
    s!"Product '{shown}' of two non-constant expressions is not linear"
  | .nonLinearDivision e =>
    let shown := e.literal
    s!"Division '{shown}' by a non-constant expression is not linear"
  | .logicalTerm e =>
    let shown := e.literal
    s!"Logical expression '{shown}' cannot appear in a linear expression"
  | .unclassifiedTerm e =>
    let shown := e.literal
    s!"Linearizer is unable to classify the term '{shown}'"
  | .sumNotFlattened e =>
    let shown := e.literal
    s!"Linearizer encountered the summation '{shown}'"
      ++ " which should have been flattened during substitution"
  | .cyclicDexpr s path =>
    let cycle := String.intercalate " -> " path
    s!"Decision expression '{s}' references itself: {cycle}"
  | .keyNotFound set key =>
    let shown := Value.keyLiteral key
    s!"Tuple set '{set}' has no element with key {shown}"
  | .unknownField s f => s!"Tuple '{s}' has no field '{f}'"
  | .unknownOperator kind s => s!"Unable to resolve operator '{s}' as a {kind} operator"
  | .exchangeNotBuilt => "MPS writer requires a built problem"
  | .exchangeWithoutObjective => "MPS writer requires a problem with an objective"
  | .matrixNotBuilt => "Matrix writer requires a built problem"
  | .notExpandable s => s!"Formulator is unable to expand statement '{s}'"
  | .nothingToRead => "Problem builder requires either a file name or a script literal"
  | .badDigits => "digits that are no number"
  | .missingKey => "a decision variable has no value"
  | .wrongKind => "a value of the wrong kind"
  | .endless => "a definition that never ends"
  | .outOfRange => "a whole number beyond the range of scalars"
  | .notAMap => "a map is required"
  | .noOperand => "a connective without an operand"
  | .wrongLength => "a vector of the wrong length"

end Cause

/-- A cause, with the statement and the iterator bindings under which it arose. -/
structure Failure (K : Type) where
  cause : Cause K
  statement : Option String := none
  bindings : Option (List (String × Value K)) := none

namespace Failure

variable {K : Type} [Scalar K]

/-- Note the statement under which an error of the model arose. The innermost statement stays. -/
def inStatement (s : String) (f : Failure K) : Failure K :=
  if f.cause.kind.isOfModel && f.statement.isNone then { f with statement := some s } else f

/-- Note the bindings under which an error of the model arose. The innermost bindings stay. -/
def withBindings (bs : List (String × Value K)) (f : Failure K) : Failure K :=
  if f.cause.kind.isOfModel && f.bindings.isNone then { f with bindings := some bs } else f

/-- The wording of a failure with its context. -/
def message (f : Failure K) : String :=
  let statement := match f.statement with
    | none => ""
    | some s => " in statement '" ++ s ++ "'"
  let bindings := match f.bindings with
    | none | some [] => ""
    | some bs =>
      " with bindings (" ++ String.intercalate ", " (bs.map fun b => b.1 ++ "=" ++ b.2.text) ++ ")"
  f.cause.message ++ statement ++ bindings

end Failure

end LinearModel
