import StackScript.Text.Blank

/-! # Error codes

Every failure has a code such as `E3002`; its first digit names the phase that found it.
-/

namespace StackScript

inductive Phase
  | lexer | parser | compiler | linker | machine | internal
deriving DecidableEq, Repr

inductive ErrorCode
  | invalidToken | unterminatedString | integerTooLarge
  | unexpectedToken | expectedExpression | unclosedDelimiter | expectedIdentifier
  | noInstruction | undefinedName | tooManySymbols | invalidAssignment | breakOutsideLoop
  | continueOutsideLoop | tooManyConstants | jumpOutOfRange | operandTooLarge
  | nothingToLink | severalUnits
  | operandKinds | argumentCount | badIndex | stackOverflow | frameOverflow | stackUnderflow
  | unknownOpcode | notCallable | divisionByZero | integerOverflow | unhashableKey
  | builtinFailure | budgetExhausted | otherFault
  | internal
deriving DecidableEq, Repr

namespace ErrorCode

def all : List ErrorCode :=
  [invalidToken, unterminatedString, integerTooLarge,
    unexpectedToken, expectedExpression, unclosedDelimiter, expectedIdentifier,
    noInstruction, undefinedName, tooManySymbols, invalidAssignment, breakOutsideLoop,
    continueOutsideLoop, tooManyConstants, jumpOutOfRange, operandTooLarge,
    nothingToLink, severalUnits,
    operandKinds, argumentCount, badIndex, stackOverflow, frameOverflow, stackUnderflow,
    unknownOpcode, notCallable, divisionByZero, integerOverflow, unhashableKey,
    builtinFailure, budgetExhausted, otherFault,
    internal]

def text : ErrorCode → String
  | invalidToken => "E0001"
  | unterminatedString => "E0002"
  | integerTooLarge => "E0003"
  | unexpectedToken => "E1001"
  | expectedExpression => "E1002"
  | unclosedDelimiter => "E1003"
  | expectedIdentifier => "E1004"
  | noInstruction => "E3001"
  | undefinedName => "E3002"
  | tooManySymbols => "E3003"
  | invalidAssignment => "E3004"
  | breakOutsideLoop => "E3005"
  | continueOutsideLoop => "E3006"
  | tooManyConstants => "E3007"
  | jumpOutOfRange => "E3008"
  | operandTooLarge => "E3009"
  | nothingToLink => "E5001"
  | severalUnits => "E5002"
  | operandKinds => "E6001"
  | argumentCount => "E6002"
  | badIndex => "E6003"
  | stackOverflow => "E6004"
  | frameOverflow => "E6005"
  | stackUnderflow => "E6006"
  | unknownOpcode => "E6007"
  | notCallable => "E6008"
  | divisionByZero => "E6009"
  | integerOverflow => "E6010"
  | unhashableKey => "E6011"
  | builtinFailure => "E6012"
  | budgetExhausted => "E6013"
  | otherFault => "E6099"
  | internal => "E9001"

def description : ErrorCode → String
  | invalidToken => "invalid character or malformed token"
  | unterminatedString => "unterminated string literal"
  | integerTooLarge => "integer literal does not fit in 64 bits"
  | unexpectedToken => "unexpected token"
  | expectedExpression => "expected an expression"
  | unclosedDelimiter => "unclosed delimiter"
  | expectedIdentifier => "expected an identifier"
  | noInstruction => "the operator has no bytecode instruction"
  | undefinedName => "the name is not defined in any enclosing scope or as a builtin"
  | tooManySymbols => "more than 16384 symbols of one storage class in one scope"
  | invalidAssignment => "only variables and indexed variables can be assigned"
  | breakOutsideLoop => "`break` used outside of a loop"
  | continueOutsideLoop => "`continue` used outside of a loop"
  | tooManyConstants => "more than 65536 constants in one program"
  | jumpOutOfRange => "a function body is too large for 16-bit jump targets"
  | operandTooLarge => "an instruction operand does not fit in 16 bits"
  | nothingToLink => "the linker was given no compiled units"
  | severalUnits => "linking more than one compiled unit is not supported"
  | operandKinds => "operand kinds cannot be unified for this operation"
  | argumentCount => "a function was called with the wrong number of arguments"
  | badIndex => "array index missing, not an integer, or out of bounds"
  | stackOverflow => "the operand stack capacity was exceeded"
  | frameOverflow => "the call frame capacity was exceeded (recursion too deep)"
  | stackUnderflow => "an instruction popped from an empty operand stack"
  | unknownOpcode => "the instruction stream contains an unknown opcode"
  | notCallable => "the called value is not a function"
  | divisionByZero => "division or modulo by zero"
  | integerOverflow => "integer arithmetic overflowed"
  | unhashableKey => "the value cannot be used as a hash key"
  | builtinFailure => "a builtin function reported an error"
  | budgetExhausted => "the configured instruction budget was exhausted"
  | otherFault => "runtime error"
  | internal => "internal toolchain error"

def phase : ErrorCode → Phase
  | invalidToken | unterminatedString | integerTooLarge => .lexer
  | unexpectedToken | expectedExpression | unclosedDelimiter | expectedIdentifier => .parser
  | noInstruction | undefinedName | tooManySymbols | invalidAssignment | breakOutsideLoop
  | continueOutsideLoop | tooManyConstants | jumpOutOfRange | operandTooLarge => .compiler
  | nothingToLink | severalUnits => .linker
  | operandKinds | argumentCount | badIndex | stackOverflow | frameOverflow | stackUnderflow
  | unknownOpcode | notCallable | divisionByZero | integerOverflow | unhashableKey
  | builtinFailure | budgetExhausted | otherFault => .machine
  | internal => .internal

/-- Find a code by its text; blanks around it and the case of the letter do not matter. -/
def ofText? (s : String) : Option ErrorCode :=
  let wanted := String.ofList ((trimBlanks s.toList).map Char.toUpper)
  all.find? (·.text == wanted)

/-- What is said of a text that is no code. -/
def unknownMessage (s : String) : String := s!"unknown error code: {s}"

end ErrorCode

end StackScript
