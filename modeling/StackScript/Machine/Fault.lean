import StackScript.Scope.Storage
import StackScript.Value.Builtin
import StackScript.Diagnostic.Basic

/-! # Faults

What can go wrong while a program runs.
-/

namespace StackScript

inductive Fault
  | unsupportedOperands (op : Operator) (left right : Kind)
  | unsupportedOperand (op : UnaryOp) (operand : Kind)
  | wrongArity (got wanted : Nat)
  | unsupportedIndex (target index : Kind)
  | indexOutOfBounds (index : Int64) (length : Nat)
  | stackOverflow (capacity : Nat)
  | frameOverflow (capacity : Nat)
  | stackUnderflow
  | unknownOpcode (byte : UInt8) (offset : Nat)
  | truncatedInstruction (offset : Nat)
  | notCallable (kind : Kind)
  | divisionByZero
  | integerOverflow (op : String)
  | unhashableKey (kind : Kind)
  | builtin (refusal : Builtin.Refusal)
  | budgetExhausted (budget : Nat)
  | globalOutOfRange (index capacity : Nat)
  | missingConstant (index : Nat)
  | notAFunction (index : Nat)
  | unknownBuiltin (index : Nat)
  | missingFreeVariable (index : Nat)
  /-- A store into a slot that holds no variable. -/
  | invalidStoreTarget (storage : Storage)
deriving DecidableEq, Repr

namespace Fault

def message : Fault → String
  | unsupportedOperands op left right =>
    s!"unsupported operand types for {op.symbol}: {left.name} and {right.name}"
  | unsupportedOperand op operand => s!"unsupported operand type for {op.symbol}: {operand.name}"
  | wrongArity got wanted => s!"wrong number of arguments. got={got}, wanted={wanted}"
  | unsupportedIndex target index => s!"index operator not supported: {target.name}[{index.name}]"
  | indexOutOfBounds index length => s!"index {index.toInt} out of bounds for length {length}"
  | stackOverflow capacity => s!"stack overflow: more than {capacity} values"
  | frameOverflow capacity => s!"frame overflow: more than {capacity} nested calls"
  | stackUnderflow => "stack underflow"
  | unknownOpcode byte offset => s!"unknown opcode 0x{hexByte byte} at offset {offset}"
  | truncatedInstruction offset => s!"truncated instruction at offset {offset}"
  | notCallable kind => s!"calling non-function: {kind.name}"
  | divisionByZero => "division by zero"
  | integerOverflow op => s!"integer overflow in {op}"
  | unhashableKey kind => s!"unusable as hash key: {kind.name}"
  | builtin refusal => refusal.message
  | budgetExhausted budget => s!"instruction budget of {budget} exhausted"
  | globalOutOfRange index capacity => s!"global slot {index} exceeds capacity {capacity}"
  | missingConstant index => s!"constant {index} does not exist"
  | notAFunction index => s!"constant {index} is not a function"
  | unknownBuiltin index => s!"no builtin with index {index}"
  | missingFreeVariable index => s!"free variable {index} is not captured by the running closure"
  | invalidStoreTarget storage =>
    match storage with
    | .builtin => "cannot assign through a builtin"
    | .captured => "cannot assign through a captured variable"
    | _ => "cannot assign through a function"

def code : Fault → ErrorCode
  | unsupportedOperands _ _ _ | unsupportedOperand _ _ => .operandKinds
  | wrongArity _ _ => .argumentCount
  | unsupportedIndex _ _ | indexOutOfBounds _ _ => .badIndex
  | stackOverflow _ => .stackOverflow
  | frameOverflow _ => .frameOverflow
  | stackUnderflow => .stackUnderflow
  | unknownOpcode _ _ | truncatedInstruction _ => .unknownOpcode
  | notCallable _ => .notCallable
  | divisionByZero => .divisionByZero
  | integerOverflow _ => .integerOverflow
  | unhashableKey _ => .unhashableKey
  | builtin _ => .builtinFailure
  | budgetExhausted _ => .budgetExhausted
  | globalOutOfRange _ _ | missingConstant _ | notAFunction _ | unknownBuiltin _
  | missingFreeVariable _ | invalidStoreTarget _ => .otherFault

end Fault

/-- A fault and the source of the instruction that raised it, if that is known. -/
structure RuntimeError where
  fault : Fault
  span : Option Span
deriving DecidableEq, Repr

namespace RuntimeError

def message (e : RuntimeError) : String := e.fault.message

def diagnostic (e : RuntimeError) : Diagnostic :=
  let d : Diagnostic := ⟨e.fault.code, e.message, [], []⟩
  match e.span with
  | none => d
  | some span =>
    match e.fault with
    | .frameOverflow _ => (d.mark span "call made here").note "the recursion may not terminate"
    | .budgetExhausted _ => d.mark span "stopped here"
    | _ => d.mark span "raised here"

end RuntimeError

end StackScript
