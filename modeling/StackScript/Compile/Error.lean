import StackScript.Code.Instruction
import StackScript.Scope.Symbol
import StackScript.Diagnostic.Basic

/-! # Compile errors -/

namespace StackScript

/-- What an assignment cannot write to. -/
inductive InvalidTarget
  /-- An index into something other than a name. -/
  | nestedIndex
  | expression
  /-- A name whose value is not in a variable. -/
  | named (storage : Storage) (name : String)
deriving DecidableEq, Repr

def InvalidTarget.text : InvalidTarget → String
  | nestedIndex => "a nested index"
  | expression => "this expression"
  | named .captured name => s!"captured variable `{name}`"
  | named .builtin name => s!"builtin `{name}`"
  | named _ name => s!"function `{name}`"

namespace CompileError

inductive Cause
  | unknownOperator (op : BinaryOp)
  | symbol (error : SymbolError)
  | invalidAssignment (target : InvalidTarget)
  | breakOutsideLoop
  | continueOutsideLoop
  | tooManyConstants
  | jumpOutOfRange (target : Nat)
  | operandTooLarge (op : Opcode) (value : Nat)
  | internal (message : String)
deriving DecidableEq, Repr

end CompileError

/-- What went wrong, and the span of the node that was being compiled. -/
structure CompileError where
  cause : CompileError.Cause
  span : Span
deriving DecidableEq, Repr

namespace CompileError

def Cause.ofEncodeError : EncodeError → Cause
  | .operandOverflow op value => operandTooLarge op value
  | e => internal e.message

def Cause.code : Cause → ErrorCode
  | unknownOperator _ => .noInstruction
  | symbol (.unresolved _) => .undefinedName
  | symbol (.indexOverflow _ _ _) => .tooManySymbols
  | invalidAssignment _ => .invalidAssignment
  | breakOutsideLoop => .breakOutsideLoop
  | continueOutsideLoop => .continueOutsideLoop
  | tooManyConstants => .tooManyConstants
  | jumpOutOfRange _ => .jumpOutOfRange
  | operandTooLarge _ _ => .operandTooLarge
  | internal _ => .internal

def Cause.message : Cause → String
  | unknownOperator op => s!"unknown operator: {op.symbol}"
  | symbol e => e.message
  | invalidAssignment target => s!"cannot assign to {target.text}"
  | breakOutsideLoop => "`break` outside of a loop"
  | continueOutsideLoop => "`continue` outside of a loop"
  | tooManyConstants => "too many constants: the pool holds at most 65536"
  | jumpOutOfRange target => s!"jump target {target} is out of range"
  | operandTooLarge op value => s!"operand {value} of {op.mnemonic} does not fit in 16 bits"
  | internal message => s!"internal compiler error: {message}"

def message (e : CompileError) : String := e.cause.message

def diagnostic (e : CompileError) : Diagnostic :=
  let d : Diagnostic := ⟨e.cause.code, e.message, [], []⟩
  match e.cause with
  | .symbol (.unresolved name) => d.mark e.span s!"`{name}` is not defined"
  | .invalidAssignment _ =>
    (d.mark e.span "not assignable").note "only variables and indexed variables can be assigned"
  | .breakOutsideLoop | .continueOutsideLoop => d.mark e.span "not inside `while` or `for`"
  | _ => d.mark e.span "here"

end CompileError

end StackScript
