import StackScript.Tree.Operator

/-! # Opcodes

One byte tells what an instruction does. Every operand takes two bytes.
-/

namespace StackScript

inductive Operator
  | add | sub | mul | div | mod | bitAnd | bitOr | bitXor | shiftLeft | shiftRight
  | equal | notEqual | greater | greaterEqual | less | lessEqual | and | or
deriving DecidableEq, Repr

inductive Opcode
  /-- Push a constant. -/
  | constant
  | true | false | null
  | pop
  | binary (op : Operator)
  | unary (op : UnaryOp)
  | jump | jumpIfFalse
  /-- Pop elements into an array. -/
  | array
  /-- Pop keys and values into a hash. -/
  | hash
  | index
  /-- Read or write a slot. -/
  | get | set
  /-- Write an element of the array or hash in a slot. -/
  | setElement
  | call
  | ret | retValue
  /-- Pop captured values into a closure of a function constant. -/
  | closure
  | currentClosure
deriving DecidableEq, Repr

/-- The instruction of a source operator, if it has one. -/
def BinaryOp.operator? : BinaryOp → Option Operator
  | .add => some .add
  | .sub => some .sub
  | .mul => some .mul
  | .div => some .div
  | .mod => some .mod
  | .pow => none
  | .equal => some .equal
  | .notEqual => some .notEqual
  | .less => some .less
  | .lessEqual => some .lessEqual
  | .greater => some .greater
  | .greaterEqual => some .greaterEqual
  | .and => some .and
  | .or => some .or
  | .bitAnd => some .bitAnd
  | .bitOr => some .bitOr
  | .bitXor => some .bitXor
  | .shiftLeft => some .shiftLeft
  | .shiftRight => some .shiftRight

namespace Operator

def symbol : Operator → String
  | add => "+"
  | sub => "-"
  | mul => "*"
  | div => "/"
  | mod => "%"
  | bitAnd => "&"
  | bitOr => "|"
  | bitXor => "^"
  | shiftLeft => "<<"
  | shiftRight => ">>"
  | equal => "=="
  | notEqual => "!="
  | greater => ">"
  | greaterEqual => ">="
  | less => "<"
  | lessEqual => "<="
  | and => "&&"
  | or => "||"

def mnemonic : Operator → String
  | add => "ADD"
  | sub => "SUB"
  | mul => "MUL"
  | div => "DIV"
  | mod => "MOD"
  | bitAnd => "BIT_AND"
  | bitOr => "BIT_OR"
  | bitXor => "BIT_XOR"
  | shiftLeft => "SHL"
  | shiftRight => "SHR"
  | equal => "EQUAL"
  | notEqual => "NOT_EQUAL"
  | greater => "GT"
  | greaterEqual => "GTE"
  | less => "LT"
  | lessEqual => "LTE"
  | and => "AND"
  | or => "OR"

def byte : Operator → UInt8
  | add => 5
  | sub => 6
  | mul => 7
  | div => 8
  | mod => 9
  | bitAnd => 10
  | bitOr => 11
  | bitXor => 12
  | shiftLeft => 13
  | shiftRight => 14
  | equal => 15
  | notEqual => 16
  | greater => 17
  | greaterEqual => 18
  | less => 19
  | lessEqual => 20
  | and => 21
  | or => 22

end Operator

namespace Opcode

/-- All opcodes in the order of their bytes. -/
def all : Array Opcode :=
  #[constant, true, false, null, pop,
    binary .add, binary .sub, binary .mul, binary .div, binary .mod, binary .bitAnd, binary .bitOr,
    binary .bitXor, binary .shiftLeft, binary .shiftRight, binary .equal, binary .notEqual,
    binary .greater, binary .greaterEqual, binary .less, binary .lessEqual, binary .and, binary .or,
    unary .neg, unary .not, unary .bitNot,
    jump, jumpIfFalse, array, hash, index, get, set, setElement, call, ret, retValue, closure,
    currentClosure]

def byte : Opcode → UInt8
  | constant => 0
  | true => 1
  | false => 2
  | null => 3
  | pop => 4
  | binary op => op.byte
  | unary .neg => 23
  | unary .not => 24
  | unary .bitNot => 25
  | jump => 26
  | jumpIfFalse => 27
  | array => 28
  | hash => 29
  | index => 30
  | get => 31
  | set => 32
  | setElement => 33
  | call => 34
  | ret => 35
  | retValue => 36
  | closure => 37
  | currentClosure => 38

def ofByte? (b : UInt8) : Option Opcode := all[b.toNat]?

theorem ofByte?_byte (op : Opcode) : ofByte? op.byte = some op := by
  cases op with
  | binary op => cases op <;> rfl
  | unary op => cases op <;> rfl
  | _ => rfl

def mnemonic : Opcode → String
  | constant => "CONSTANT"
  | true => "TRUE"
  | false => "FALSE"
  | null => "NULL"
  | pop => "POP"
  | binary op => op.mnemonic
  | unary .neg => "NEGATE"
  | unary .not => "NOT"
  | unary .bitNot => "BNOT"
  | jump => "JUMP"
  | jumpIfFalse => "JUMP_IF_FALSE"
  | array => "ARRAY"
  | hash => "HASH"
  | index => "INDEX"
  | get => "GET"
  | set => "SET"
  | setElement => "SET_ASSIGN"
  | call => "CALL"
  | ret => "RETURN"
  | retValue => "RETURN_VALUE"
  | closure => "CLOSURE"
  | currentClosure => "CURRENT_CLOSURE"

def ofMnemonic? (s : String) : Option Opcode := all.find? (·.mnemonic == s)

def operandCount : Opcode → Nat
  | constant | jump | jumpIfFalse | array | hash | get | set | setElement | call => 1
  | closure => 2
  | _ => 0

def length (op : Opcode) : Nat := 1 + 2 * op.operandCount

end Opcode

end StackScript
