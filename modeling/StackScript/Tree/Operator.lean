/-! # Operators of the source language -/

namespace StackScript

inductive BinaryOp
  | add | sub | mul | div | mod | pow
  | equal | notEqual | less | lessEqual | greater | greaterEqual
  | and | or
  | bitAnd | bitOr | bitXor | shiftLeft | shiftRight
deriving DecidableEq, Repr

namespace BinaryOp

def all : List BinaryOp :=
  [add, sub, mul, div, mod, pow, equal, notEqual, less, lessEqual, greater, greaterEqual, and, or,
    bitAnd, bitOr, bitXor, shiftLeft, shiftRight]

def symbol : BinaryOp → String
  | add => "+"
  | sub => "-"
  | mul => "*"
  | div => "/"
  | mod => "%"
  | pow => "**"
  | equal => "=="
  | notEqual => "!="
  | less => "<"
  | lessEqual => "<="
  | greater => ">"
  | greaterEqual => ">="
  | and => "&&"
  | or => "||"
  | bitAnd => "&"
  | bitOr => "|"
  | bitXor => "^"
  | shiftLeft => "<<"
  | shiftRight => ">>"

def name : BinaryOp → String
  | add => "Add"
  | sub => "Sub"
  | mul => "Mul"
  | div => "Div"
  | mod => "Mod"
  | pow => "Pow"
  | equal => "Eq"
  | notEqual => "NotEq"
  | less => "Lt"
  | lessEqual => "LtEq"
  | greater => "Gt"
  | greaterEqual => "GtEq"
  | and => "And"
  | or => "Or"
  | bitAnd => "BitAnd"
  | bitOr => "BitOr"
  | bitXor => "BitXor"
  | shiftLeft => "Shl"
  | shiftRight => "Shr"

/-- How tightly an operator binds its operands. -/
def power : BinaryOp → Nat
  | or => 2
  | and => 3
  | bitOr => 4
  | bitXor => 5
  | bitAnd => 6
  | equal | notEqual => 7
  | less | lessEqual | greater | greaterEqual => 8
  | shiftLeft | shiftRight => 9
  | add | sub => 10
  | mul | div | mod => 11
  | pow => 12

/-- Only `**` groups from the right. -/
def rightAssoc : BinaryOp → Bool
  | pow => true
  | _ => false

end BinaryOp

inductive UnaryOp
  | neg | not | bitNot
deriving DecidableEq, Repr

namespace UnaryOp

def all : List UnaryOp := [neg, not, bitNot]

def symbol : UnaryOp → String
  | neg => "-"
  | not => "!"
  | bitNot => "~"

def name : UnaryOp → String
  | neg => "Neg"
  | not => "Not"
  | bitNot => "BitNot"

end UnaryOp

end StackScript
