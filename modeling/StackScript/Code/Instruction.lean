import StackScript.Code.Opcode
import StackScript.Text.Pad

/-! # Instructions

Encoding, decoding and listing of instructions. An operand is a 16-bit number, high byte first.
-/

namespace StackScript

/-- The bytes of a function body or of the top level of a program. -/
abbrev Code := Array UInt8

structure Instruction where
  op : Opcode
  operands : List Nat
deriving DecidableEq, Repr

inductive EncodeError
  | operandCount (op : Opcode) (expected got : Nat)
  | operandOverflow (op : Opcode) (value : Nat)
deriving DecidableEq, Repr

def EncodeError.message : EncodeError → String
  | operandCount op expected got => s!"{op.mnemonic} takes {expected} operand(s), got {got}"
  | operandOverflow op value => s!"operand {value} of {op.mnemonic} does not fit in 16 bits"

inductive DecodeError
  | unknownOpcode (byte : UInt8) (offset : Nat)
  | truncated (offset : Nat)
deriving DecidableEq, Repr

def DecodeError.message : DecodeError → String
  | unknownOpcode byte offset => s!"unknown opcode 0x{hexByte byte} at offset {offset}"
  | truncated offset => s!"instruction at offset {offset} is truncated"

namespace Instruction

def operandBytes (n : Nat) : List UInt8 := [UInt8.ofNat (n / 256), UInt8.ofNat (n % 256)]

def encodeOperands (op : Opcode) : List Nat → Except EncodeError (List UInt8)
  | [] => .ok []
  | n :: ns =>
    if n < 65536 then (encodeOperands op ns).map (operandBytes n ++ ·)
    else .error (.operandOverflow op n)

/-- The bytes of an instruction, if it has the operands that its opcode wants. -/
def encode (i : Instruction) : Except EncodeError (List UInt8) :=
  if i.operands.length = i.op.operandCount then
    (encodeOperands i.op i.operands).map (i.op.byte :: ·)
  else .error (.operandCount i.op i.op.operandCount i.operands.length)

end Instruction

namespace Code

def operand? (code : Code) (offset : Nat) : Option Nat :=
  match code[offset]?, code[offset + 1]? with
  | some high, some low => some (high.toNat * 256 + low.toNat)
  | _, _ => none

def operands? (code : Code) (offset : Nat) : Nat → Option (List Nat)
  | 0 => some []
  | n + 1 =>
    match code.operand? offset with
    | some value => (operands? code (offset + 2) n).map (value :: ·)
    | none => none

/-- The instruction at `offset`, and the offset behind it. -/
def decode (code : Code) (offset : Nat) : Except DecodeError (Instruction × Nat) :=
  match code[offset]? with
  | none => .error (.truncated offset)
  | some byte =>
    match Opcode.ofByte? byte with
    | none => .error (.unknownOpcode byte offset)
    | some op =>
      match code.operands? (offset + 1) op.operandCount with
      | none => .error (.truncated offset)
      | some operands => .ok (⟨op, operands⟩, offset + op.length)

/-- The instructions from `offset` on with their offsets, up to the first that cannot be decoded.
Every instruction takes at least one byte, so `fuel` need only be as large as the code. -/
def decodeFrom (code : Code) : (fuel offset : Nat) → List (Except DecodeError (Nat × Instruction))
  | 0, _ => []
  | fuel + 1, offset =>
    if offset < code.size then
      match code.decode offset with
      | .ok (i, next) => .ok (offset, i) :: decodeFrom code fuel next
      | .error e => [.error e]
    else []

def instructions (code : Code) : List (Except DecodeError (Nat × Instruction)) :=
  code.decodeFrom code.size 0

/-- The line of an instruction: its offset, its mnemonic and its operands. -/
def listingLine : Except DecodeError (Nat × Instruction) → String
  | .ok (offset, i) =>
    padLeft 4 '0' (toString offset) ++ ":  " ++ padRight 16 ' ' i.op.mnemonic ++
      String.join (i.operands.map fun n => padLeft 8 ' ' (toString n)) ++ "\n"
  | .error e => s!"ERROR: {e.message}\n"

def listing (code : Code) : String := String.join (code.instructions.map listingLine)

end Code

end StackScript
