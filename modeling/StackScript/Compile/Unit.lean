import StackScript.Code.SpanMap
import StackScript.Compile.Error

/-! # Code units

The code of one function body, or of the top level, while it is being written. Jumps forward are
written with a placeholder and patched when their target is known.
-/

namespace StackScript

structure Emitted where
  op : Opcode
  position : Nat
deriving DecidableEq, Repr

/-- The jumps out of a loop that wait for their targets, the last one first. -/
structure LoopJumps where
  breaks : List Nat := []
  continues : List Nat := []
  /-- How many operands were pending when the loop began. -/
  held : Nat := 0
deriving DecidableEq, Repr

structure CodeUnit where
  code : Code := #[]
  spans : SpanMap := {}
  last : Option Emitted := none
  previous : Option Emitted := none
  /-- Open loops, the innermost first. -/
  loops : List LoopJumps := []
  /-- How many operands the expressions around the current one have pushed. -/
  held : Nat := 0

abbrev Emit := ExceptT CompileError.Cause (StateM CodeUnit)

namespace CodeUnit

/-- The operand of a jump whose target is not known yet. -/
def placeholder : Nat := 65535

def append (u : CodeUnit) (op : Opcode) (bytes : List UInt8) (span : Span) : CodeUnit :=
  let position := u.code.size
  { u with
    code := bytes.foldl Array.push u.code
    spans := u.spans.push position span
    previous := u.last
    last := some ⟨op, position⟩ }

def emit (op : Opcode) (operands : List Nat) (span : Span) : Emit Nat := do
  match Instruction.encode ⟨op, operands⟩ with
  | .error e => throw (.ofEncodeError e)
  | .ok bytes =>
    let position := (← get).code.size
    modify (·.append op bytes span)
    return position

def lastIs (u : CodeUnit) (op : Opcode) : Bool :=
  match u.last with
  | some last => last.op = op
  | none => false

def removeLast (u : CodeUnit) : CodeUnit :=
  match u.last with
  | some last =>
    { u with
      code := u.code.shrink last.position
      spans := u.spans.truncate last.position
      last := u.previous
      previous := none }
  | none => u

/-- Turn a last instruction that drops a value into one that returns it. -/
def returnLast (u : CodeUnit) : CodeUnit :=
  match u.last with
  | some ⟨.pop, position⟩ =>
    { u with
      code := u.code.setIfInBounds position Opcode.retValue.byte
      last := some ⟨.retValue, position⟩ }
  | _ => u

def setOperand (code : Code) (offset value : Nat) : Code :=
  (code.setIfInBounds offset (UInt8.ofNat (value / 256))).setIfInBounds (offset + 1)
    (UInt8.ofNat (value % 256))

/-- Point the jump at `position` to `target`. -/
def patchJump (position target : Nat) : Emit Unit := do
  if target < 65536 then
    if position + 3 ≤ (← get).code.size then
      modify fun u => { u with code := setOperand u.code (position + 1) target }
    else throw (.internal s!"no jump operand at offset {position}")
  else throw (.jumpOutOfRange target)

def enterLoop (u : CodeUnit) : CodeUnit := { u with loops := ⟨[], [], u.held⟩ :: u.loops }

/-- Close the innermost loop and return its jumps. -/
def leaveLoop (u : CodeUnit) : LoopJumps × CodeUnit :=
  match u.loops with
  | l :: ls => (l, { u with loops := ls })
  | [] => ({}, u)

def hold (u : CodeUnit) (n : Nat) : CodeUnit := { u with held := u.held + n }

def release (u : CodeUnit) (n : Nat) : CodeUnit := { u with held := u.held - n }

/-- How many operands a jump out of the innermost loop has to drop first; `none` outside a loop. -/
def exitPops? (u : CodeUnit) : Option Nat := u.loops.head?.map fun l => u.held - l.held

def addBreak (u : CodeUnit) (position : Nat) : CodeUnit :=
  match u.loops with
  | l :: ls => { u with loops := { l with breaks := position :: l.breaks } :: ls }
  | [] => u

def addContinue (u : CodeUnit) (position : Nat) : CodeUnit :=
  match u.loops with
  | l :: ls => { u with loops := { l with continues := position :: l.continues } :: ls }
  | [] => u

end CodeUnit

end StackScript
