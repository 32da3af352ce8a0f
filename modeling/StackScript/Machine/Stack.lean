import StackScript.Machine.Fault

/-! # The operand stack

A fixed number of slots, of which the first `sp` are in use. A value that is popped stays in its
slot until the slot is written again.
-/

namespace StackScript

structure Stack where
  slots : Array Value
  sp : Nat
  sp_le : sp ≤ slots.size

abbrev Stacking := ExceptT Fault (StateM Stack)

namespace Stack

def ofCapacity (n : Nat) : Stack := ⟨Array.replicate n .null, 0, Nat.zero_le _⟩

def capacity (s : Stack) : Nat := s.slots.size

/-- The values in use, the bottom first. -/
def live (s : Stack) : List Value := (s.slots.extract 0 s.sp).toList

def top? (s : Stack) : Option Value := if s.sp = 0 then none else s.slots[s.sp - 1]?

/-- The value of the slot above the top: the last one popped. -/
def lastPopped (s : Stack) : Value := s.slots[s.sp]?.getD .null

/-- Move the top down to `sp`, unless it is below. -/
def truncate (s : Stack) (sp : Nat) : Stack :=
  ⟨s.slots, min s.sp sp, Nat.le_trans (Nat.min_le_left ..) s.sp_le⟩

/-- Clear `n` slots from `start` on. -/
def cleared (slots : Array Value) (start : Nat) : Nat → Array Value
  | 0 => slots
  | n + 1 => cleared (slots.setIfInBounds start .null) (start + 1) n

theorem size_cleared (slots : Array Value) (start n : Nat) :
    (cleared slots start n).size = slots.size := by
  induction n generalizing slots start with
  | zero => rfl
  | succ n ih => simp [cleared, ih]

end Stack

namespace Stacking

def push (v : Value) : Stacking Unit := fun s =>
  match s with
  | ⟨slots, sp, le⟩ =>
    if h : sp < slots.size then (.ok (), ⟨slots.set sp v h, sp + 1, by simp; omega⟩)
    else (.error (.stackOverflow slots.size), ⟨slots, sp, le⟩)

def pop : Stacking Value := fun s =>
  match s with
  | ⟨slots, 0, le⟩ => (.error .stackUnderflow, ⟨slots, 0, le⟩)
  | ⟨slots, sp + 1, le⟩ => (.ok slots[sp], ⟨slots, sp, Nat.le_of_succ_le le⟩)

def peek (distance : Nat) : Stacking Value := fun s =>
  if h : distance < s.sp then
    have : s.sp - (distance + 1) < s.slots.size := by have := s.sp_le; omega
    (.ok s.slots[s.sp - (distance + 1)], s)
  else (.error .stackUnderflow, s)

/-- The top `n` values, the bottom first. -/
def window (n : Nat) : Stacking (List Value) := fun s =>
  if n ≤ s.sp then (.ok (s.slots.extract (s.sp - n) s.sp).toList, s) else (.error .stackUnderflow, s)

def discard (n : Nat) : Stacking Unit := fun s =>
  match s with
  | ⟨slots, sp, le⟩ =>
    if n ≤ sp then (.ok (), ⟨slots, sp - n, Nat.le_trans (Nat.sub_le ..) le⟩)
    else (.error .stackUnderflow, ⟨slots, sp, le⟩)

def read (index : Nat) : Stacking Value := fun s =>
  if h : index < s.sp then
    have := Nat.lt_of_lt_of_le h s.sp_le
    (.ok s.slots[index], s)
  else (.error .stackUnderflow, s)

def write (index : Nat) (v : Value) : Stacking Unit := fun s =>
  match s with
  | ⟨slots, sp, le⟩ =>
    if h : index < sp then
      (.ok (), ⟨slots.set index v (Nat.lt_of_lt_of_le h le), sp, by simpa using le⟩)
    else (.error .stackUnderflow, ⟨slots, sp, le⟩)

/-- Move the top to `sp` and clear the slots from `clearFrom` up to it. -/
def reserve (clearFrom sp : Nat) : Stacking Unit := fun s =>
  match s with
  | ⟨slots, old, le⟩ =>
    if h : sp ≤ slots.size then
      (.ok (), ⟨Stack.cleared slots clearFrom (sp - clearFrom), sp, by rwa [Stack.size_cleared]⟩)
    else (.error (.stackOverflow slots.size), ⟨slots, old, le⟩)

def truncate (sp : Nat) : Stacking Unit := modify (·.truncate sp)

end Stacking

end StackScript
