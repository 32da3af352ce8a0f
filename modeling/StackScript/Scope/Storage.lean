/-! # Storage classes

Where the value of a name lives, and how an instruction names a slot: two bits of its operand give
the class and the other fourteen the index.
-/

namespace StackScript

inductive Storage
  | globalSlot
  /-- A slot of the running call. -/
  | localSlot
  | builtin
  /-- A value that the running closure captured. -/
  | captured
  /-- The running function itself. -/
  | self
deriving DecidableEq, Repr

namespace Storage

def text : Storage → String
  | globalSlot => "global"
  | localSlot => "local"
  | builtin => "extern"
  | captured => "free"
  | self => "function"

def assignable : Storage → Bool
  | globalSlot | localSlot => true
  | _ => false

/-- How many slots of one class an operand can tell apart. -/
def slotLimit : Nat := 1 <<< 14

/-- The two bits of a class. The function itself is never an operand and has those of a global. -/
def tag : Storage → Nat
  | globalSlot | self => 0
  | builtin => 1
  | localSlot => 2
  | captured => 3

def encode (s : Storage) (index : Nat) : Nat := s.tag * slotLimit + index

/-- The class and the index of an operand. -/
def decode (operand : Nat) : Storage × Nat :=
  let storage := match operand / slotLimit with
    | 0 => globalSlot
    | 1 => builtin
    | 2 => localSlot
    | _ => captured
  (storage, operand % slotLimit)

theorem decode_encode {s : Storage} {index : Nat} (hs : s ≠ self) (hi : index < slotLimit) :
    decode (s.encode index) = (s, index) := by
  have h (t : Nat) : (t * slotLimit + index) / slotLimit = t := by
    rw [Nat.mul_comm, Nat.mul_add_div (by decide), Nat.div_eq_of_lt hi, Nat.add_zero]
  have h' (t : Nat) : (t * slotLimit + index) % slotLimit = index := by
    rw [Nat.mul_comm, Nat.mul_add_mod, Nat.mod_eq_of_lt hi]
  simp only [decode, encode, h, h']
  cases s <;> simp_all [tag]

end Storage

end StackScript
