import StackScript.Machine.Fault
import StackScript.Value.Hash

/-! # Indexing arrays and hashes -/

namespace StackScript.Value

/-- The position that an integer means in a list of `length` items. -/
def position (length : Nat) (index : Int64) : Except Fault Nat :=
  if 0 ≤ index.toInt ∧ index.toInt < length then .ok index.toInt.toNat
  else .error (.indexOutOfBounds index length)

/-- Read an element. An array has one at each position below its length; a hash gives null for a
key it does not have. -/
def index (target i : Value) : Except Fault Value :=
  match target, i with
  | array _ items, int n => do return items[← position items.length n]?.getD .null
  | hash _ entries, i =>
    match i.key? with
    | some key => .ok ((Entries.get? key entries).getD .null)
    | none => .error (.unhashableKey i.kind)
  | _, _ => .error (.unsupportedIndex target.kind i.kind)

/-- The hash of the pairs that a hash stores and one more. -/
def rebuilt (stamp : Nat) (entries : List (Key × Value)) (i v : Value) : Except Fault Value :=
  match Entries.ofPairs [] (entries.map Entries.pair ++ [(i, v)]) with
  | .ok after => .ok (hash stamp after)
  | .error kind => .error (.unhashableKey kind)

/-- A copy of the array or hash, with the stamp `stamp`, in which one element is written. -/
def assignIndex (stamp : Nat) (target i v : Value) : Except Fault Value :=
  match target, i with
  | array _ items, int n => do return array stamp (items.set (← position items.length n) v)
  | hash _ entries, i =>
    match i.key? with
    | some _ => rebuilt stamp entries i v
    | none => .error (.unhashableKey i.kind)
  | _, _ => .error (.unsupportedIndex target.kind i.kind)

/-- Neighbouring values as pairs; a last one without a partner is dropped. -/
def pairUp : List Value → List (Value × Value)
  | k :: v :: rest => (k, v) :: pairUp rest
  | _ => []

end StackScript.Value
