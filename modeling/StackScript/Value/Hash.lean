import StackScript.Value.Basic

/-! # Hashes

The entries of a hash are a list in the order of the keys, one entry for each kind and text.
-/

namespace StackScript.Entries

/-- Put a value under a key, in place of the one that was there. -/
def insert (key : Key) (value : Value) : List (Key × Value) → List (Key × Value)
  | [] => [(key, value)]
  | (k, v) :: es =>
    match key.order k with
    | .lt => (key, value) :: (k, v) :: es
    | .eq => (key, value) :: es
    | .gt => (k, v) :: insert key value es

def get? (key : Key) : List (Key × Value) → Option Value
  | [] => none
  | (k, v) :: es => if key.order k = .eq then some v else get? key es

/-- The entries of a list of keys and values; of equal keys the last one wins. Fails with the kind
of the first key that cannot be one. -/
def ofPairs (found : List (Key × Value)) : List (Value × Value) → Except Kind (List (Key × Value))
  | [] => .ok found
  | (k, v) :: ps =>
    match k.key? with
    | some key => ofPairs (insert key v found) ps
    | none => .error k.kind

/-- The key and the value that an entry was made from. -/
def pair (e : Key × Value) : Value × Value := (e.1.toValue, e.2)

end StackScript.Entries
