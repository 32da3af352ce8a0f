import StackScript.Value.Basic

/-! # Copies

A copy shares no array and no hash with the value it was made from. Other values never change, so
they are shared.
-/

namespace StackScript.Value

mutual

/-- A copy with stamps from `next` on, and the next stamp that is free. -/
def copy (next : Nat) : Value → Value × Nat
  | array _ items =>
    let (items, after) := copyItems (next + 1) items
    (array next items, after)
  | hash _ entries =>
    let (entries, after) := copyEntries (next + 1) entries
    (hash next entries, after)
  | v => (v, next)

def copyItems (next : Nat) : List Value → List Value × Nat
  | [] => ([], next)
  | v :: vs =>
    let (v, after) := copy next v
    let (vs, after) := copyItems after vs
    (v :: vs, after)

def copyEntries (next : Nat) : List (Key × Value) → List (Key × Value) × Nat
  | [] => ([], next)
  | (k, v) :: es =>
    let (v, after) := copy next v
    let (es, after) := copyEntries after es
    ((k, v) :: es, after)

end

end StackScript.Value
