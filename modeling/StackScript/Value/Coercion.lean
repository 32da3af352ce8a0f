import StackScript.Value.Display

/-! # Coercion

Operands of two kinds are brought to one. The scalar kinds are ranked bool, int, decimal, string,
and the lower one is promoted to the higher. Other kinds go only with their own.
-/

namespace StackScript

/-- The rank of a kind that can be promoted. -/
def Kind.rank? : Kind → Option Nat
  | bool => some 0
  | int => some 1
  | decimal => some 2
  | str => some 3
  | _ => none

namespace Value

/-- Promote a value to a higher kind. -/
def promote? (target : Kind) (v : Value) : Option Value :=
  match v, target with
  | bool b, .int => some (int (if b then 1 else 0))
  | bool b, .decimal => some (decimal (if b then 1.0 else 0.0))
  | int n, .decimal => some (decimal n.toFloat)
  | v, .str => some (str v.display)
  | _, _ => none

/-- Bring two operands to one kind. -/
def coerce? (left right : Value) : Option (Value × Value) :=
  if left.kind = right.kind then some (left, right)
  else
    match left.kind.rank?, right.kind.rank? with
    | some l, some r =>
      if l < r then (left.promote? right.kind).map (·, right)
      else (right.promote? left.kind).map (left, ·)
    | _, _ => none

end Value

end StackScript
