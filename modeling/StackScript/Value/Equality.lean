import StackScript.Value.Basic

/-! # Equality of values

Two values are equal when they are the same one or have equal parts. The difference shows only with
NaN, which is not equal to itself.
-/

namespace StackScript

def Key.equals : Key → Key → Bool
  | null, null => true
  | bool a, bool b => a == b
  | int a, int b => a == b
  | decimal a, decimal b => a == b
  | str a, str b => a == b
  | _, _ => false

namespace Value

mutual

def equals : Value → Value → Bool
  | null, null => true
  | bool a, bool b => a == b
  | int a, int b => a == b
  | decimal a, decimal b => a == b
  | str a, str b => a == b
  | array s a, array t b => s == t || itemsEqual a b
  | hash s a, hash t b => s == t || entriesEqual a b
  | error a s, error b t => a == b && s == t
  | function f, function g => f == g
  | closure s f a, closure t g b => s == t || (f == g && itemsEqual a b)
  | builtin a, builtin b => a == b
  | _, _ => false

def itemsEqual : List Value → List Value → Bool
  | [], [] => true
  | a :: as, b :: bs => equals a b && itemsEqual as bs
  | _, _ => false

/-- Equal entries have keys of one order and equal keys and values. -/
def entriesEqual : List (Key × Value) → List (Key × Value) → Bool
  | [], [] => true
  | (j, a) :: as, (k, b) :: bs => j.order k == .eq && j.equals k && equals a b && entriesEqual as bs
  | _, _ => false

end

end Value

end StackScript
