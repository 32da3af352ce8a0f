import StackScript.Decimal.Remainder
import StackScript.Value.Coercion
import StackScript.Value.Equality
import StackScript.Machine.Fault

/-! # Operators on values

Operands are brought to one kind first. Integer arithmetic is exact or a fault, decimals follow
IEEE 754, and the logical operators always give a bool.
-/

namespace StackScript

/-- The 64-bit integer with the value `n`, if there is one. -/
def int64? (n : Int) : Option Int64 :=
  if Int64.minValue.toInt ≤ n ∧ n ≤ Int64.maxValue.toInt then some (Int64.ofInt n) else none

namespace Operator

def accepts : Operator → Ordering → Bool
  | greater, o => o == .gt
  | greaterEqual, o => o != .lt
  | less, o => o == .lt
  | lessEqual, o => o != .gt
  | _, _ => false

/-- The order of two decimals; NaN has none. -/
def decimalOrder? (a b : Float) : Option Ordering :=
  if a < b then some .lt else if a == b then some .eq else if b < a then some .gt else none

/-- The order of two values of one kind. The outer `none` means that the kind has no order, the
inner one that these two decimals have none. -/
def order? : Value → Value → Option (Option Ordering)
  | .int a, .int b => some (some (compare a b))
  | .decimal a, .decimal b => some (decimalOrder? a b)
  | .str a, .str b => some (some (if a < b then .lt else if a = b then .eq else .gt))
  | _, _ => none

def checked (op : Operator) (n : Int) : Except Fault Int64 :=
  match int64? n with
  | some r => .ok r
  | none => .error (.integerOverflow op.symbol)

/-- Integer arithmetic; `none` when `op` is none. Division truncates. A shift by less than none or
more than 63 bits overflows. -/
def onInts (op : Operator) (a b : Int64) : Option (Except Fault Int64) :=
  let x := a.toInt
  let y := b.toInt
  match op with
  | add => some (op.checked (x + y))
  | sub => some (op.checked (x - y))
  | mul => some (op.checked (x * y))
  | div => some (if y = 0 then .error .divisionByZero else op.checked (x.tdiv y))
  | mod =>
    some (if y = 0 then .error .divisionByZero
      else do
        let _ ← op.checked (x.tdiv y)
        op.checked (x.tmod y))
  | bitAnd => some (.ok (a &&& b))
  | bitOr => some (.ok (a ||| b))
  | bitXor => some (.ok (a ^^^ b))
  | shiftLeft =>
    some (if 0 ≤ y ∧ y < 64 then .ok (a <<< b) else .error (.integerOverflow op.symbol))
  | shiftRight =>
    some (if 0 ≤ y ∧ y < 64 then .ok (a >>> b) else .error (.integerOverflow op.symbol))
  | _ => none

def onDecimals (op : Operator) (a b : Float) : Option Float :=
  match op with
  | add => some (a + b)
  | sub => some (a - b)
  | mul => some (a * b)
  | div => some (a / b)
  | mod => some (Decimal.remainder a b)
  | _ => none

def onBools (op : Operator) (a b : Bool) : Option Bool :=
  match op with
  | bitAnd => some (a && b)
  | bitOr => some (a || b)
  | bitXor => some (a ^^ b)
  | _ => none

/-- Arithmetic on operands of one kind; `none` when the kind does not support it. -/
def arithmetic (op : Operator) (left right : Value) : Option (Except Fault Value) :=
  match left, right with
  | .int a, .int b => (op.onInts a b).map (·.map .int)
  | .decimal a, .decimal b => (op.onDecimals a b).map fun x => .ok (.decimal x)
  | .str a, .str b => if op = add then some (.ok (.str (a ++ b))) else none
  | .bool a, .bool b => (op.onBools a b).map fun x => .ok (.bool x)
  | _, _ => none

/-- Apply an operator to operands that coercion has brought to one kind. -/
def applySame (op : Operator) (left right : Value) : Option (Except Fault Value) :=
  match op with
  | equal => some (.ok (.bool (left.equals right)))
  | notEqual => some (.ok (.bool (!left.equals right)))
  | greater | greaterEqual | less | lessEqual =>
    (order? left right).map fun o => .ok (.bool (o.any op.accepts))
  | _ => op.arithmetic left right

/-- Apply a binary operator. Operands that have no kind in common are never equal. -/
def apply (op : Operator) (left right : Value) : Except Fault Value :=
  let unsupported : Except Fault Value :=
    .error (.unsupportedOperands op left.kind right.kind)
  match op with
  | and => .ok (.bool (left.truthy && right.truthy))
  | or => .ok (.bool (left.truthy || right.truthy))
  | _ =>
    match left.coerce? right with
    | some (l, r) => (op.applySame l r).getD unsupported
    | none =>
      match op with
      | equal => .ok (.bool false)
      | notEqual => .ok (.bool true)
      | _ => unsupported

end Operator

def UnaryOp.apply (op : UnaryOp) (operand : Value) : Except Fault Value :=
  match op, operand with
  | not, v => .ok (.bool (!v.truthy))
  | neg, .int n =>
    match int64? (-n.toInt) with
    | some r => .ok (.int r)
    | none => .error (.integerOverflow op.symbol)
  | neg, .decimal x => .ok (.decimal (-x))
  | bitNot, .int n => .ok (.int (~~~n))
  | bitNot, .bool b => .ok (.bool !b)
  | op, v => .error (.unsupportedOperand op v.kind)

end StackScript
