import StackScript.Decimal.Binary

/-! # Shortest decimal digits

The fewest decimal digits that read back as the same float, and of those the nearest to it.
-/

namespace StackScript.Decimal

/-- The value `digits * 10 ^ exponent`. -/
structure Digits where
  digits : Nat
  exponent : Int
deriving DecidableEq, Repr

/-- A value, and the interval of the reals that round to it, over one denominator. -/
structure Rounding where
  value : Nat
  low : Nat
  high : Nat
  den : Nat
  closed : Bool

/-- The interval reaches half way to both neighbours; below a power of two the lower neighbour is
nearer. Its ends belong to it when the mantissa is even. -/
def Rounding.ofBinary (b : Binary) : Rounding :=
  let m := b.mantissa
  let below := if m == 1 <<< 52 && minExponent < b.exponent then 1 else 2
  let up := 1 <<< (b.exponent - 2).toNat
  ⟨4 * m * up, (4 * m - below) * up, (4 * m + 2) * up, 1 <<< (2 - b.exponent).toNat, m % 2 == 0⟩

/-- The same interval measured in units of `10 ^ p`. -/
def Rounding.inUnits (r : Rounding) (p : Int) : Rounding :=
  let up := Nat.pow 10 (-p).toNat
  ⟨r.value * up, r.low * up, r.high * up, r.den * Nat.pow 10 p.toNat, r.closed⟩

def Rounding.contains (r : Rounding) (n : Nat) : Bool :=
  let t := n * r.den
  if r.closed then r.low ≤ t && t ≤ r.high else r.low < t && t < r.high

/-- The multiple of the unit that rounds to the value and is nearest to it; a tie goes up. -/
def Rounding.nearest? (r : Rounding) : Option Nat :=
  let floor := r.value / r.den
  let rest := r.value % r.den
  match r.contains floor, r.contains (floor + 1) with
  | true, true => some (if 2 * rest < r.den then floor else floor + 1)
  | true, false => some floor
  | false, true => some (floor + 1)
  | false, false => none

/-- The power of ten at or below `num / den`. -/
def magnitude (num den : Nat) : Int :=
  let guess : Int := (Nat.repr num).length - (Nat.repr den).length
  if den * Nat.pow 10 guess.toNat ≤ num * Nat.pow 10 (-guess).toNat then guess else guess - 1

/-- Try the grids of `10 ^ p`, `10 ^ (p - 1)`, …; the first with a multiple that rounds to the value
wins. -/
def refine (r : Rounding) : Nat → Int → Digits
  | 0, p => ⟨r.value / r.den, p⟩
  | n + 1, p =>
    match (r.inUnits p).nearest? with
    | some digits => ⟨digits, p⟩
    | none => refine r n (p - 1)

/-- Drop the zeros at the end of the digits. -/
def Digits.normalize : Nat → Digits → Digits
  | 0, d => d
  | n + 1, d =>
    if d.digits % 10 == 0 && d.digits != 0 then normalize n ⟨d.digits / 10, d.exponent + 1⟩ else d

/-- Seventeen digits tell any two floats apart. -/
def shortest (b : Binary) : Digits :=
  if b.mantissa == 0 then ⟨0, 0⟩
  else
    let r := Rounding.ofBinary b
    (refine r 17 (magnitude r.value r.den)).normalize 17

end StackScript.Decimal
