/-! # Binary form of decimals

A finite 64-bit float is a sign and a number `mantissa * 2 ^ exponent`. Decoding and encoding work
on its bits, so that what is computed from them is exact.
-/

namespace StackScript.Decimal

/-- The absolute value `mantissa * 2 ^ exponent` with a sign. -/
structure Binary where
  negative : Bool
  mantissa : Nat
  exponent : Int
deriving DecidableEq, Repr

inductive Form
  | nan
  | infinite (negative : Bool)
  | finite (value : Binary)
deriving DecidableEq, Repr

def minExponent : Int := -1074

/-- Split the bits of a float into sign, exponent and fraction. -/
def decode (x : Float) : Form :=
  let bits := x.toBits.toNat
  let negative := bits >>> 63 == 1
  let biased : Nat := (bits >>> 52) % 1 <<< 11
  let fraction : Nat := bits % 1 <<< 52
  if biased == 2047 then
    if fraction == 0 then .infinite negative else .nan
  else if biased == 0 then .finite ⟨negative, fraction, minExponent⟩
  else .finite ⟨negative, 1 <<< 52 + fraction, (biased : Int) - 1075⟩

/-- The float with the value of `b`, which must have one. -/
def encode (b : Binary) : Float :=
  let sign := if b.negative then 1 <<< 63 else 0
  if b.mantissa == 0 then Float.ofBits (UInt64.ofNat sign)
  else
    let exponent := max (b.exponent + b.mantissa.log2 - 52) minExponent
    let mantissa :=
      if exponent ≤ b.exponent then b.mantissa <<< (b.exponent - exponent).toNat
      else b.mantissa >>> (exponent - b.exponent).toNat
    let magnitude :=
      if mantissa < 1 <<< 52 then mantissa
      else (exponent + 1075).toNat <<< 52 + (mantissa - 1 <<< 52)
    Float.ofBits (UInt64.ofNat (sign + magnitude))

end StackScript.Decimal
