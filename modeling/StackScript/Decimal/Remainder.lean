import StackScript.Decimal.Binary

/-! # Remainder of decimals

The exact remainder of a division that truncates; it has the sign of the dividend.
-/

namespace StackScript.Decimal

/-- Remainder of the absolute values, over their smaller exponent. -/
def finiteRemainder (a b : Binary) : Binary :=
  let e := min a.exponent b.exponent
  let scaled (x : Binary) := x.mantissa <<< (x.exponent - e).toNat
  ⟨a.negative, scaled a % scaled b, e⟩

def remainder (a b : Float) : Float :=
  match decode a, decode b with
  | .finite x, .finite y => if y.mantissa == 0 then 0.0 / 0.0 else encode (finiteRemainder x y)
  | .finite _, .infinite _ => a
  | _, _ => 0.0 / 0.0

end StackScript.Decimal
