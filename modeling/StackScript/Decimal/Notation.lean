import StackScript.Decimal.Shortest

/-! # Decimal notation

The two texts of a float: as a value of the language, and as a token of the source.
-/

namespace StackScript.Decimal

/-- The digits with a decimal point and no exponent. -/
def positional (d : Digits) : String :=
  let digits := Nat.toDigits 10 d.digits
  if 0 ≤ d.exponent then String.ofList (digits ++ List.replicate d.exponent.toNat '0')
  else
    let places := (-d.exponent).toNat
    let padded := List.replicate (places + 1 - digits.length) '0' ++ digits
    let whole := padded.length - places
    String.ofList (padded.take whole ++ '.' :: padded.drop whole)

/-- One digit before the point and a power of ten. -/
def scientific (d : Digits) : String :=
  let digits := Nat.toDigits 10 d.digits
  let exponent := d.exponent + (digits.length - 1 : Nat)
  let fraction := if digits.length == 1 then [] else '.' :: digits.drop 1
  String.ofList (digits.take 1 ++ fraction) ++ s!"e{exponent}"

/-- The power of ten of the first digit. -/
def Digits.leading (d : Digits) : Int := d.exponent + ((Nat.toDigits 10 d.digits).length - 1 : Nat)

def withSign (negative : Bool) (text : String) : String := if negative then "-" ++ text else text

/-- Every float as `write` shows its absolute value. -/
def format (write : Digits → String) (x : Float) : String :=
  match decode x with
  | .nan => "NaN"
  | .infinite negative => withSign negative "inf"
  | .finite b => withSign b.negative (write (shortest b))

/-- Positional from `1e-4` up to `1e16`, with at least one digit after the point, and scientific
beyond. -/
def valueDigits (d : Digits) : String :=
  if d.digits != 0 && (d.leading < -4 || 16 ≤ d.leading) then scientific d
  else if 0 ≤ d.exponent then positional d ++ ".0"
  else positional d

def text (x : Float) : String := format valueDigits x

/-- The text of a decimal token: never an exponent, and no point after a whole number. -/
def tokenText (x : Float) : String := format positional x

end StackScript.Decimal
