import StackScript.Decimal.Shortest

/-! # Reading decimals

A sign, digits with an optional point and power of ten, or the name of infinity or NaN.
-/

namespace StackScript.Decimal

def digitsValue (read : Nat) (cs : List Char) : Nat :=
  cs.foldl (fun n c => n * 10 + (c.toNat - '0'.toNat)) read

/-- The whole number nearest to `num / den`; a tie goes to the even one. -/
def roundDiv (num den : Nat) : Nat :=
  let floor := num / den
  let rest := num % den
  if 2 * rest < den then floor
  else if den < 2 * rest then floor + 1
  else floor + floor % 2

/-- The floor of `num / den` in units of `2 ^ e`. -/
def floorInUnits (num den : Nat) (e : Int) : Nat := num <<< (-e).toNat / (den <<< e.toNat)

/-- The exponent at which `num / den` has a mantissa of 53 bits, or the least one there is. -/
def unitExponent (num den : Nat) : Int :=
  let e : Int := num.log2 - den.log2 - 53
  max (if floorInUnits num den e < 1 <<< 53 then e else e + 1) minExponent

/-- The float nearest to `num / den`; past the range it is infinite. -/
def ofFraction (num den : Nat) : Float :=
  let e := unitExponent num den
  let mantissa := roundDiv (num <<< (-e).toNat) (den <<< e.toNat)
  if 1024 ≤ e + mantissa.log2 then 1.0 / 0.0 else encode ⟨false, mantissa, e⟩

/-- The float nearest to `d`. Far past the range it is infinite, and far below it zero. -/
def ofDigits (d : Digits) : Float :=
  if d.digits == 0 then 0.0
  else
    let leading := d.exponent + (Nat.repr d.digits).length
    if 400 < leading then 1.0 / 0.0
    else if leading < -400 then 0.0
    else ofFraction (d.digits * Nat.pow 10 d.exponent.toNat) (Nat.pow 10 (-d.exponent).toNat)

/-- A signed power of ten: a sign or none, and at least one digit. -/
def readExponent? (cs : List Char) : Option Int :=
  let (negative, digits) := match cs with
    | '-' :: cs => (true, cs)
    | '+' :: cs => (false, cs)
    | cs => (false, cs)
  if digits.isEmpty || !digits.all Char.isDigit then none
  else
    let n : Int := digitsValue 0 digits
    some (if negative then -n else n)

/-- Digits with an optional point, at least one of them, and an optional power of ten. -/
def readDigits? (cs : List Char) : Option Digits :=
  let whole := cs.takeWhile Char.isDigit
  let rest := cs.dropWhile Char.isDigit
  let (fraction, rest) := match rest with
    | '.' :: rest => (rest.takeWhile Char.isDigit, rest.dropWhile Char.isDigit)
    | rest => ([], rest)
  if whole.isEmpty && fraction.isEmpty then none
  else
    let digits := digitsValue (digitsValue 0 whole) fraction
    match rest with
    | [] => some ⟨digits, -fraction.length⟩
    | c :: rest =>
      if c = 'e' ∨ c = 'E' then
        (readExponent? rest).map fun e => ⟨digits, e - fraction.length⟩
      else none

def readUnsigned? (cs : List Char) : Option Float :=
  let name := String.ofList (cs.map Char.toLower)
  if name == "inf" || name == "infinity" then some (1.0 / 0.0)
  else if name == "nan" then some (0.0 / 0.0)
  else (readDigits? cs).map ofDigits

def read? (text : String) : Option Float :=
  match text.toList with
  | '-' :: cs => (readUnsigned? cs).map (-·)
  | '+' :: cs => readUnsigned? cs
  | cs => readUnsigned? cs

end StackScript.Decimal
