/-! # Padding

Texts filled up to a width, as listings need them.
-/

namespace StackScript

def padLeft (width : Nat) (fill : Char) (s : String) : String :=
  String.ofList (List.replicate (width - s.length) fill) ++ s

def padRight (width : Nat) (fill : Char) (s : String) : String :=
  s ++ String.ofList (List.replicate (width - s.length) fill)

/-- A byte as two hexadecimal digits. -/
def hexByte (b : UInt8) : String := padLeft 2 '0' (String.ofList (Nat.toDigits 16 b.toNat))

end StackScript
