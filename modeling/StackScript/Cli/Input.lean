/-! # Text input

Files and the standard input arrive as bytes.
-/

namespace StackScript.Input

/-- What is said of bytes that are not text. -/
def notText : String := "stream did not contain valid UTF-8"

def decode (bytes : ByteArray) : Except String String :=
  match String.fromUTF8? bytes with
  | some s => .ok s
  | none => .error notText

/-- A line from its bytes in reverse. A carriage return belongs to the line end that follows it. -/
def line (ended : Bool) (reversed : List UInt8) : Except String String :=
  let kept := match reversed with
    | 13 :: rest => if ended then rest else reversed
    | _ => reversed
  decode ⟨kept.reverse.toArray⟩

/-- The lines of the input, after those found and the bytes of the current one in reverse. -/
def linesFrom (found : List (Except String String)) (current : List UInt8) :
    List UInt8 → List (Except String String)
  | [] => (if current.isEmpty then found else line false current :: found).reverse
  | b :: bs =>
    if b = 10 then linesFrom (line true current :: found) [] bs
    else linesFrom found (b :: current) bs

def lines (bytes : ByteArray) : List (Except String String) := linesFrom [] [] bytes.toList

end StackScript.Input
