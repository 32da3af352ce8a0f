import StackScript.Value.Basic

/-! # The text of a value -/

namespace StackScript.Value

/-- A word between angle brackets, with a name if there is one. -/
def tagged (word : String) : Option String → String
  | some name => s!"<{word} {name}>"
  | none => s!"<{word}>"

mutual

def display : Value → String
  | null => "null"
  | bool b => toString b
  | int n => toString n.toInt
  | decimal x => Decimal.text x
  | str s => s
  | array _ items => "[" ++ ", ".intercalate (displayItems items) ++ "]"
  | hash _ entries => "\x7b" ++ ", ".intercalate (displayEntries entries) ++ "\x7d"
  | error message _ => "ERROR: " ++ message
  | function f => tagged "fn" f.name
  | closure _ f _ => tagged "closure" f.name
  | builtin index => s!"<builtin #{index}>"

def displayItems : List Value → List String
  | [] => []
  | v :: vs => display v :: displayItems vs

def displayEntries : List (Key × Value) → List String
  | [] => []
  | (k, v) :: es => (k.text ++ ": " ++ display v) :: displayEntries es

end

end StackScript.Value
