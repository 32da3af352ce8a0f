import StackScript.Compile.Program
import StackScript.Text.Quoted
import StackScript.Value.Display

/-! # Linking and listing

A program of one compiled unit is ready to run; units do not refer to each other, so several cannot
be linked. A listing shows the code, the constants and the code of every function constant.
-/

namespace StackScript

structure Linked where
  code : Code
  constants : Array Value
  spans : SpanMap

inductive LinkError
  | empty
  | severalUnits (names : List String)
deriving DecidableEq, Repr

namespace LinkError

def code : LinkError → ErrorCode
  | empty => .nothingToLink
  | severalUnits _ => .severalUnits

def message : LinkError → String
  | empty => "nothing to link"
  | severalUnits names =>
    s!"cannot link {names.length} units: cross-unit linking is not supported"

def diagnostic (e : LinkError) : Diagnostic :=
  let d : Diagnostic := ⟨e.code, e.message, [], []⟩
  match e with
  | empty => d
  | severalUnits names => d.note ("units: " ++ ", ".intercalate names)

end LinkError

def link : List Object → Except LinkError Linked
  | [] => .error .empty
  | [o] => .ok ⟨o.code, o.constants, o.spans⟩
  | os => .error (.severalUnits (os.map (·.unitName)))

namespace Listing

def constantLine (index : Nat) (v : Value) : String :=
  let text := match v with
    | .str s => Quoted.quote s
    | v => v.display
  padLeft 4 ' ' (toString index) ++ s!": {text}\n"

def functionPart (index : Nat) : Value → String
  | .function f =>
    let label := f.name.getD "<anonymous>"
    s!"\n== fn {label} (constant {index}, params {f.params}, locals {f.locals}) ==\n" ++
      f.code.listing
  | _ => ""

/-- One text for each constant. -/
def parts (line : Nat → Value → String) (index : Nat) : List Value → List String
  | [] => []
  | v :: vs => line index v :: parts line (index + 1) vs

def text (name : String) (code : Code) (constants : List Value) : String :=
  let pool := if constants.isEmpty then ""
    else "\n== constants ==\n" ++ String.join (parts constantLine 0 constants)
  s!"== {name} ==\n" ++ code.listing ++ pool ++ String.join (parts functionPart 0 constants)

end Listing

def Object.listing (o : Object) : String := Listing.text o.unitName o.code o.constants.toList

def Linked.listing (p : Linked) : String := Listing.text "main" p.code p.constants.toList

end StackScript
