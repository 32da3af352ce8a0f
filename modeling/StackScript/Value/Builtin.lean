import StackScript.Value.Display

/-! # Builtin functions -/

namespace StackScript

inductive Builtin
  | len | puts | first | last | rest | push | type | error
deriving DecidableEq, Repr

namespace Builtin

def all : List Builtin := [len, puts, first, last, rest, push, type, error]

def name : Builtin → String
  | len => "len"
  | puts => "puts"
  | first => "first"
  | last => "last"
  | rest => "rest"
  | push => "push"
  | type => "type"
  | error => "error"

def ofIndex? (index : Nat) : Option Builtin := all[index]?

def indexOf? (s : String) : Option Nat := all.findIdx? (·.name == s)

inductive Refusal
  | argumentCount (got wanted : Nat)
  | noLength (kind : Kind)
  | notArray (builtin : Builtin) (kind : Kind)
deriving DecidableEq, Repr

def Refusal.message : Refusal → String
  | argumentCount got wanted => s!"wrong number of arguments. got={got}, wanted={wanted}"
  | noLength kind => s!"argument to `len` not supported, got {kind.name}"
  | notArray builtin kind => s!"argument to `{builtin.name}` must be array, got {kind.name}"

structure Reply where
  value : Value
  printed : String := ""

/-- Apply a function to the items of an array. -/
def onArray (b : Builtin) (f : List Value → Value) : Value → Except Refusal Reply
  | .array _ items => .ok ⟨f items, ""⟩
  | v => .error (.notArray b v.kind)

/-- Apply a builtin. An array that it makes gets the stamp `stamp`. -/
def apply (stamp : Nat) : Builtin → List Value → Except Refusal Reply
  | len, [v] =>
    match v with
    | .str s => .ok ⟨.int (Int64.ofNat s.length), ""⟩
    | .array _ items => .ok ⟨.int (Int64.ofNat items.length), ""⟩
    | .hash _ entries => .ok ⟨.int (Int64.ofNat entries.length), ""⟩
    | v => .error (.noLength v.kind)
  | puts, args => .ok ⟨.null, String.join (args.map fun v => v.display ++ "\n")⟩
  | first, [v] => onArray first (fun items => items.head?.getD .null) v
  | last, [v] => onArray last (fun items => items.getLast?.getD .null) v
  | rest, [v] =>
    onArray rest (fun items => match items with
      | [] => .null
      | _ :: tail => .array stamp tail) v
  | push, [v, item] => onArray push (fun items => .array stamp (items ++ [item])) v
  | type, [v] => .ok ⟨.str v.kind.name, ""⟩
  | error, [v] => .ok ⟨.error v.display none, ""⟩
  | push, args => .error (.argumentCount args.length 2)
  | _, args => .error (.argumentCount args.length 1)

end Builtin

end StackScript
