import StackScript.Code.Instruction
import StackScript.Code.SpanMap
import StackScript.Decimal.Notation

/-! # Values

The values that programs compute with. Arrays, hashes and closures carry a stamp that tells the one
made here from an equal one made elsewhere.
-/

namespace StackScript

inductive Kind
  | null | bool | int | decimal | str | array | hash | error | function | closure | builtin
deriving DecidableEq, Repr

namespace Kind

def name : Kind → String
  | null => "null"
  | bool => "bool"
  | int => "int"
  | decimal => "decimal"
  | str => "string"
  | array => "array"
  | hash => "hash"
  | error => "error"
  | function => "function"
  | closure => "closure"
  | builtin => "builtin"

/-- Whether values of this kind can be keys of a hash. -/
def hashable : Kind → Bool
  | null | bool | int | decimal | str => true
  | _ => false

end Kind

/-- A compiled function body. Parameters are its first locals. -/
structure Function where
  code : Code
  locals : Nat
  params : Nat
  name : Option String
  spans : SpanMap
deriving DecidableEq, Repr, Inhabited

inductive Key
  | null
  | bool (value : Bool)
  | int (value : Int64)
  | decimal (value : Float)
  | str (value : String)
deriving DecidableEq, Repr

inductive Value
  | null
  | bool (value : Bool)
  | int (value : Int64)
  | decimal (value : Float)
  | str (value : String)
  | array (stamp : Nat) (items : List Value)
  /-- Entries in the order of their keys. -/
  | hash (stamp : Nat) (entries : List (Key × Value))
  | error (message : String) (span : Option Span)
  /-- A function constant; only a closure of it can be called. -/
  | function (body : Function)
  | closure (stamp : Nat) (body : Function) (free : List Value)
  | builtin (index : Nat)
deriving Inhabited

namespace Key

def kind : Key → Kind
  | null => .null
  | bool _ => .bool
  | int _ => .int
  | decimal _ => .decimal
  | str _ => .str

def text : Key → String
  | null => "null"
  | bool b => toString b
  | int n => toString n.toInt
  | decimal x => Decimal.text x
  | str s => s

def toValue : Key → Value
  | null => .null
  | bool b => .bool b
  | int n => .int n
  | decimal x => .decimal x
  | str s => .str s

/-- Kinds are ordered null, bool, int, decimal, string. -/
def rank : Key → Nat
  | null => 0
  | bool _ => 1
  | int _ => 2
  | decimal _ => 3
  | str _ => 4

/-- Keys are ordered by kind, then by text. -/
def order (a b : Key) : Ordering :=
  if a.rank < b.rank then .lt
  else if b.rank < a.rank then .gt
  else
    let s := a.text
    let t := b.text
    if s < t then .lt else if s = t then .eq else .gt

end Key

namespace Value

def kind : Value → Kind
  | null => .null
  | bool _ => .bool
  | int _ => .int
  | decimal _ => .decimal
  | str _ => .str
  | array _ _ => .array
  | hash _ _ => .hash
  | error _ _ => .error
  | function _ => .function
  | closure _ _ _ => .closure
  | builtin _ => .builtin

/-- Only null and false count as false. -/
def truthy : Value → Bool
  | null | bool false => false
  | _ => true

def key? : Value → Option Key
  | null => some .null
  | bool b => some (.bool b)
  | int n => some (.int n)
  | decimal x => some (.decimal x)
  | str s => some (.str s)
  | _ => none

end Value

end StackScript
