import StackScript.Scope.Storage

/-! # Symbols -/

namespace StackScript

structure Symbol where
  storage : Storage
  name : String
  /-- The name with the path of its context before it. -/
  mangled : String
  /-- The context that holds it. -/
  context : Nat
  /-- The function body it belongs to. -/
  depth : Nat
  index : Nat
deriving DecidableEq, Repr

def Symbol.operand (s : Symbol) : Nat := s.storage.encode s.index

inductive SymbolError
  | unresolved (name : String)
  | indexOverflow (storage : Storage) (name : String) (index : Nat)
deriving DecidableEq, Repr

def SymbolError.message : SymbolError → String
  | unresolved name => s!"symbol not found: {name}"
  | indexOverflow storage name index =>
    s!"too many {storage.text} symbols: `{name}` would take slot {index}, the limit is 16384"

end StackScript
