import StackScript.Diagnostic.Basic
import StackScript.Scope.Storage

/-! # Limits

The capacities of a machine are fixed before it starts; to exceed one is a fault.
-/

namespace StackScript

structure Limits where
  stack : Nat := 2048
  /-- Calls that can be active at once, the top level included. -/
  frames : Nat := 1024
  globals : Nat := Storage.slotLimit
  /-- How many instructions may run. -/
  budget : Option Nat := none
deriving DecidableEq, Repr

inductive LimitsError
  | zero (what : String)
  | tooManyGlobals (capacity : Nat)
  | globalsTooLarge (length capacity : Nat)
deriving DecidableEq, Repr

namespace LimitsError

def message : LimitsError → String
  | zero what => s!"{what} must be at least 1"
  | tooManyGlobals capacity =>
    s!"globals capacity {capacity} exceeds the encodable maximum of 16384"
  | globalsTooLarge length capacity =>
    s!"{length} initial globals do not fit a capacity of {capacity}"

def diagnostic (e : LimitsError) : Diagnostic :=
  ⟨.internal, s!"invalid VM configuration: {e.message}", [], []⟩

end LimitsError

/-- Whether a machine can be made with these limits. -/
def Limits.validate (l : Limits) : Except LimitsError Unit :=
  if l.stack = 0 then .error (.zero "stack capacity")
  else if l.frames = 0 then .error (.zero "frame capacity")
  else if Storage.slotLimit < l.globals then .error (.tooManyGlobals l.globals)
  else if l.budget = some 0 then .error (.zero "instruction budget")
  else .ok ()

end StackScript
