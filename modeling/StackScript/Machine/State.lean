import StackScript.Compile.Link
import StackScript.Machine.Limits
import StackScript.Machine.Stack
import StackScript.Value.Copy

/-! # The state of a machine -/

namespace StackScript

/-- The stamp of the top level of a program. -/
def mainStamp : Nat := 0

/-- The first stamp that a value can get. -/
def firstStamp : Nat := 1

/-- An active call: the closure that runs, the offset of its next instruction and the slot of its
first local. -/
structure Frame where
  stamp : Nat
  body : Function
  free : List Value
  ip : Nat
  base : Nat

def Frame.closure (f : Frame) : Value := .closure f.stamp f.body f.free

structure Machine where
  constants : Array Value
  stack : Stack
  /-- Active calls, the innermost first; none once the program has ended. -/
  frames : List Frame
  globals : Array Value
  limits : Limits
  executed : Nat
  /-- The stamp of the next array, hash or closure. -/
  nextStamp : Nat
  output : String

/-- A machine step: a result, or a fault. The state keeps what was done before the fault. -/
abbrev Exec := ExceptT Fault (StateM Machine)

namespace Exec

def onStack {α : Type} (step : Stacking α) : Exec α := fun m =>
  let ⟨constants, stack, frames, globals, limits, executed, nextStamp, output⟩ := m
  let (result, stack) := step stack
  (result, ⟨constants, stack, frames, globals, limits, executed, nextStamp, output⟩)

def push (v : Value) : Exec Unit := onStack (Stacking.push v)

def pop : Exec Value := onStack Stacking.pop

def freshStamp : Exec Nat := modifyGet fun m => (m.nextStamp, { m with nextStamp := m.nextStamp + 1 })

/-- A copy that shares no array and no hash with `v`. -/
def copied (v : Value) : Exec Value := modifyGet fun m =>
  let (v, nextStamp) := v.copy m.nextStamp
  (v, { m with nextStamp := nextStamp })

def ofExcept {α : Type} : Except Fault α → Exec α
  | .ok a => pure a
  | .error fault => throw fault

def frame : Exec Frame := do
  match (← get).frames with
  | f :: _ => return f
  | [] => throw .stackUnderflow

def setIp (ip : Nat) : Exec Unit := modify fun m =>
  match m.frames with
  | f :: fs => { m with frames := { f with ip := ip } :: fs }
  | [] => m

end Exec

end StackScript
