import StackScript.Machine.Step

/-! # Running programs -/

namespace StackScript

/-- How a run stands: it has ended, it has failed, or it can go on. -/
inductive Outcome
  | done
  | failed (error : RuntimeError)
  | running
deriving DecidableEq, Repr

namespace Machine

/-- A machine at the start of a program, with given globals in the first slots. The values it makes
get stamps from `nextStamp` on. -/
def start (program : Linked) (limits : Limits) (globals : Array Value) (nextStamp : Nat) :
    Except LimitsError Machine := do
  limits.validate
  if limits.globals < globals.size then
    throw (.globalsTooLarge globals.size limits.globals)
  let main : Function := ⟨program.code, 0, 0, some "main", program.spans⟩
  return {
    constants := program.constants
    stack := Stack.ofCapacity limits.stack
    frames := [⟨mainStamp, main, [], 0, 0⟩]
    globals := globals ++ Array.replicate (limits.globals - globals.size) .null
    limits := limits
    executed := 0
    nextStamp := nextStamp
    output := "" }

/-- The source of the instruction at `ip` of the innermost call, which failed when `depth` calls were
active; unknown when that call is gone. -/
def faultSpan? (m : Machine) (ip depth : Nat) : Option Span :=
  match m.frames with
  | f :: fs => if fs.length + 1 = depth then f.body.spans.spanAt? ip else none
  | [] => none

def runFor : (fuel : Nat) → Machine → Outcome × Machine
  | 0, m => (if m.frames.isEmpty then .done else .running, m)
  | fuel + 1, m =>
    match m.frames with
    | [] => (.done, m)
    | f :: fs =>
      match Exec.step m with
      | (.ok (), m) => runFor fuel m
      | (.error fault, m) => (.failed ⟨fault, m.faultSpan? f.ip (fs.length + 1)⟩, m)

/-- How many steps a run gets. With a budget there are at most as many implicit returns as calls, so
this is more than it can take; without one it is more than anybody can wait for. -/
def fuel (m : Machine) : Nat :=
  match m.limits.budget with
  | some budget => 2 * budget + 2
  | none => 1 <<< 62

def run (m : Machine) : Outcome × Machine := m.runFor m.fuel

def lastPopped (m : Machine) : Value := m.stack.lastPopped

/-- The locals of a call that are on the stack. -/
def frameLocals (m : Machine) (f : Frame) : List Value :=
  ((m.stack.slots.extract 0 m.stack.sp).extract f.base (f.base + f.body.locals)).toList

end Machine

end StackScript
