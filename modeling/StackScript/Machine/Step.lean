import StackScript.Machine.Collection
import StackScript.Machine.Operate
import StackScript.Machine.State

/-! # Steps

What each instruction does. A callee lies below its arguments, and the first argument is the first
local of the call; a return drops the locals and the callee and pushes the result.
-/

namespace StackScript.Exec

def loadSlot (operand : Nat) : Exec Value := do
  let (storage, index) := Storage.decode operand
  match storage with
  | .globalSlot =>
    let globals := (← get).globals
    match globals[index]? with
    | some v => return v
    | none => throw (.globalOutOfRange index globals.size)
  | .localSlot => onStack (Stacking.read ((← frame).base + index))
  | .builtin => return .builtin index
  | .captured =>
    match (← frame).free[index]? with
    | some v => return v
    | none => throw (.missingFreeVariable index)
  | .self => return (← frame).closure

def storeSlot (operand : Nat) (v : Value) : Exec Unit := do
  let (storage, index) := Storage.decode operand
  match storage with
  | .globalSlot =>
    let capacity := (← get).globals.size
    if index < capacity then
      modify fun m => { m with globals := m.globals.setIfInBounds index v }
    else throw (.globalOutOfRange index capacity)
  | .localSlot => onStack (Stacking.write ((← frame).base + index) v)
  | storage => throw (.invalidStoreTarget storage)

/-- Write an element of the array or hash in a slot, and push the value written. -/
def setElement (operand : Nat) : Exec Unit := do
  let v ← copied (← pop)
  let i ← pop
  let target ← loadSlot operand
  let updated ← ofExcept (target.assignIndex (← freshStamp) i v)
  storeSlot operand updated
  push v

def makeArray (length : Nat) : Exec Unit := do
  let items ← onStack (Stacking.window length)
  onStack (Stacking.discard length)
  push (.array (← freshStamp) items)

/-- Half of `length` values are keys, each below its value. -/
def makeHash (length : Nat) : Exec Unit := do
  let items ← onStack (Stacking.window length)
  onStack (Stacking.discard length)
  match Entries.ofPairs [] (Value.pairUp items) with
  | .ok entries => push (.hash (← freshStamp) entries)
  | .error kind => throw (.unhashableKey kind)

def makeClosure (constant captured : Nat) : Exec Unit := do
  match (← get).constants[constant]? with
  | some (.function f) =>
    let free ← onStack (Stacking.window captured)
    onStack (Stacking.discard captured)
    push (.closure (← freshStamp) f free)
  | some _ => throw (.notAFunction constant)
  | none => throw (.missingConstant constant)

/-- Enter a closure. Its locals behind the arguments start as null. -/
def callClosure (stamp : Nat) (body : Function) (free : List Value) (argc : Nat) : Exec Unit := do
  if argc ≠ body.params then throw (.wrongArity argc body.params)
  let m ← get
  if m.limits.frames ≤ m.frames.length then throw (.frameOverflow m.limits.frames)
  let base := m.stack.sp - argc
  onStack (Stacking.reserve (base + argc) (base + max body.locals argc))
  modify fun m => { m with frames := ⟨stamp, body, free, 0, base⟩ :: m.frames }

def callBuiltin (index argc : Nat) : Exec Unit := do
  match Builtin.ofIndex? index with
  | none => throw (.unknownBuiltin index)
  | some b =>
    let args ← onStack (Stacking.window argc)
    match b.apply (← freshStamp) args with
    | .error refusal => throw (.builtin refusal)
    | .ok reply =>
      modify fun m => { m with output := m.output ++ reply.printed }
      onStack (Stacking.discard (argc + 1))
      push reply.value

def call (argc : Nat) : Exec Unit := do
  match ← onStack (Stacking.peek argc) with
  | .closure stamp body free => callClosure stamp body free argc
  | .builtin index => callBuiltin index argc
  | v => throw (.notCallable v.kind)

/-- Leave the innermost call with a result; `none` when the body ran off its end. At the top level
the program ends, and a result becomes the last value popped; without one that is the value left on
the stack, if any. -/
def leave (result : Option Value) : Exec Unit := do
  let f ← frame
  modify fun m => { m with frames := m.frames.tail }
  let m ← get
  if m.frames.isEmpty then
    match result with
    | some v =>
      onStack (Stacking.truncate 0)
      push v
      discard pop
    | none => if m.stack.sp = 0 then pure () else discard pop
  else
    onStack (Stacking.truncate (f.base - 1))
    push (result.getD .null)

def execute (op : Opcode) (operand second : Nat) : Exec Unit := do
  match op with
  | .constant =>
    match (← get).constants[operand]? with
    | some v => push v
    | none => throw (.missingConstant operand)
  | .true => push (.bool true)
  | .false => push (.bool false)
  | .null => push .null
  | .pop => discard pop
  | .binary op =>
    let right ← pop
    let left ← pop
    push (← ofExcept (op.apply left right))
  | .unary op =>
    let v ← pop
    push (← ofExcept (op.apply v))
  | .jump => setIp operand
  | .jumpIfFalse => if (← pop).truthy then pure () else setIp operand
  | .array => makeArray operand
  | .hash => makeHash operand
  | .index =>
    let i ← pop
    let target ← pop
    push (← ofExcept (target.index i))
  | .get => push (← loadSlot operand)
  | .set => storeSlot operand (← copied (← pop))
  | .setElement => setElement operand
  | .call => call operand
  | .ret => leave (some .null)
  | .retValue => leave (some (← pop))
  | .closure => makeClosure operand second
  | .currentClosure => push (← frame).closure

/-- Run the next instruction of the innermost call, or leave the call behind its last one. Only
instructions count against the budget. -/
def step : Exec Unit := do
  let f ← frame
  if f.body.code.size ≤ f.ip then leave none
  else
    let m ← get
    match m.limits.budget with
    | some budget => if budget ≤ m.executed then throw (.budgetExhausted budget)
    | none => pure ()
    modify fun m => { m with executed := m.executed + 1 }
    match f.body.code.decode f.ip with
    | .error (.unknownOpcode byte offset) => throw (.unknownOpcode byte offset)
    | .error (.truncated offset) => throw (.truncatedInstruction offset)
    | .ok (i, next) =>
      setIp next
      execute i.op (i.operands[0]?.getD 0) (i.operands[1]?.getD 0)

end StackScript.Exec
