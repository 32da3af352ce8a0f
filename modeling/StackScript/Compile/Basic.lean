import StackScript.Compile.Unit
import StackScript.Scope.Table
import StackScript.Tree.Basic
import StackScript.Value.Builtin

/-! # The compiler's state

The open scopes, the constants so far and the code unit that is being written.
-/

namespace StackScript

structure Compiler where
  scopes : ScopeTable := {}
  constants : Array Value := #[]
  unit : CodeUnit := {}

abbrev Compile := ExceptT CompileError (StateM Compiler)

namespace Compile

/-- How many constants an operand can tell apart. -/
def constantLimit : Nat := 1 <<< 16

/-- A step on the code unit; its errors are reported at `span`. -/
def onUnit {α : Type} (span : Span) (step : Emit α) : Compile α := fun c =>
  let ⟨scopes, constants, unit⟩ := c
  let (result, unit) := step unit
  (result.mapError (⟨·, span⟩), ⟨scopes, constants, unit⟩)

def modifyUnit (f : CodeUnit → CodeUnit) : Compile Unit :=
  modify fun c => { c with unit := f c.unit }

def unit : Compile CodeUnit := return (← get).unit

/-- A step on the open scopes; its errors are reported at `span`. -/
def onScopes {α : Type} (span : Span) (step : Scoping α) : Compile α := fun c =>
  let ⟨scopes, constants, unit⟩ := c
  let (result, scopes) := step scopes
  (result.mapError fun e => ⟨.symbol e, span⟩, ⟨scopes, constants, unit⟩)

def modifyScopes (f : ScopeTable → ScopeTable) : Compile Unit :=
  modify fun c => { c with scopes := f c.scopes }

def fail {α : Type} (cause : CompileError.Cause) (span : Span) : Compile α := throw ⟨cause, span⟩

/-- Run a step and hand its error back as a value. -/
def observing {α : Type} (step : Compile α) : Compile (Except CompileError α) := fun c =>
  let (result, c) := step c
  (.ok result, c)

def emit (op : Opcode) (operands : List Nat) (span : Span) : Compile Nat :=
  onUnit span (CodeUnit.emit op operands span)

def here : Compile Nat := return (← get).unit.code.size

def ofExcept {α : Type} : Except CompileError α → Compile α
  | .ok a => pure a
  | .error e => throw e

/-- Run a step while `n` more operands of the expressions around it are on the stack. -/
def holding (n : Nat) (step : Compile Unit) : Compile Unit := do
  modifyUnit (·.hold n)
  let result ← observing step
  modifyUnit (·.release n)
  ofExcept result

/-- Write a jump that is patched later. -/
def emitJump (op : Opcode) (span : Span) : Compile Nat := emit op [CodeUnit.placeholder] span

def emitJumpTo (op : Opcode) (target : Nat) (span : Span) : Compile Unit := do
  if target < 65536 then discard (emit op [target] span)
  else fail (.jumpOutOfRange target) span

def patchJump (position target : Nat) (span : Span) : Compile Unit :=
  onUnit span (CodeUnit.patchJump position target)

def patchHere (position : Nat) (span : Span) : Compile Unit := do
  patchJump position (← here) span

def addConstant (v : Value) (span : Span) : Compile Nat := do
  let index := (← get).constants.size
  if index < constantLimit then
    modify fun c => { c with constants := c.constants.push v }
    return index
  else fail .tooManyConstants span

def emitConstant (v : Value) (span : Span) : Compile Unit := do
  let index ← addConstant v span
  discard (emit .constant [index] span)

/-- Find a name; one that no scope binds may be a builtin. -/
def resolve (name : String) (span : Span) : Compile Symbol := do
  match (← get).scopes.lookup? name, Builtin.indexOf? name with
  | none, some index => onScopes span (Scoping.defineBuiltin name index)
  | _, _ => onScopes span (Scoping.resolve name)

def load (s : Symbol) (span : Span) : Compile Unit :=
  match s.storage with
  | .self => discard (emit .currentClosure [] span)
  | _ => discard (emit .get [s.operand] span)

def store (s : Symbol) (span : Span) : Compile Unit := discard (emit .set [s.operand] span)

/-- Find the name that an assignment writes to. -/
def assignable (name : String) (span : Span) : Compile Symbol := do
  let s ← resolve name span
  if s.storage.assignable then return s
  else fail (.invalidAssignment (.named s.storage name)) span

def define (name : Ident) : Compile Symbol := onScopes name.span (Scoping.define name.name)

def emitPops (span : Span) : Nat → Compile Unit
  | 0 => pure ()
  | n + 1 => do
    discard (emit .pop [] span)
    emitPops span n

/-- Drop the operands pushed since the innermost loop began and jump out of it; the jump is patched
when the loop ends. -/
def emitLoopExit (outside : CompileError.Cause) (span : Span) : Compile Nat := do
  match (← unit).exitPops? with
  | none => fail outside span
  | some pops =>
    emitPops span pops
    emitJump .jump span

def patchAll (target : Nat) (span : Span) : List Nat → Compile Unit
  | [] => pure ()
  | jump :: jumps => do
    patchJump jump target span
    patchAll target span jumps

end Compile

end StackScript
