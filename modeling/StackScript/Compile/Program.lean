import StackScript.Compile.Basic

/-! # Compiling programs

One pass over the tree. An expression leaves one value on the stack, a statement none. The scopes
and the code unit are balanced also when a step fails.
-/

namespace StackScript

structure Object where
  unitName : String
  code : Code
  constants : Array Value
  spans : SpanMap

namespace Compile

/-- Turn the value of the last statement of a block into the value of the block, or give it null. -/
def keepBlockValue (span : Span) : Compile Unit := do
  if (← unit).lastIs .pop then modifyUnit (·.removeLast)
  else discard (emit .null [] span)

/-- Return the value of the last statement of a function body, or null. -/
def returnBodyValue (span : Span) : Compile Unit := do
  let u ← unit
  if u.lastIs .pop then modifyUnit (·.returnLast)
  else if u.lastIs .retValue || u.lastIs .ret then pure ()
  else discard (emit .ret [] span)

def defineParams : List Ident → Compile Unit
  | [] => pure ()
  | p :: ps => do
    discard (onScopes p.span (Scoping.defineParameter p.name))
    defineParams ps

/-- Load captured symbols from where the enclosing function body has them. -/
def loadCaptured (span : Span) : List Symbol → Compile Unit
  | [] => pure ()
  | s :: ss => do
    load (← resolve s.name span) span
    loadCaptured span ss

/-- Compile a function body in scopes and a code unit of its own, and make a closure of it. -/
def functionWith (name : Option String) (params : List Ident) (span bodySpan : Span)
    (body : Compile Unit) : Compile Unit := do
  let enclosing ← unit
  modifyUnit fun _ => {}
  modifyScopes (·.enterFunction name)
  let result ← observing do
    match name with
    | some name => modifyScopes fun t => (t.defineSelf name).2
    | none => pure ()
    defineParams params
    body
    returnBodyValue bodySpan
  let written ← unit
  modifyUnit fun _ => enclosing
  let symbols ← modifyGet fun c =>
    let (symbols, scopes) := c.scopes.leaveFunction
    (symbols, { c with scopes := scopes })
  ofExcept result
  loadCaptured span symbols.free.toList
  if params.length < 65536 then
    let index ← addConstant
      (.function ⟨written.code, symbols.locals, params.length, name, written.spans⟩) span
    discard (emit .closure [index, symbols.free.size] span)
  else fail (.operandTooLarge .closure params.length) span

def loopWith (body : Compile Unit) : Compile LoopJumps := do
  modifyUnit (·.enterLoop)
  let result ← observing body
  let jumps ← modifyGet fun c =>
    let (jumps, unit) := c.unit.leaveLoop
    (jumps, { c with unit := unit })
  ofExcept result
  return jumps

def blockWith (kind : BlockKind) (body : Compile Unit) : Compile Unit := do
  modifyScopes (·.enterBlock kind)
  let result ← observing body
  modifyScopes (·.leaveBlock)
  ofExcept result

mutual

def expr : Expr → Compile Unit
  | .int n span => emitConstant (.int n) span
  | .decimal x span => emitConstant (.decimal x) span
  | .str s span => emitConstant (.str s) span
  | .bool b span => discard (emit (if b then .true else .false) [] span)
  | .null span => discard (emit .null [] span)
  | .ident name span => do load (← resolve name span) span
  | .unary op e span => do
    expr e
    discard (emit (.unary op) [] span)
  | .binary op left right span =>
    match op.operator? with
    | none => fail (.unknownOperator op) span
    | some operator => do
      expr left
      holding 1 (expr right)
      discard (emit (.binary operator) [] span)
  | .cond condition consequence alternative span => do
    expr condition
    let skipConsequence ← emitJump .jumpIfFalse span
    branch consequence
    let skipAlternative ← emitJump .jump span
    patchHere skipConsequence span
    match alternative with
    | some b => branch b
    | none => discard (emit .null [] span)
    patchHere skipAlternative span
  | .function name params (.mk body bodySpan) span =>
    functionWith name params span bodySpan (statements body)
  | .call callee args span => do
    expr callee
    exprs 1 args
    discard (emit .call [args.length] span)
  | .array items span => do
    exprs 0 items
    discard (emit .array [items.length] span)
  | .hash ps span => do
    pairs 0 ps
    discard (emit .hash [2 * ps.length] span)
  | .index target index span => do
    expr target
    holding 1 (expr index)
    discard (emit .index [] span)
  | .assign target value span =>
    match target with
    | .ident name targetSpan => do
      let s ← assignable name targetSpan
      expr value
      store s span
      load s span
    | .index (.ident name aggregateSpan) index _ => do
      let s ← assignable name aggregateSpan
      expr index
      holding 1 (expr value)
      discard (emit .setElement [s.operand] span)
    | .index aggregate _ _ => fail (.invalidAssignment .nestedIndex) aggregate.span
    | e => fail (.invalidAssignment .expression) e.span

def exprs (held : Nat) : List Expr → Compile Unit
  | [] => pure ()
  | e :: es => do
    holding held (expr e)
    exprs (held + 1) es

def pairs (held : Nat) : List (Expr × Expr) → Compile Unit
  | [] => pure ()
  | (key, value) :: ps => do
    holding held (expr key)
    holding (held + 1) (expr value)
    pairs (held + 2) ps

/-- A branch of a conditional; it leaves one value. -/
def branch : Block → Compile Unit
  | .mk body span => do
    blockWith .cond (statements body)
    keepBlockValue span

def stmt : Stmt → Compile Unit
  | .bind name value span =>
    match value with
    | .function own params (.mk body bodySpan) valueSpan => do
      let s ← define name
      functionWith (own.or (some name.name)) params valueSpan bodySpan (statements body)
      store s span
    | value => do
      expr value
      store (← define name) span
  | .ret none span => discard (emit .ret [] span)
  | .ret (some value) span => do
    expr value
    discard (emit .retValue [] span)
  | .expr e _ => do
    expr e
    discard (emit .pop [] e.span)
  | .whileLoop condition (.mk body _) span => do
    let start ← here
    expr condition
    let exit ← emitJump .jumpIfFalse condition.span
    let jumps ← loopWith (blockWith .loop (statements body))
    emitJumpTo .jump start span
    patchHere exit span
    let stop ← here
    patchAll stop span jumps.breaks
    patchAll start span jumps.continues
  | .forLoop init condition update (.mk body _) span =>
    blockWith .loop do
      match init with
      | some s => stmt s
      | none => pure ()
      let start ← here
      let exit ← match condition with
        | some e => do
          expr e
          some <$> emitJump .jumpIfFalse e.span
        | none => pure none
      let jumps ← loopWith (statements body)
      let next ← here
      match update with
      | some e => do
        expr e
        discard (emit .pop [] e.span)
      | none => pure ()
      emitJumpTo .jump start span
      match exit with
      | some position => patchHere position span
      | none => pure ()
      let stop ← here
      patchAll stop span jumps.breaks
      patchAll next span jumps.continues
  | .breakLoop span => do
    let jump ← emitLoopExit .breakOutsideLoop span
    modifyUnit (·.addBreak jump)
  | .continueLoop span => do
    let jump ← emitLoopExit .continueOutsideLoop span
    modifyUnit (·.addContinue jump)

def statements : List Stmt → Compile Unit
  | [] => pure ()
  | s :: ss => do
    stmt s
    statements ss

end

/-- Compile statements one by one and collect the errors of those that fail. -/
def topLevel : List Stmt → Array CompileError → StateM Compiler (Array CompileError)
  | [], errors => pure errors
  | s :: ss, errors => do
    match ← (stmt s).run with
    | .ok () => topLevel ss errors
    | .error e => topLevel ss (errors.push e)

end Compile

namespace Compiler

/-- Compile a program. The names and constants of earlier programs stay, also when it fails. The
value of a last expression stays on the stack. -/
def compile (c : Compiler) (program : Program) (unitName : String) :
    Except (Array CompileError) Object × Compiler :=
  let (errors, c) := Compile.topLevel program.statements #[] { c with unit := {} }
  if errors.isEmpty then
    let unit := if c.unit.lastIs .pop then c.unit.removeLast else c.unit
    (.ok ⟨unitName, unit.code, c.constants, unit.spans⟩, { c with unit := {} })
  else (.error errors, { c with unit := {} })

end Compiler

def compile (program : Program) (unitName : String) : Except (Array CompileError) Object :=
  (Compiler.compile {} program unitName).1

end StackScript
