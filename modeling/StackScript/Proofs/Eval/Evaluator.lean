import StackScript.Machine.Step
import StackScript.Proofs.Eval.Scoping

/-! # Evaluating programs

What a program without functions means, by recursion on its tree. Operands are evaluated from left to
right, and `&&` and `||` are operators like any other. Values are computed by the operations of the
machine; there is no code and no stack. Only the number of rounds of a loop is bounded by fuel.
-/

namespace StackScript

structure Store where
  /-- A variable that was never written is null. -/
  vars : Nat → Value := fun _ => .null
  /-- The stamp of the next array or hash. -/
  nextStamp : Nat := firstStamp
  output : String := ""

/-- Why an evaluation does not get to the end of a node. -/
inductive Eval.Exit
  | fault (e : Fault)
  | broke
  | continued
  | returned (v : Value)
  /-- The fuel has run out. -/
  | exhausted
  /-- A function literal, or what no program that compiles contains. -/
  | meaningless

abbrev Eval := ExceptT Eval.Exit (StateM Store)

namespace Eval

def ofExcept {α : Type} : Except Fault α → Eval α
  | .ok a => pure a
  | .error e => throw (.fault e)

def freshStamp : Eval Nat := modifyGet fun st => (st.nextStamp, { st with nextStamp := st.nextStamp + 1 })

def copied (v : Value) : Eval Value := modifyGet fun st =>
  let (v, nextStamp) := v.copy st.nextStamp
  (v, { st with nextStamp := nextStamp })

def resolve (env : Lexical) (name : String) : Eval Place :=
  match env.place? [] name with
  | some p => pure p
  | none => throw .meaningless

def read (p : Place) : Eval Value :=
  match p.storage with
  | .globalSlot => return (← get).vars p.index
  | .builtin => return .builtin p.index
  | _ => throw .meaningless

def write (p : Place) (v : Value) : Eval Unit :=
  match p.storage with
  | .globalSlot => modify fun st =>
    { st with vars := fun i => if i = p.index then v else st.vars i }
  | _ => throw .meaningless

def assign (p : Place) (v : Value) : Eval Value := do
  let v ← copied v
  write p v
  return v

def assignElement (p : Place) (i v : Value) : Eval Value := do
  let v ← copied v
  let target ← read p
  let updated ← ofExcept (target.assignIndex (← freshStamp) i v)
  write p updated
  return v

def array (items : List Value) : Eval Value := do return .array (← freshStamp) items

def hash (ps : List (Value × Value)) : Eval Value := do
  match Entries.ofPairs [] ps with
  | .ok entries => return .hash (← freshStamp) entries
  | .error kind => throw (.fault (.unhashableKey kind))

/-- Only builtins can be called. -/
def call (callee : Value) (args : List Value) : Eval Value := do
  match callee with
  | .builtin index =>
    match Builtin.ofIndex? index with
    | none => throw (.fault (.unknownBuiltin index))
    | some b =>
      match b.apply (← freshStamp) args with
      | .error refusal => throw (.fault (.builtin refusal))
      | .ok reply =>
        modify fun st => { st with output := st.output ++ reply.printed }
        return reply.value
  | v => throw (.fault (.notCallable v.kind))

/-- One round of a loop, and whether another one may follow. -/
def round (body : Eval Unit) : Eval Bool := fun st =>
  match body st with
  | (.ok (), st) => (.ok true, st)
  | (.error .continued, st) => (.ok true, st)
  | (.error .broke, st) => (.ok false, st)
  | (.error e, st) => (.error e, st)

/-- At most `fuel` rounds of a loop. After `continue`, too, `update` comes before the next one. -/
def loop (fuel : Nat) (guard : Eval Bool) (body update : Eval Unit) : Eval Unit :=
  match fuel with
  | 0 => throw .exhausted
  | fuel + 1 => do
    if ← guard then
      if ← round body then
        update
        loop fuel guard body update

mutual

def expr (fuel : Nat) : Expr → Lexical → Nat → Eval Value
  | .int i _, _, _ => pure (.int i)
  | .decimal x _, _, _ => pure (.decimal x)
  | .str s _, _, _ => pure (.str s)
  | .bool b _, _, _ => pure (.bool b)
  | .null _, _, _ => pure .null
  | .ident name _, env, _ => do read (← resolve env name)
  | .unary op e _, env, n => do
    let v ← expr fuel e env n
    ofExcept (op.apply v)
  | .binary op left right _, env, n =>
    match op.operator? with
    | none => throw .meaningless
    | some operator => do
      let l ← expr fuel left env n
      let r ← expr fuel right env (left.taken env n)
      ofExcept (operator.apply l r)
  | .cond condition consequence alternative _, env, n => do
    let v ← expr fuel condition env n
    if v.truthy then block fuel consequence env (condition.taken env n)
    else elseBlock fuel alternative env (consequence.taken env (condition.taken env n))
  | .function _ _ _ _, _, _ => throw .meaningless
  | .call callee args _, env, n => do
    let f ← expr fuel callee env n
    let vs ← exprs fuel args env (callee.taken env n)
    call f vs
  | .array items _, env, n => do
    let vs ← exprs fuel items env n
    array vs
  | .hash ps _, env, n => do
    let vs ← pairs fuel ps env n
    hash vs
  | .index target index _, env, n => do
    let v ← expr fuel target env n
    let i ← expr fuel index env (target.taken env n)
    ofExcept (v.index i)
  | .assign (.ident name _) value _, env, n => do
    let p ← resolve env name
    let v ← expr fuel value env n
    assign p v
  | .assign (.index (.ident name _) index _) value _, env, n => do
    let p ← resolve env name
    let i ← expr fuel index env n
    let v ← expr fuel value env (index.taken env n)
    assignElement p i v
  | .assign _ _ _, _, _ => throw .meaningless

def exprs (fuel : Nat) : List Expr → Lexical → Nat → Eval (List Value)
  | [], _, _ => pure []
  | e :: es, env, n => do
    let v ← expr fuel e env n
    let vs ← exprs fuel es env (e.taken env n)
    return v :: vs

def pairs (fuel : Nat) : List (Expr × Expr) → Lexical → Nat → Eval (List (Value × Value))
  | [], _, _ => pure []
  | (key, value) :: ps, env, n => do
    let k ← expr fuel key env n
    let v ← expr fuel value env (key.taken env n)
    let vs ← pairs fuel ps env (value.taken env (key.taken env n))
    return (k, v) :: vs

def block (fuel : Nat) : Block → Lexical → Nat → Eval Value
  | .mk body _, env, n => value fuel body env.enterBlock n

def elseBlock (fuel : Nat) : Option Block → Lexical → Nat → Eval Value
  | none, _, _ => pure .null
  | some b, env, n => block fuel b env n

/-- The value of the expression that the statements end with, or null. -/
def value (fuel : Nat) : List Stmt → Lexical → Nat → Eval Value
  | [], _, _ => pure .null
  | [.expr e _], env, n => expr fuel e env n
  | s :: ss, env, n => do
    stmt fuel s env n
    value fuel ss (s.scope env n).1 (s.scope env n).2

def stmt (fuel : Nat) : Stmt → Lexical → Nat → Eval Unit
  | .bind name value _, env, n => do
    let v ← expr fuel value env n
    let _ ← assign (env.declare (value.taken env n) name.name).1 v
  | .ret none _, _, _ => throw (.returned .null)
  | .ret (some e) _, env, n => do
    let v ← expr fuel e env n
    throw (.returned v)
  | .expr e _, env, n => do
    let _ ← expr fuel e env n
  | .whileLoop condition (.mk body _) _, env, n =>
    loop fuel (do return (← expr fuel condition env n).truthy)
      (stmts fuel body env.enterBlock (condition.taken env n)) (pure ())
  | .forLoop first condition last (.mk body _) _, env, n => do
    init fuel first env.enterBlock n
    let (env₀, n₀) := initScope first env.enterBlock n
    let n₁ := clauseTaken condition env₀ n₀
    let (env₂, n₂) := scopeBehind body env₀ n₁
    loop fuel (guard fuel condition env₀ n₀) (stmts fuel body env₀ n₁) (update fuel last env₂ n₂)
  | .breakLoop _, _, _ => throw .broke
  | .continueLoop _, _, _ => throw .continued

def stmts (fuel : Nat) : List Stmt → Lexical → Nat → Eval Unit
  | [], _, _ => pure ()
  | s :: ss, env, n => do
    stmt fuel s env n
    stmts fuel ss (s.scope env n).1 (s.scope env n).2

def init (fuel : Nat) : Option Stmt → Lexical → Nat → Eval Unit
  | none, _, _ => pure ()
  | some s, env, n => stmt fuel s env n

def guard (fuel : Nat) : Option Expr → Lexical → Nat → Eval Bool
  | none, _, _ => pure true
  | some e, env, n => do return (← expr fuel e env n).truthy

def update (fuel : Nat) : Option Expr → Lexical → Nat → Eval Unit
  | none, _, _ => pure ()
  | some e, env, n => do
    let _ ← expr fuel e env n

end

end Eval

def Program.evaluate (program : Program) (fuel : Nat) : Except Eval.Exit Value × Store :=
  Eval.value fuel program.statements {} 0 {}

end StackScript
