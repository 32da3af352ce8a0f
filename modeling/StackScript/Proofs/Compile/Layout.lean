import StackScript.Compile.Program
import StackScript.Proofs.Code.Assembly
import StackScript.Proofs.Scope.Lexical

/-! # Layout of compiled code

Which instructions stand for which part of a program. The rules follow the tree: each gives the
listing of a node from those of its parts, with the targets of all jumps in place. Names are read
through the lexical environment, and every instruction carries the number of operands that its call
has on the stack before it.
-/

namespace StackScript

structure Literal where
  /-- The environment around the literal. -/
  env : Lexical
  self : Option String
  params : List Ident
  body : List Stmt
  /-- The names that the literal captures, in the order of the captured values. -/
  names : List String

structure Item extends Instruction where
  offset : Nat
  span : Span
  /-- How many operands of the call are on the stack before the instruction. -/
  height : Nat
  /-- The places whose values were loaded just before, to be captured. -/
  loaded : List Place := []
  /-- The function literal of an instruction that makes a closure. -/
  literal : Option Literal := none

/-- Looking an instruction of the listing up gives its span, as long as its offset can be told from the
largest one. -/
def SpanMap.Locates (m : SpanMap) (is : List Item) : Prop :=
  ∀ i ∈ is, i.offset < Span.maxOffset → m.spanAt? i.offset = some i.span

/-- Where a listing continues: the next offset, and how many slots of the body and how many constants
are taken. -/
structure Cursor where
  offset : Nat
  slots : Nat
  constants : Nat
deriving DecidableEq, Repr

def Cursor.skip (s : Cursor) (op : Opcode) : Cursor := { s with offset := s.offset + op.length }

def Cursor.addConstant (s : Cursor) : Cursor := { s with constants := s.constants + 1 }

/-- Where `break` and `continue` lead to, and how many operands are on the stack there. -/
structure LoopExit where
  breakTo : Nat
  continueTo : Nat
  height : Nat
deriving DecidableEq, Repr

structure Setting where
  env : Lexical
  /-- The names captured by the function of the body. -/
  captured : List String
  loop : Option LoopExit
  /-- How many operands of the call are on the stack before the node. -/
  height : Nat

namespace Setting

def above (c : Setting) (n : Nat) : Setting := { c with height := c.height + n }

def within (c : Setting) (env : Lexical) : Setting := { c with env := env }

def inLoop (c : Setting) (exit : LoopExit) : Setting := { c with loop := some exit }

def item (c : Setting) (s : Cursor) (i : Instruction) (span : Span) : Item :=
  { i with offset := s.offset, span := span, height := c.height }

def loads (c : Setting) (s : Cursor) (span : Span) (loaded : List Place) : List Place → List Item
  | [] => []
  | p :: ps =>
    { c.item s p.load span with loaded := loaded } ::
      (c.above 1).loads (s.skip p.load.op) span (loaded ++ [p]) ps

def drops (c : Setting) (s : Cursor) (span : Span) : Nat → List Item
  | 0 => []
  | n + 1 =>
    c.item s ⟨.pop, []⟩ span :: { c with height := c.height - 1 }.drops (s.skip .pop) span n

end Setting

def Cursor.skipLoads (s : Cursor) : List Place → Cursor
  | [] => s
  | p :: ps => (s.skip p.load.op).skipLoads ps

def Expr.constant? : Expr → Option Value
  | .int n _ => some (.int n)
  | .decimal x _ => some (.decimal x)
  | .str s _ => some (.str s)
  | _ => none

def Expr.isFunction : Expr → Bool
  | .function _ _ _ _ => true
  | _ => false

/-- How a list of statements, or its code, ends. -/
inductive Ending
  /-- With an expression, whose value can be kept. -/
  | value
  | returned
  | other
deriving DecidableEq, Repr

def Stmt.ending : Stmt → Ending
  | .expr _ _ => .value
  | .ret _ _ => .returned
  | _ => .other

/-- How a list of statements ends; an empty one has no value. -/
def ending : List Stmt → Ending
  | [] => .other
  | [s] => s.ending
  | _ :: ss => ending ss

def Ending.height : Ending → Nat
  | .value => 1
  | _ => 0

theorem Ending.height_le (how : Ending) : how.height ≤ 1 := by
  cases how <;> decide

def valueSpan : List Stmt → Span
  | [] => .nowhere
  | [.expr e _] => e.span
  | _ :: ss => valueSpan ss

mutual

/-- The listing of an expression: it leaves one more operand. -/
inductive ExprCode (pool : Array Value) : Setting → Cursor → Expr → List Item → Cursor → Prop
  | constant {c : Setting} {s : Cursor} {e : Expr} {v : Value} : e.constant? = some v →
      pool[s.constants]? = some v →
      ExprCode pool c s e [c.item s ⟨.constant, [s.constants]⟩ e.span]
        (s.skip .constant).addConstant
  | bool {c : Setting} {s : Cursor} {b : Bool} {span : Span} :
      ExprCode pool c s (.bool b span) [c.item s ⟨if b then .true else .false, []⟩ span]
        (s.skip (if b then .true else .false))
  | null {c : Setting} {s : Cursor} {span : Span} :
      ExprCode pool c s (.null span) [c.item s ⟨.null, []⟩ span] (s.skip .null)
  | ident {c : Setting} {s : Cursor} {name : String} {span : Span} {place : Place} :
      c.env.place? c.captured name = some place → place.index < Storage.slotLimit →
      ExprCode pool c s (.ident name span) [c.item s place.load span] (s.skip place.load.op)
  | unary {c : Setting} {s s₁ : Cursor} {op : UnaryOp} {e : Expr} {span : Span} {is : List Item} :
      ExprCode pool c s e is s₁ →
      ExprCode pool c s (.unary op e span) (is ++ [(c.above 1).item s₁ ⟨.unary op, []⟩ span])
        (s₁.skip (.unary op))
  | binary {c : Setting} {s s₁ s₂ : Cursor} {op : BinaryOp} {operator : Operator}
      {left right : Expr} {span : Span} {is₁ is₂ : List Item} : op.operator? = some operator →
      ExprCode pool c s left is₁ s₁ → ExprCode pool (c.above 1) s₁ right is₂ s₂ →
      ExprCode pool c s (.binary op left right span)
        (is₁ ++ is₂ ++ [(c.above 2).item s₂ ⟨.binary operator, []⟩ span])
        (s₂.skip (.binary operator))
  | cond {c : Setting} {s s₁ s₂ s₃ : Cursor} {condition : Expr} {consequence : Block}
      {alternative : Option Block} {span : Span} {is₁ is₂ is₃ : List Item} :
      ExprCode pool c s condition is₁ s₁ →
      BranchCode pool c (s₁.skip .jumpIfFalse) consequence is₂ s₂ →
      ElseCode pool c (s₂.skip .jump) alternative span is₃ s₃ →
      ExprCode pool c s (.cond condition consequence alternative span)
        (is₁ ++ [(c.above 1).item s₁ ⟨.jumpIfFalse, [(s₂.skip .jump).offset]⟩ span] ++ is₂ ++
          [(c.above 1).item s₂ ⟨.jump, [s₃.offset]⟩ span] ++ is₃) s₃
  | function {c : Setting} {s s₁ : Cursor} {self : Option String} {params : List Ident}
      {body : List Stmt} {bodySpan span : Span} {is : List Item} :
      ClosureCode pool c s self params body bodySpan span is s₁ →
      ExprCode pool c s (.function self params (.mk body bodySpan) span) is s₁
  | call {c : Setting} {s s₁ s₂ : Cursor} {callee : Expr} {args : List Expr} {span : Span}
      {is₁ is₂ : List Item} : ExprCode pool c s callee is₁ s₁ →
      ExprsCode pool (c.above 1) s₁ args is₂ s₂ →
      ExprCode pool c s (.call callee args span)
        (is₁ ++ is₂ ++ [(c.above (1 + args.length)).item s₂ ⟨.call, [args.length]⟩ span])
        (s₂.skip .call)
  | array {c : Setting} {s s₁ : Cursor} {items : List Expr} {span : Span} {is : List Item} :
      ExprsCode pool c s items is s₁ →
      ExprCode pool c s (.array items span)
        (is ++ [(c.above items.length).item s₁ ⟨.array, [items.length]⟩ span]) (s₁.skip .array)
  | hash {c : Setting} {s s₁ : Cursor} {pairs : List (Expr × Expr)} {span : Span}
      {is : List Item} : PairsCode pool c s pairs is s₁ →
      ExprCode pool c s (.hash pairs span)
        (is ++ [(c.above (2 * pairs.length)).item s₁ ⟨.hash, [2 * pairs.length]⟩ span])
        (s₁.skip .hash)
  | index {c : Setting} {s s₁ s₂ : Cursor} {target index : Expr} {span : Span}
      {is₁ is₂ : List Item} : ExprCode pool c s target is₁ s₁ →
      ExprCode pool (c.above 1) s₁ index is₂ s₂ →
      ExprCode pool c s (.index target index span)
        (is₁ ++ is₂ ++ [(c.above 2).item s₂ ⟨.index, []⟩ span]) (s₂.skip .index)
  | assign {c : Setting} {s s₁ : Cursor} {name : String} {targetSpan span : Span} {value : Expr}
      {place : Place} {is : List Item} : c.env.place? c.captured name = some place →
      place.index < Storage.slotLimit → place.storage.assignable = true →
      ExprCode pool c s value is s₁ →
      ExprCode pool c s (.assign (.ident name targetSpan) value span)
        (is ++ [(c.above 1).item s₁ ⟨.set, [place.operand]⟩ span] ++
          [c.item (s₁.skip .set) place.load span]) ((s₁.skip .set).skip place.load.op)
  | assignElement {c : Setting} {s s₁ s₂ : Cursor} {name : String}
      {nameSpan targetSpan span : Span} {index value : Expr} {place : Place}
      {is₁ is₂ : List Item} : c.env.place? c.captured name = some place →
      place.index < Storage.slotLimit → place.storage.assignable = true →
      ExprCode pool c s index is₁ s₁ → ExprCode pool (c.above 1) s₁ value is₂ s₂ →
      ExprCode pool c s (.assign (.index (.ident name nameSpan) index targetSpan) value span)
        (is₁ ++ is₂ ++ [(c.above 2).item s₂ ⟨.setElement, [place.operand]⟩ span])
        (s₂.skip .setElement)

inductive ExprsCode (pool : Array Value) : Setting → Cursor → List Expr → List Item → Cursor → Prop
  | nil {c : Setting} {s : Cursor} : ExprsCode pool c s [] [] s
  | cons {c : Setting} {s s₁ s₂ : Cursor} {e : Expr} {es : List Expr} {is₁ is₂ : List Item} :
      ExprCode pool c s e is₁ s₁ → ExprsCode pool (c.above 1) s₁ es is₂ s₂ →
      ExprsCode pool c s (e :: es) (is₁ ++ is₂) s₂

inductive PairsCode (pool : Array Value) :
    Setting → Cursor → List (Expr × Expr) → List Item → Cursor → Prop
  | nil {c : Setting} {s : Cursor} : PairsCode pool c s [] [] s
  | cons {c : Setting} {s s₁ s₂ s₃ : Cursor} {key value : Expr} {pairs : List (Expr × Expr)}
      {is₁ is₂ is₃ : List Item} : ExprCode pool c s key is₁ s₁ →
      ExprCode pool (c.above 1) s₁ value is₂ s₂ → PairsCode pool (c.above 2) s₂ pairs is₃ s₃ →
      PairsCode pool c s ((key, value) :: pairs) (is₁ ++ is₂ ++ is₃) s₃

/-- The listing of a branch of a conditional: the value of its last expression, or null. -/
inductive BranchCode (pool : Array Value) : Setting → Cursor → Block → List Item → Cursor → Prop
  | value {c : Setting} {s s₁ : Cursor} {body : List Stmt} {span : Span} {is : List Item} :
      ValueCode pool (c.within c.env.enterBlock) s body is s₁ →
      BranchCode pool c s (.mk body span) is s₁
  | null {c : Setting} {s s₁ : Cursor} {body : List Stmt} {span : Span} {env : Lexical}
      {is : List Item} : ending body ≠ .value →
      StmtsCode pool (c.within c.env.enterBlock) s body is s₁ env →
      BranchCode pool c s (.mk body span) (is ++ [c.item s₁ ⟨.null, []⟩ span]) (s₁.skip .null)

/-- The listing of the branch that is taken when the condition is false. -/
inductive ElseCode (pool : Array Value) :
    Setting → Cursor → Option Block → Span → List Item → Cursor → Prop
  | block {c : Setting} {s s₁ : Cursor} {b : Block} {span : Span} {is : List Item} :
      BranchCode pool c s b is s₁ → ElseCode pool c s (some b) span is s₁
  | null {c : Setting} {s : Cursor} {span : Span} :
      ElseCode pool c s none span [c.item s ⟨.null, []⟩ span] (s.skip .null)

/-- The listing of a function literal. Its body is a function constant; the values of the names that
it captures are loaded from where the body around has them. Its own name and its parameters are not
among those. -/
inductive ClosureCode (pool : Array Value) : Setting → Cursor → Option String → List Ident →
    List Stmt → Span → Span → List Item → Cursor → Prop
  | mk {c : Setting} {s s₁ : Cursor} {self : Option String} {params : List Ident}
      {body : List Stmt} {bodySpan span : Span} {names : List String} {places : List Place}
      {f : Function} {is : List Item} :
      FunctionCode pool c.env names s.constants self params body bodySpan f is s₁ →
      pool[s₁.constants]? = some (.function f) →
      names.map (c.env.place? c.captured) = places.map some →
      (∀ name ∈ names, c.env.enclosed name = true ∧
        (c.env.enterFunction self (params.map (·.name))).binds name = false) →
      (∀ p ∈ places, p.index < Storage.slotLimit) →
      ClosureCode pool c s self params body bodySpan span
        (c.loads s span [] places ++
          [{ (c.above places.length).item (s.skipLoads places)
              ⟨.closure, [s₁.constants, names.length]⟩ span with
            loaded := places
            literal := some ⟨c.env, self, params, body, names⟩ }])
        { (s.skipLoads places).skip .closure with constants := s₁.constants + 1 }

/-- The listing of a function body that captures `names`, as a function constant. -/
inductive FunctionCode (pool : Array Value) : Lexical → List String → Nat → Option String →
    List Ident → List Stmt → Span → Function → List Item → Cursor → Prop
  | mk {env : Lexical} {names : List String} {constants : Nat} {self : Option String}
      {params : List Ident} {body : List Stmt} {bodySpan : Span} {f : Function} {is : List Item}
      {s₁ : Cursor} :
      BodyCode pool ⟨env.enterFunction self (params.map (·.name)), names, none, 0⟩
        ⟨0, params.length, constants⟩ body bodySpan is s₁ →
      (∀ i ∈ is, i.Fits) → f.code.toList = assemble (is.map (·.toInstruction)) →
      f.locals = s₁.slots → f.params = params.length → f.name = self → f.spans.Locates is →
      FunctionCode pool env names constants self params body bodySpan f is s₁

/-- The listing of a function body: it returns the value of its last expression, or null. -/
inductive BodyCode (pool : Array Value) :
    Setting → Cursor → List Stmt → Span → List Item → Cursor → Prop
  | value {c : Setting} {s s₁ : Cursor} {body : List Stmt} {span : Span} {is : List Item} :
      ValueCode pool c s body is s₁ →
      BodyCode pool c s body span
        (is ++ [(c.above 1).item s₁ ⟨.retValue, []⟩ (valueSpan body)]) (s₁.skip .retValue)
  | returned {c : Setting} {s s₁ : Cursor} {body : List Stmt} {span : Span} {env : Lexical}
      {is : List Item} : ending body = .returned → StmtsCode pool c s body is s₁ env →
      BodyCode pool c s body span is s₁
  | null {c : Setting} {s s₁ : Cursor} {body : List Stmt} {span : Span} {env : Lexical}
      {is : List Item} : ending body = .other → StmtsCode pool c s body is s₁ env →
      BodyCode pool c s body span (is ++ [c.item s₁ ⟨.ret, []⟩ span]) (s₁.skip .ret)

/-- The listing of statements that end with an expression, whose value stays on the stack. -/
inductive ValueCode (pool : Array Value) : Setting → Cursor → List Stmt → List Item → Cursor → Prop
  | last {c : Setting} {s s₁ : Cursor} {e : Expr} {span : Span} {is : List Item} :
      ExprCode pool c s e is s₁ → ValueCode pool c s [.expr e span] is s₁
  | cons {c : Setting} {s s₁ s₂ : Cursor} {stmt : Stmt} {ss : List Stmt} {env : Lexical}
      {is₁ is₂ : List Item} : StmtCode pool c s stmt is₁ s₁ env →
      ValueCode pool (c.within env) s₁ ss is₂ s₂ → ValueCode pool c s (stmt :: ss) (is₁ ++ is₂) s₂

/-- The listing of a statement: it leaves as many operands as there were. The last index is the
environment behind it. -/
inductive StmtCode (pool : Array Value) :
    Setting → Cursor → Stmt → List Item → Cursor → Lexical → Prop
  | bindFunction {c : Setting} {s s₁ : Cursor} {name : Ident} {own : Option String}
      {params : List Ident} {body : List Stmt} {bodySpan valueSpan span : Span} {place : Place}
      {env : Lexical} {slots : Nat} {is : List Item} :
      c.env.declare s.slots name.name = (place, env, slots) → place.index < Storage.slotLimit →
      ClosureCode pool (c.within env) { s with slots := slots } (own.or (some name.name)) params
        body bodySpan valueSpan is s₁ →
      StmtCode pool c s (.bind name (.function own params (.mk body bodySpan) valueSpan) span)
        (is ++ [(c.above 1).item s₁ ⟨.set, [place.operand]⟩ span]) (s₁.skip .set) env
  | bind {c : Setting} {s s₁ : Cursor} {name : Ident} {value : Expr} {span : Span} {place : Place}
      {env : Lexical} {slots : Nat} {is : List Item} : value.isFunction = false →
      ExprCode pool c s value is s₁ →
      c.env.declare s₁.slots name.name = (place, env, slots) → place.index < Storage.slotLimit →
      StmtCode pool c s (.bind name value span)
        (is ++ [(c.above 1).item s₁ ⟨.set, [place.operand]⟩ span])
        { s₁.skip .set with slots := slots } env
  | ret {c : Setting} {s : Cursor} {span : Span} :
      StmtCode pool c s (.ret none span) [c.item s ⟨.ret, []⟩ span] (s.skip .ret) c.env
  | retValue {c : Setting} {s s₁ : Cursor} {e : Expr} {span : Span} {is : List Item} :
      ExprCode pool c s e is s₁ →
      StmtCode pool c s (.ret (some e) span)
        (is ++ [(c.above 1).item s₁ ⟨.retValue, []⟩ span]) (s₁.skip .retValue) c.env
  | expr {c : Setting} {s s₁ : Cursor} {e : Expr} {span : Span} {is : List Item} :
      ExprCode pool c s e is s₁ →
      StmtCode pool c s (.expr e span) (is ++ [(c.above 1).item s₁ ⟨.pop, []⟩ e.span])
        (s₁.skip .pop) c.env
  | whileLoop {c : Setting} {s s₁ s₂ : Cursor} {condition : Expr} {body : List Stmt}
      {bodySpan span : Span} {env : Lexical} {is₁ is₂ : List Item} :
      ExprCode pool c s condition is₁ s₁ →
      StmtsCode pool ((c.within c.env.enterBlock).inLoop
        ⟨(s₂.skip .jump).offset, s.offset, c.height⟩) (s₁.skip .jumpIfFalse) body is₂ s₂ env →
      StmtCode pool c s (.whileLoop condition (.mk body bodySpan) span)
        (is₁ ++ [(c.above 1).item s₁ ⟨.jumpIfFalse, [(s₂.skip .jump).offset]⟩ condition.span] ++
          is₂ ++ [c.item s₂ ⟨.jump, [s.offset]⟩ span]) (s₂.skip .jump) c.env
  | forLoop {c : Setting} {s s₀ s₁ s₂ s₃ : Cursor} {init : Option Stmt}
      {condition update : Option Expr} {body : List Stmt} {bodySpan span : Span}
      {env₀ env₂ : Lexical} {is₀ is₁ is₂ is₃ : List Item} :
      InitCode pool (c.within c.env.enterBlock) s init is₀ s₀ env₀ →
      GuardCode pool (c.within env₀) s₀ condition (s₃.skip .jump).offset is₁ s₁ →
      StmtsCode pool ((c.within env₀).inLoop ⟨(s₃.skip .jump).offset, s₂.offset, c.height⟩) s₁ body
        is₂ s₂ env₂ →
      UpdateCode pool (c.within env₂) s₂ update is₃ s₃ →
      StmtCode pool c s (.forLoop init condition update (.mk body bodySpan) span)
        (is₀ ++ is₁ ++ is₂ ++ is₃ ++ [c.item s₃ ⟨.jump, [s₀.offset]⟩ span]) (s₃.skip .jump) c.env
  | breakLoop {c : Setting} {s s₁ : Cursor} {exit : LoopExit} {n : Nat} {span : Span} :
      c.loop = some exit → c.height = exit.height + n →
      s₁ = { s with offset := s.offset + n } →
      StmtCode pool c s (.breakLoop span)
        (c.drops s span n ++ [{ c with height := exit.height }.item s₁
          ⟨.jump, [exit.breakTo]⟩ span]) (s₁.skip .jump) c.env
  | continueLoop {c : Setting} {s s₁ : Cursor} {exit : LoopExit} {n : Nat} {span : Span} :
      c.loop = some exit → c.height = exit.height + n →
      s₁ = { s with offset := s.offset + n } →
      StmtCode pool c s (.continueLoop span)
        (c.drops s span n ++ [{ c with height := exit.height }.item s₁
          ⟨.jump, [exit.continueTo]⟩ span]) (s₁.skip .jump) c.env

inductive StmtsCode (pool : Array Value) :
    Setting → Cursor → List Stmt → List Item → Cursor → Lexical → Prop
  | nil {c : Setting} {s : Cursor} : StmtsCode pool c s [] [] s c.env
  | cons {c : Setting} {s s₁ s₂ : Cursor} {stmt : Stmt} {ss : List Stmt} {env₁ env₂ : Lexical}
      {is₁ is₂ : List Item} : StmtCode pool c s stmt is₁ s₁ env₁ →
      StmtsCode pool (c.within env₁) s₁ ss is₂ s₂ env₂ →
      StmtsCode pool c s (stmt :: ss) (is₁ ++ is₂) s₂ env₂

inductive InitCode (pool : Array Value) :
    Setting → Cursor → Option Stmt → List Item → Cursor → Lexical → Prop
  | none {c : Setting} {s : Cursor} : InitCode pool c s none [] s c.env
  | some {c : Setting} {s s₁ : Cursor} {stmt : Stmt} {env : Lexical} {is : List Item} :
      StmtCode pool c s stmt is s₁ env → InitCode pool c s (some stmt) is s₁ env

inductive GuardCode (pool : Array Value) :
    Setting → Cursor → Option Expr → Nat → List Item → Cursor → Prop
  | none {c : Setting} {s : Cursor} {stop : Nat} : GuardCode pool c s none stop [] s
  | some {c : Setting} {s s₁ : Cursor} {e : Expr} {stop : Nat} {is : List Item} :
      ExprCode pool c s e is s₁ →
      GuardCode pool c s (some e) stop
        (is ++ [(c.above 1).item s₁ ⟨.jumpIfFalse, [stop]⟩ e.span]) (s₁.skip .jumpIfFalse)

inductive UpdateCode (pool : Array Value) :
    Setting → Cursor → Option Expr → List Item → Cursor → Prop
  | none {c : Setting} {s : Cursor} : UpdateCode pool c s none [] s
  | some {c : Setting} {s s₁ : Cursor} {e : Expr} {is : List Item} :
      ExprCode pool c s e is s₁ →
      UpdateCode pool c s (some e) (is ++ [(c.above 1).item s₁ ⟨.pop, []⟩ e.span]) (s₁.skip .pop)

end

/-- The listing of a program: the value of its last expression stays on the stack. -/
inductive ProgramCode (pool : Array Value) (env : Lexical) (s : Cursor) (body : List Stmt) :
    List Item → Cursor → Prop
  | value {s₁ : Cursor} {is : List Item} : ValueCode pool ⟨env, [], none, 0⟩ s body is s₁ →
      ProgramCode pool env s body is s₁
  | other {s₁ : Cursor} {env₁ : Lexical} {is : List Item} : ending body ≠ .value →
      StmtsCode pool ⟨env, [], none, 0⟩ s body is s₁ env₁ → ProgramCode pool env s body is s₁

def Opcode.ending : Opcode → Ending
  | .pop => .value
  | .ret | .retValue => .returned
  | _ => .other

section Endings

variable {pool : Array Value} {c : Setting} {s s₁ : Cursor} {st : Stmt} {ss : List Stmt}
  {is : List Item} {env : Lexical}

theorem StmtCode.exists_last (h : StmtCode pool c s st is s₁ env) :
    ∃ init i, is = init ++ [i] ∧ i.op.ending = st.ending := by
  cases h with
  | ret => exact ⟨[], _, rfl, rfl⟩
  | _ => exact ⟨_, _, rfl, rfl⟩

theorem StmtsCode.exists_last (h : StmtsCode pool c s ss is s₁ env) (hs : ss ≠ []) :
    ∃ init i, is = init ++ [i] ∧ i.op.ending = ending ss := by
  induction ss generalizing c s is with
  | nil => exact absurd rfl hs
  | cons st ss ih =>
    cases h with
    | cons h₁ h₂ =>
      cases ss with
      | nil =>
        cases h₂
        simpa [ending] using h₁.exists_last
      | cons st' ss =>
        obtain ⟨init, i, rfl, hi⟩ := ih h₂ (List.cons_ne_nil _ _)
        exact ⟨_ ++ init, i, (List.append_assoc ..).symm, hi⟩

theorem StmtsCode.exists_value (h : StmtsCode pool c s ss is s₁ env) (he : ending ss = .value) :
    ∃ init s₀, is = init ++ [(c.above 1).item s₀ ⟨.pop, []⟩ (valueSpan ss)] ∧ s₁ = s₀.skip .pop ∧
      ValueCode pool c s ss init s₀ := by
  induction ss generalizing c s is with
  | nil => cases he
  | cons st ss ih =>
    cases h with
    | cons h₁ h₂ =>
      cases ss with
      | nil =>
        cases h₂
        cases h₁ with
        | expr h => exact ⟨_, _, by simp [valueSpan], rfl, .last h⟩
        | _ => cases he
      | cons st' ss =>
        obtain ⟨init, s₀, rfl, hs, hv⟩ := ih h₂ he
        have hspan : valueSpan (st :: st' :: ss) = valueSpan (st' :: ss) := by
          cases st <;> rfl
        exact ⟨_ ++ init, s₀, hspan ▸ (List.append_assoc ..).symm, hs, .cons h₁ hv⟩

theorem ValueCode.ending_eq (h : ValueCode pool c s ss is s₁) : ending ss = .value := by
  induction ss generalizing c s is with
  | nil => cases h
  | cons st ss ih =>
    cases h with
    | last h => rfl
    | cons h₁ h₂ =>
      cases ss with
      | nil => cases h₂
      | cons st' ss => exact ih h₂

end Endings

end StackScript
