import StackScript.Proofs.Compile.Layout

/-! # The variables of a program

Which variable a name stands for follows from the text of the program alone. Every `let` of a new name
takes the next slot of its body, in the order of the text, also where control never gets to; so what
lies behind a node can be told without running it.
-/

namespace StackScript

mutual

/-- How many slots are taken behind an expression, when `n` are before it. -/
def Expr.taken : Expr → Lexical → Nat → Nat
  | .unary _ e _, env, n => e.taken env n
  | .binary _ left right _, env, n => right.taken env (left.taken env n)
  | .cond condition consequence alternative _, env, n =>
    elseTaken alternative env (consequence.taken env (condition.taken env n))
  | .call callee args _, env, n => exprsTaken args env (callee.taken env n)
  | .array items _, env, n => exprsTaken items env n
  | .hash ps _, env, n => pairsTaken ps env n
  | .index target index _, env, n => index.taken env (target.taken env n)
  | .assign (.index _ index _) value _, env, n => value.taken env (index.taken env n)
  | .assign _ value _, env, n => value.taken env n
  | _, _, n => n

def exprsTaken : List Expr → Lexical → Nat → Nat
  | [], _, n => n
  | e :: es, env, n => exprsTaken es env (e.taken env n)

def pairsTaken : List (Expr × Expr) → Lexical → Nat → Nat
  | [], _, n => n
  | (key, value) :: ps, env, n => pairsTaken ps env (value.taken env (key.taken env n))

def Block.taken : Block → Lexical → Nat → Nat
  | .mk body _, env, n => (scopeBehind body env.enterBlock n).2

def elseTaken : Option Block → Lexical → Nat → Nat
  | none, _, n => n
  | some b, env, n => b.taken env n

def clauseTaken : Option Expr → Lexical → Nat → Nat
  | none, _, n => n
  | some e, env, n => e.taken env n

/-- The environment behind a statement and how many slots are taken there. -/
def Stmt.scope : Stmt → Lexical → Nat → Lexical × Nat
  | .bind name value _, env, n => (env.declare (value.taken env n) name.name).2
  | .ret none _, env, n => (env, n)
  | .ret (some e) _, env, n => (env, e.taken env n)
  | .expr e _, env, n => (env, e.taken env n)
  | .whileLoop condition body _, env, n => (env, body.taken env (condition.taken env n))
  | .forLoop init condition update (.mk body _) _, env, n =>
    let (env₀, n₀) := initScope init env.enterBlock n
    -- The last clause sees the names of the body.
    let (env₁, n₁) := scopeBehind body env₀ (clauseTaken condition env₀ n₀)
    (env, clauseTaken update env₁ n₁)
  | .breakLoop _, env, n => (env, n)
  | .continueLoop _, env, n => (env, n)

def initScope : Option Stmt → Lexical → Nat → Lexical × Nat
  | none, env, n => (env, n)
  | some s, env, n => s.scope env n

def scopeBehind : List Stmt → Lexical → Nat → Lexical × Nat
  | [], env, n => (env, n)
  | s :: ss, env, n =>
    let (env, n) := s.scope env n
    scopeBehind ss env n

end

section Listings

variable {pool : Array Value}

theorem Cursor.slots_skip (s : Cursor) (op : Opcode) : (s.skip op).slots = s.slots := rfl

theorem Cursor.slots_skipLoads (s : Cursor) (places : List Place) :
    (s.skipLoads places).slots = s.slots := by
  induction places generalizing s with
  | nil => rfl
  | cons p places ih => exact ih (s.skip p.load.op)

theorem ClosureCode.slots_eq {c : Setting} {s s₁ : Cursor} {self : Option String}
    {params : List Ident} {body : List Stmt} {bodySpan span : Span} {is : List Item}
    (h : ClosureCode pool c s self params body bodySpan span is s₁) : s₁.slots = s.slots := by
  cases h with
  | mk => exact s.slots_skipLoads _

mutual

theorem ExprCode.slots_eq {c : Setting} {s s₁ : Cursor} {e : Expr} {is : List Item} :
    ExprCode pool c s e is s₁ → s₁.slots = e.taken c.env s.slots
  | .constant he _ => by cases e <;> cases he <;> rfl
  | .bool | .null | .ident _ _ => rfl
  | .unary h => h.slots_eq
  | .array h => h.slots_eq
  | .hash h => h.slots_eq
  | .assign _ _ _ h => h.slots_eq
  | .binary _ h₁ h₂ => by
    rw [Expr.taken, ← h₁.slots_eq]
    exact h₂.slots_eq
  | .call h₁ h₂ => by
    rw [Expr.taken, ← h₁.slots_eq]
    exact h₂.slots_eq
  | .index h₁ h₂ => by
    rw [Expr.taken, ← h₁.slots_eq]
    exact h₂.slots_eq
  | .assignElement _ _ _ h₁ h₂ => by
    rw [Expr.taken, ← h₁.slots_eq]
    exact h₂.slots_eq
  | .cond h₁ h₂ h₃ => by
    have hcondition := h₁.slots_eq
    have hconsequence := h₂.slots_eq
    rw [Cursor.slots_skip] at hconsequence
    rw [Expr.taken, ← hcondition, ← hconsequence]
    exact h₃.slots_eq
  | .function h => h.slots_eq

theorem ExprsCode.slots_eq {c : Setting} {s s₁ : Cursor} {es : List Expr} {is : List Item} :
    ExprsCode pool c s es is s₁ → s₁.slots = exprsTaken es c.env s.slots
  | .nil => rfl
  | .cons h₁ h₂ => by
    rw [exprsTaken, ← h₁.slots_eq]
    exact h₂.slots_eq

theorem PairsCode.slots_eq {c : Setting} {s s₁ : Cursor} {ps : List (Expr × Expr)}
    {is : List Item} : PairsCode pool c s ps is s₁ → s₁.slots = pairsTaken ps c.env s.slots
  | .nil => rfl
  | .cons h₁ h₂ h₃ => by
    have hvalue := h₂.slots_eq
    simp only [Setting.above] at hvalue
    rw [pairsTaken, ← h₁.slots_eq, ← hvalue]
    exact h₃.slots_eq

theorem BranchCode.slots_eq {c : Setting} {s s₁ : Cursor} {b : Block} {is : List Item} :
    BranchCode pool c s b is s₁ → s₁.slots = b.taken c.env s.slots
  | .value h => h.slots_eq
  | .null _ h => (congrArg Prod.snd h.scope_eq).symm

theorem ElseCode.slots_eq {c : Setting} {s s₁ : Cursor} {b : Option Block} {span : Span}
    {is : List Item} : ElseCode pool c s b span is s₁ → s₁.slots = elseTaken b c.env s.slots
  | .block h => h.slots_eq
  | .null => rfl

theorem ValueCode.slots_eq {c : Setting} {s s₁ : Cursor} {ss : List Stmt} {is : List Item} :
    ValueCode pool c s ss is s₁ → s₁.slots = (scopeBehind ss c.env s.slots).2
  | .last h => h.slots_eq
  | .cons h₁ h₂ => by
    rw [scopeBehind, h₁.scope_eq]
    exact h₂.slots_eq

theorem StmtCode.scope_eq {c : Setting} {s s₁ : Cursor} {st : Stmt} {is : List Item}
    {env : Lexical} : StmtCode pool c s st is s₁ env → st.scope c.env s.slots = (env, s₁.slots)
  | .bindFunction hd _ h => by
    have hslots := h.slots_eq
    change (c.env.declare s.slots _).2 = (env, _)
    rw [hd, Cursor.slots_skip, hslots]
  | .bind _ h hd _ => by rw [Stmt.scope, ← h.slots_eq, hd]
  | .ret => rfl
  | .retValue h => by rw [Stmt.scope, ← h.slots_eq, Cursor.slots_skip]
  | .expr h => by rw [Stmt.scope, ← h.slots_eq, Cursor.slots_skip]
  | .whileLoop h₁ h₂ => by
    have hbody := h₂.scope_eq
    simp only [Setting.within, Setting.inLoop, Cursor.slots_skip] at hbody
    rw [Stmt.scope, Block.taken, ← h₁.slots_eq, hbody, Cursor.slots_skip]
  | .forLoop h₀ h₁ h₂ h₃ => by
    have hinit := h₀.scope_eq
    have hguard := h₁.slots_eq
    have hbody := h₂.scope_eq
    have hupdate := h₃.slots_eq
    simp only [Setting.within, Setting.inLoop] at hinit hguard hbody hupdate
    simp only [Stmt.scope, hinit, ← hguard, hbody, ← hupdate, Cursor.slots_skip]
  | .breakLoop _ _ hs => by subst hs; rfl
  | .continueLoop _ _ hs => by subst hs; rfl

theorem StmtsCode.scope_eq {c : Setting} {s s₁ : Cursor} {ss : List Stmt} {is : List Item}
    {env : Lexical} : StmtsCode pool c s ss is s₁ env → scopeBehind ss c.env s.slots = (env, s₁.slots)
  | .nil => rfl
  | .cons h₁ h₂ => by
    rw [scopeBehind, h₁.scope_eq]
    exact h₂.scope_eq

theorem InitCode.scope_eq {c : Setting} {s s₁ : Cursor} {st : Option Stmt} {is : List Item}
    {env : Lexical} : InitCode pool c s st is s₁ env → initScope st c.env s.slots = (env, s₁.slots)
  | .none => rfl
  | .some h => h.scope_eq

theorem GuardCode.slots_eq {c : Setting} {s s₁ : Cursor} {e : Option Expr} {stop : Nat}
    {is : List Item} : GuardCode pool c s e stop is s₁ → s₁.slots = clauseTaken e c.env s.slots
  | .none => rfl
  | .some h => h.slots_eq

theorem UpdateCode.slots_eq {c : Setting} {s s₁ : Cursor} {e : Option Expr} {is : List Item} :
    UpdateCode pool c s e is s₁ → s₁.slots = clauseTaken e c.env s.slots
  | .none => rfl
  | .some h => h.slots_eq

end

/-! The environment behind a part of the top level is at the top level. -/

theorem StmtCode.inner_eq {c : Setting} {s s₁ : Cursor} {st : Stmt}
    {is : List Item} {env : Lexical} (h : StmtCode pool c s st is s₁ env) (hc : c.env.inner = []) :
    env.inner = [] := by
  cases h with
  | bindFunction hd => exact Lexical.inner_declare hc hd
  | bind _ _ hd => exact Lexical.inner_declare hc hd
  | _ => exact hc

theorem StmtsCode.inner_eq {c : Setting} {s s₁ : Cursor} {ss : List Stmt}
    {is : List Item} {env : Lexical} (h : StmtsCode pool c s ss is s₁ env) (hc : c.env.inner = []) :
    env.inner = [] := by
  induction ss generalizing c s is with
  | nil =>
    cases h
    exact hc
  | cons st ss ih =>
    cases h with
    | cons h₁ h₂ => exact ih h₂ (h₁.inner_eq hc)

theorem InitCode.inner_eq {c : Setting} {s s₁ : Cursor} {st : Option Stmt}
    {is : List Item} {env : Lexical} (h : InitCode pool c s st is s₁ env) (hc : c.env.inner = []) :
    env.inner = [] := by
  cases h with
  | none => exact hc
  | some h => exact h.inner_eq hc

end Listings

end StackScript
