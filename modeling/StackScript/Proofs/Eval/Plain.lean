import StackScript.Proofs.Compile.Layout

/-! # Programs without functions

A program that contains no function literal, and its listing, which makes no closure.
-/

namespace StackScript

mutual

/-- Whether an expression contains no function literal. -/
def Expr.plain : Expr → Bool
  | .function _ _ _ _ => false
  | .unary _ e _ => e.plain
  | .binary _ left right _ => left.plain && right.plain
  | .cond condition consequence alternative _ =>
    condition.plain && consequence.plain && elsePlain alternative
  | .call callee args _ => callee.plain && exprsPlain args
  | .array items _ => exprsPlain items
  | .hash ps _ => pairsPlain ps
  | .index target index _ => target.plain && index.plain
  | .assign target value _ => target.plain && value.plain
  | _ => true

def exprsPlain : List Expr → Bool
  | [] => true
  | e :: es => e.plain && exprsPlain es

def pairsPlain : List (Expr × Expr) → Bool
  | [] => true
  | (key, value) :: ps => key.plain && value.plain && pairsPlain ps

def Block.plain : Block → Bool
  | .mk body _ => stmtsPlain body

def elsePlain : Option Block → Bool
  | none => true
  | some b => b.plain

def clausePlain : Option Expr → Bool
  | none => true
  | some e => e.plain

def Stmt.plain : Stmt → Bool
  | .bind _ value _ => value.plain
  | .ret value _ => clausePlain value
  | .expr e _ => e.plain
  | .whileLoop condition body _ => condition.plain && body.plain
  | .forLoop init condition update body _ =>
    initPlain init && clausePlain condition && clausePlain update && body.plain
  | .breakLoop _ => true
  | .continueLoop _ => true

def initPlain : Option Stmt → Bool
  | none => true
  | some s => s.plain

def stmtsPlain : List Stmt → Bool
  | [] => true
  | s :: ss => s.plain && stmtsPlain ss

end

def Opcode.makesClosure : Opcode → Bool
  | .closure => .true
  | _ => .false

/-- No instruction makes a closure. -/
def Closureless (is : List Item) : Prop := ∀ i ∈ is, i.op.makesClosure = false

section Closureless

variable {pool : Array Value} {is₁ is₂ : List Item} {i : Item}

theorem closureless_nil : Closureless [] := fun _ h => by cases h

theorem Closureless.append (h₁ : Closureless is₁) (h₂ : Closureless is₂) :
    Closureless (is₁ ++ is₂) := by
  intro i hi
  rcases List.mem_append.mp hi with hi | hi
  · exact h₁ i hi
  · exact h₂ i hi

theorem Closureless.single (h : i.op.makesClosure = false) : Closureless [i] := by
  intro j hj
  exact List.mem_singleton.mp hj ▸ h

theorem Closureless.last (h : Closureless is₁) (hi : i.op.makesClosure = false) : Closureless (is₁ ++ [i]) :=
  h.append (.single hi)

theorem closureless_drops (c : Setting) (s : Cursor) (span : Span) (n : Nat) :
    Closureless (c.drops s span n) := by
  induction n generalizing c s with
  | zero => exact closureless_nil
  | succ n ih => exact Closureless.append (.single rfl) (ih _ _)

theorem Place.load_makesClosure (p : Place) : p.load.op.makesClosure = false := by
  unfold Place.load
  split <;> rfl

mutual

theorem ExprCode.closureless {c : Setting} {s s₁ : Cursor} {e : Expr} {is : List Item} :
    ExprCode pool c s e is s₁ → e.plain = true → Closureless is
  | .constant _ _, _ => .single rfl
  | @ExprCode.bool _ _ _ b _, _ => .single (by cases b <;> rfl)
  | .null, _ => .single rfl
  | @ExprCode.ident _ _ _ _ _ p _ _, _ => .single p.load_makesClosure
  | .unary h, hp => (h.closureless hp).last rfl
  | .binary _ h₁ h₂, hp => by
    obtain ⟨hp₁, hp₂⟩ := Bool.and_eq_true_iff.mp hp
    exact ((h₁.closureless hp₁).append (h₂.closureless hp₂)).last rfl
  | .cond h₁ h₂ h₃, hp => by
    obtain ⟨hp, hp₃⟩ := Bool.and_eq_true_iff.mp hp
    obtain ⟨hp₁, hp₂⟩ := Bool.and_eq_true_iff.mp hp
    exact ((((h₁.closureless hp₁).last rfl).append (h₂.closureless hp₂)).last rfl).append
      (h₃.closureless hp₃)
  | .function _, hp => by cases hp
  | .call h₁ h₂, hp => by
    obtain ⟨hp₁, hp₂⟩ := Bool.and_eq_true_iff.mp hp
    exact ((h₁.closureless hp₁).append (h₂.closureless hp₂)).last rfl
  | .array h, hp => (h.closureless hp).last rfl
  | .hash h, hp => (h.closureless hp).last rfl
  | .index h₁ h₂, hp => by
    obtain ⟨hp₁, hp₂⟩ := Bool.and_eq_true_iff.mp hp
    exact ((h₁.closureless hp₁).append (h₂.closureless hp₂)).last rfl
  | @ExprCode.assign _ _ _ _ _ _ _ _ p _ _ _ _ h, hp =>
    ((h.closureless hp).last rfl).last p.load_makesClosure
  | .assignElement _ _ _ h₁ h₂, hp => by
    obtain ⟨hp₁, hp₂⟩ := Bool.and_eq_true_iff.mp hp
    exact ((h₁.closureless hp₁).append (h₂.closureless hp₂)).last rfl

theorem ExprsCode.closureless {c : Setting} {s s₁ : Cursor} {es : List Expr} {is : List Item} :
    ExprsCode pool c s es is s₁ → exprsPlain es = true → Closureless is
  | .nil, _ => closureless_nil
  | .cons h₁ h₂, hp => by
    obtain ⟨hp₁, hp₂⟩ := Bool.and_eq_true_iff.mp hp
    exact (h₁.closureless hp₁).append (h₂.closureless hp₂)

theorem PairsCode.closureless {c : Setting} {s s₁ : Cursor} {ps : List (Expr × Expr)}
    {is : List Item} : PairsCode pool c s ps is s₁ → pairsPlain ps = true → Closureless is
  | .nil, _ => closureless_nil
  | .cons h₁ h₂ h₃, hp => by
    obtain ⟨hp, hp₃⟩ := Bool.and_eq_true_iff.mp hp
    obtain ⟨hp₁, hp₂⟩ := Bool.and_eq_true_iff.mp hp
    exact ((h₁.closureless hp₁).append (h₂.closureless hp₂)).append (h₃.closureless hp₃)

theorem BranchCode.closureless {c : Setting} {s s₁ : Cursor} {b : Block} {is : List Item} :
    BranchCode pool c s b is s₁ → b.plain = true → Closureless is
  | .value h, hp => h.closureless hp
  | .null _ h, hp => (h.closureless hp).last rfl

theorem ElseCode.closureless {c : Setting} {s s₁ : Cursor} {b : Option Block} {span : Span}
    {is : List Item} : ElseCode pool c s b span is s₁ → elsePlain b = true → Closureless is
  | .block h, hp => h.closureless hp
  | .null, _ => .single rfl

theorem ValueCode.closureless {c : Setting} {s s₁ : Cursor} {ss : List Stmt} {is : List Item} :
    ValueCode pool c s ss is s₁ → stmtsPlain ss = true → Closureless is
  | .last h, hp => h.closureless (Bool.and_eq_true_iff.mp hp).1
  | .cons h₁ h₂, hp => by
    obtain ⟨hp₁, hp₂⟩ := Bool.and_eq_true_iff.mp hp
    exact (h₁.closureless hp₁).append (h₂.closureless hp₂)

theorem StmtCode.closureless {c : Setting} {s s₁ : Cursor} {st : Stmt} {is : List Item}
    {env : Lexical} : StmtCode pool c s st is s₁ env → st.plain = true → Closureless is
  | .bindFunction _ _ _, hp => by cases hp
  | .bind _ h _ _, hp => (h.closureless hp).last rfl
  | .ret, _ => .single rfl
  | .retValue h, hp => (h.closureless hp).last rfl
  | .expr h, hp => (h.closureless hp).last rfl
  | .whileLoop h₁ h₂, hp => by
    obtain ⟨hp₁, hp₂⟩ := Bool.and_eq_true_iff.mp hp
    exact (((h₁.closureless hp₁).last rfl).append (h₂.closureless hp₂)).last rfl
  | .forLoop h₀ h₁ h₂ h₃, hp => by
    obtain ⟨hp, hp₂⟩ := Bool.and_eq_true_iff.mp hp
    obtain ⟨hp, hp₃⟩ := Bool.and_eq_true_iff.mp hp
    obtain ⟨hp₀, hp₁⟩ := Bool.and_eq_true_iff.mp hp
    exact ((((h₀.closureless hp₀).append (h₁.closureless hp₁)).append (h₂.closureless hp₂)).append
      (h₃.closureless hp₃)).last rfl
  | .breakLoop _ _ _, _ => (closureless_drops _ _ _ _).last rfl
  | .continueLoop _ _ _, _ => (closureless_drops _ _ _ _).last rfl

theorem StmtsCode.closureless {c : Setting} {s s₁ : Cursor} {ss : List Stmt} {is : List Item}
    {env : Lexical} : StmtsCode pool c s ss is s₁ env → stmtsPlain ss = true → Closureless is
  | .nil, _ => closureless_nil
  | .cons h₁ h₂, hp => by
    obtain ⟨hp₁, hp₂⟩ := Bool.and_eq_true_iff.mp hp
    exact (h₁.closureless hp₁).append (h₂.closureless hp₂)

theorem InitCode.closureless {c : Setting} {s s₁ : Cursor} {st : Option Stmt} {is : List Item}
    {env : Lexical} : InitCode pool c s st is s₁ env → initPlain st = true → Closureless is
  | .none, _ => closureless_nil
  | .some h, hp => h.closureless hp

theorem GuardCode.closureless {c : Setting} {s s₁ : Cursor} {e : Option Expr} {stop : Nat}
    {is : List Item} : GuardCode pool c s e stop is s₁ → clausePlain e = true → Closureless is
  | .none, _ => closureless_nil
  | .some h, hp => (h.closureless hp).last rfl

theorem UpdateCode.closureless {c : Setting} {s s₁ : Cursor} {e : Option Expr} {is : List Item} :
    UpdateCode pool c s e is s₁ → clausePlain e = true → Closureless is
  | .none, _ => closureless_nil
  | .some h, hp => (h.closureless hp).last rfl

end

end Closureless

end StackScript
