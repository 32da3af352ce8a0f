import Mathlib.Algebra.Order.BigOperators.Group.Finset
import StackScript.Proofs.Code.Assembly
import StackScript.Proofs.Compile.Validity

/-! # The size of programs

What the code of a program takes, counted along the tree. An instruction has 14 bits for a slot and 16
bits for a constant or an offset, so a program is within the limits if its constants, the code of each of
its bodies, and the slots and the captured names of each body can be told apart by these.
-/

namespace StackScript

/-- What a function body takes: bytes of code, slots of locals, captured names. -/
structure BodySize where
  bytes : Nat
  locals : Nat
  captured : Nat

/-- What a part of a program adds to the constants and to the function body that it is in. -/
@[ext] structure Size where
  constants : Nat := 0
  bytes : Nat := 0
  slots : Nat := 0
  /-- The names that belong to a function body around that one. -/
  captured : Finset String := ∅
  /-- The function bodies in the part. -/
  bodies : List BodySize := []

namespace Size

instance : Zero Size := ⟨{}⟩

instance : Add Size := ⟨fun m n => ⟨m.constants + n.constants, m.bytes + n.bytes, m.slots + n.slots,
  m.captured ∪ n.captured, m.bodies ++ n.bodies⟩⟩

section Fields

variable (m n : Size)

@[simp] theorem constants_zero : (0 : Size).constants = 0 := rfl
@[simp] theorem bytes_zero : (0 : Size).bytes = 0 := rfl
@[simp] theorem slots_zero : (0 : Size).slots = 0 := rfl
@[simp] theorem captured_zero : (0 : Size).captured = ∅ := rfl
@[simp] theorem bodies_zero : (0 : Size).bodies = [] := rfl
@[simp] theorem constants_add : (m + n).constants = m.constants + n.constants := rfl
@[simp] theorem bytes_add : (m + n).bytes = m.bytes + n.bytes := rfl
@[simp] theorem slots_add : (m + n).slots = m.slots + n.slots := rfl
@[simp] theorem captured_add : (m + n).captured = m.captured ∪ n.captured := rfl
@[simp] theorem bodies_add : (m + n).bodies = m.bodies ++ n.bodies := rfl

end Fields

instance : AddMonoid Size where
  add_assoc l m n := by ext <;> simp [Nat.add_assoc]
  zero_add n := by ext <;> simp
  add_zero n := by ext <;> simp
  nsmul := nsmulRec

/-- The first part takes no more than the second one. -/
structure Within (m n : Size) : Prop where
  constants : m.constants ≤ n.constants
  bytes : m.bytes ≤ n.bytes
  slots : m.slots ≤ n.slots
  captured : m.captured ⊆ n.captured
  bodies : m.bodies ⊆ n.bodies

theorem Within.left (m n : Size) : m.Within (m + n) :=
  ⟨Nat.le_add_right _ _, Nat.le_add_right _ _, Nat.le_add_right _ _, Finset.subset_union_left,
    List.subset_append_left _ _⟩

theorem Within.add {m m' : Size} (h : m.Within m') (n : Size) : (m + n).Within (m' + n) :=
  ⟨Nat.add_le_add_right h.constants _, Nat.add_le_add_right h.bytes _,
    Nat.add_le_add_right h.slots _, Finset.union_subset_union_left h.captured,
    List.append_subset_of_subset_of_subset (List.subset_append_of_subset_left _ h.bodies)
      (List.subset_append_right _ _)⟩

def instruction (op : Opcode) : Size := { bytes := op.length }

def constant : Size := { constants := 1 }

def literal : Size := constant + instruction .constant

/-- The exit of a loop that drops `pending` operands first; outside of loops there is none. -/
def exit : Option Nat → Size
  | some pending => { bytes := pending * Opcode.pop.length + Opcode.jump.length }
  | none => {}

end Size

namespace Visible

variable (γ : Visible) (name : String)

def captures : Size := { captured := if γ.origin name = some .outerBody then {name} else ∅ }

/-- Loading a name. A function loads itself by an instruction of its own. -/
def load : Size :=
  .instruction (if γ.origin name = some .itself then .currentClosure else .get)

/-- A `let` takes a slot, unless it writes to a variable that is there. -/
def declares : Size := { slots := if γ.assigns name then 0 else 1 }

/-- The names that a body has captured, loaded where its literal stands. -/
def loads (names : Finset String) : Size where
  bytes := ∑ name ∈ names, (γ.load name).bytes
  captured := names.filter fun name => γ.origin name = some .outerBody

/-- A function literal: its body and parameters, and what makes a closure of it. -/
def closure (params : Nat) (body : Size) : Size :=
  { constants := body.constants
    bodies := ⟨body.bytes, params + body.slots, body.captured.card⟩ :: body.bodies } +
  (γ.loads body.captured + (.constant + .instruction .closure))

theorem loads_insert {names : Finset String} (h : name ∉ names) :
    γ.loads (insert name names) = γ.captures name + (γ.load name + γ.loads names) := by
  ext
  · rfl
  · simp [loads, captures, Finset.sum_insert h]
  · rfl
  · by_cases ho : γ.origin name = some .outerBody <;>
      simp [loads, captures, load, Size.instruction, Finset.filter_insert, ho]
  · rfl

theorem loads_within {names names' : Finset String} (h : names ⊆ names') :
    (γ.loads names).Within (γ.loads names') :=
  ⟨Nat.le_refl _, Finset.sum_le_sum_of_subset h, Nat.le_refl _, Finset.filter_subset_filter _ h,
    List.Subset.refl _⟩

end Visible

/-- What becomes of the value of the last statement: it is dropped like others, or it is the value of a
branch, or it is returned. -/
inductive Closing
  | plain | branch | body

def Stmt.drop : Stmt → Size
  | .expr _ _ => .instruction .pop
  | .bind _ _ _ | .ret _ _ | .whileLoop _ _ _ | .forLoop _ _ _ _ _ | .breakLoop _ | .continueLoop _ => 0

def Closing.size : Closing → Option Stmt → Size
  | plain, none => 0
  | plain, some s => s.drop
  | branch, some (.expr _ _) => 0
  | branch, _ => .instruction .null
  | body, some (.expr _ _) => .instruction .retValue
  | body, some (.ret _ _) => 0
  | body, _ => .instruction .ret

/-! The size of a node where `γ` is visible. Since the innermost loop began, `exit` operands have been
pushed; outside of loops it is `none`. -/

mutual

def Expr.size (γ : Visible) (exit : Option Nat) : Expr → Size
  | .int _ _ | .decimal _ _ | .str _ _ => .literal
  | .bool _ _ | .null _ => .instruction .null
  | .ident name _ => γ.captures name + γ.load name
  | .unary op e _ => e.size γ exit + .instruction (.unary op)
  | .binary op left right _ =>
    left.size γ exit + (right.size γ (exit.map (· + 1)) +
      match op.operator? with
      | some operator => .instruction (.binary operator)
      | none => 0)
  | .cond condition consequence alternative _ =>
    condition.size γ exit + (.instruction .jumpIfFalse + (consequence.size γ exit +
      (.instruction .jump +
        match alternative with
        | some b => b.size γ exit
        | none => .instruction .null)))
  | .function name params (.mk body _) _ =>
    γ.closure params.length (stmtsSize (γ.enter name params) none .body body)
  | .call callee args _ => callee.size γ exit + (exprsSize γ exit 1 args + .instruction .call)
  | .array items _ => exprsSize γ exit 0 items + .instruction .array
  | .hash ps _ => pairsSize γ exit 0 ps + .instruction .hash
  | .index target index _ =>
    target.size γ exit + (index.size γ (exit.map (· + 1)) + .instruction .index)
  | .assign target value _ =>
    match target with
    | .ident name _ =>
      γ.captures name + (value.size γ exit + (.instruction .set + .instruction .get))
    | .index (.ident name _) index _ =>
      γ.captures name + (index.size γ exit + (value.size γ (exit.map (· + 1)) +
        .instruction .setElement))
    | _ => value.size γ exit

def exprsSize (γ : Visible) (exit : Option Nat) (held : Nat) : List Expr → Size
  | [] => 0
  | e :: es => e.size γ (exit.map (· + held)) + exprsSize γ exit (held + 1) es

def pairsSize (γ : Visible) (exit : Option Nat) (held : Nat) : List (Expr × Expr) → Size
  | [] => 0
  | (key, value) :: ps =>
    key.size γ (exit.map (· + held)) + (value.size γ (exit.map (· + (held + 1))) +
      pairsSize γ exit (held + 2) ps)

def Block.size (γ : Visible) (exit : Option Nat) : Block → Size
  | .mk body _ => stmtsSize γ exit .branch body

/-- The value of an expression statement is not dropped yet. -/
def Stmt.size (γ : Visible) (exit : Option Nat) : Stmt → Size
  | .bind name value _ =>
    match value with
    | .function own params (.mk body _) _ =>
      γ.declares name.name + ((γ.declare name.name).closure params.length
        (stmtsSize ((γ.declare name.name).enter (own.or (some name.name)) params) none .body body) +
          .instruction .set)
    | value => value.size γ exit + (γ.declares name.name + .instruction .set)
  | .ret none _ => .instruction .ret
  | .ret (some e) _ => e.size γ exit + .instruction .retValue
  | .expr e _ => e.size γ exit
  | .whileLoop condition (.mk body _) _ =>
    condition.size γ exit + (.instruction .jumpIfFalse + (stmtsSize γ (some 0) .plain body +
      .instruction .jump))
  | .forLoop init condition update (.mk body _) _ =>
    (match init with
      | some s => s.size γ exit + s.drop
      | none => 0) +
    ((match condition with
      | some e => e.size (initAfter γ init) exit + .instruction .jumpIfFalse
      | none => 0) +
    (stmtsSize (initAfter γ init) (some 0) .plain body +
    ((match update with
      | some e => e.size (stmtsAfter (initAfter γ init) body) exit + .instruction .pop
      | none => 0) + .instruction .jump)))
  | .breakLoop _ | .continueLoop _ => .exit exit

def stmtsSize (γ : Visible) (exit : Option Nat) (closing : Closing) : List Stmt → Size
  | [] => closing.size none
  | [s] => s.size γ exit + closing.size (some s)
  | s :: ss => s.size γ exit + (s.drop + stmtsSize (s.after γ) exit closing ss)

end

theorem Expr.size_cond (γ : Visible) (exit : Option Nat) (condition : Expr) (consequence : Block)
    (alternative : Option Block) (span : Span) :
    (Expr.cond condition consequence alternative span).size γ exit =
      condition.size γ exit + (.instruction .jumpIfFalse + (consequence.size γ exit +
        (.instruction .jump + alternative.elim (.instruction .null) (Block.size γ exit)))) := by
  cases alternative <;> rfl

theorem Stmt.size_forLoop (γ : Visible) (exit : Option Nat) (init : Option Stmt)
    (condition update : Option Expr) (body : List Stmt) (bodySpan span : Span) :
    (Stmt.forLoop init condition update (.mk body bodySpan) span).size γ exit =
      init.elim 0 (fun s => s.size γ exit + s.drop) +
      (condition.elim 0 (fun e => e.size (initAfter γ init) exit + .instruction .jumpIfFalse) +
      (stmtsSize (initAfter γ init) (some 0) .plain body +
      (update.elim 0 (fun e => e.size (stmtsAfter (initAfter γ init) body) exit + .instruction .pop) +
        .instruction .jump))) := by
  cases init <;> cases condition <;> cases update <;> rfl

section Bytes

variable {γ : Visible}

theorem Expr.bytes_pos : (e : Expr) → (exit : Option Nat) → 0 < (e.size γ exit).bytes
  | .int _ _, _ | .decimal _ _, _ | .str _ _, _ | .bool _ _, _ | .null _, _ => Nat.succ_pos _
  | .ident _ _, _ | .unary _ _ _, _ | .array _ _, _ | .hash _ _, _ =>
    Nat.add_pos_right _ (Opcode.length_pos _)
  | .function _ _ (.mk _ _) _, _ =>
    Nat.add_pos_right _ (Nat.add_pos_right _ (Nat.add_pos_right _ (Opcode.length_pos _)))
  | .binary _ left _ _, exit => Nat.add_pos_left (left.bytes_pos exit) _
  | .cond condition _ _ _, exit => by
    rw [size_cond]
    exact Nat.add_pos_left (condition.bytes_pos exit) _
  | .call callee _ _, exit => Nat.add_pos_left (callee.bytes_pos exit) _
  | .index target _ _, exit => Nat.add_pos_left (target.bytes_pos exit) _
  | .assign target value _, exit => by
    have hvalue := value.bytes_pos
    cases target with
    | ident _ _ => exact Nat.add_pos_right _ (Nat.add_pos_left (hvalue exit) _)
    | index aggregate _ _ =>
      cases aggregate with
      | ident _ _ =>
        exact Nat.add_pos_right _ (Nat.add_pos_right _ (Nat.add_pos_left (hvalue _) _))
      | _ => exact hvalue exit
    | _ => exact hvalue exit

theorem length_le_bytes (exit : Option Nat) (held : Nat) (es : List Expr) :
    es.length ≤ (exprsSize γ exit held es).bytes := by
  induction es generalizing held with
  | nil => exact Nat.zero_le _
  | cons e es ih =>
    have := ih (held + 1)
    have := e.bytes_pos (γ := γ) (exit.map (· + held))
    rw [List.length_cons, exprsSize, Size.bytes_add]
    omega

theorem two_mul_length_le_bytes (exit : Option Nat) (held : Nat) (ps : List (Expr × Expr)) :
    2 * ps.length ≤ (pairsSize γ exit held ps).bytes := by
  induction ps generalizing held with
  | nil => exact Nat.zero_le _
  | cons p ps ih =>
    obtain ⟨key, value⟩ := p
    have := ih (held + 2)
    have := key.bytes_pos (γ := γ) (exit.map (· + held))
    have := value.bytes_pos (γ := γ) (exit.map (· + (held + 1)))
    rw [List.length_cons, pairsSize, Size.bytes_add, Size.bytes_add]
    omega

end Bytes

/-- The names that are visible behind a statement of the top level, whether it compiles or not. -/
def Stmt.behind (γ : Visible) (s : Stmt) : Visible :=
  if (firstFlaw? (s.sites γ false)).isNone then s.after γ else s.afterFailure γ

/-- The value of the last statement stays on the stack. -/
def topLevelSize (γ : Visible) : List Stmt → Size
  | [] => 0
  | [s] => s.size γ none
  | s :: ss => s.size γ none + (s.drop + topLevelSize (s.behind γ) ss)

def Program.size (program : Program) : Size := topLevelSize {} program.statements

/-- Offsets have 16 bits and slots 14. -/
structure BodySize.Fits (b : BodySize) : Prop where
  bytes : b.bytes ≤ 65535
  locals : b.locals ≤ 16384
  captured : b.captured ≤ 16384

instance (b : BodySize) : Decidable b.Fits :=
  decidable_of_iff (b.bytes ≤ 65535 ∧ b.locals ≤ 16384 ∧ b.captured ≤ 16384)
    ⟨fun ⟨h₁, h₂, h₃⟩ => ⟨h₁, h₂, h₃⟩, fun ⟨h₁, h₂, h₃⟩ => ⟨h₁, h₂, h₃⟩⟩

/-- What the body itself takes of a size. -/
def Size.body (n : Size) : BodySize := ⟨n.bytes, n.slots, n.captured.card⟩

/-- Constants have numbers of 16 bits, and the top level and every function body are within the limits
of a body. -/
structure Program.WithinLimits (program : Program) : Prop where
  constants : program.size.constants ≤ 65536
  topLevel : program.size.body.Fits
  bodies : ∀ b ∈ program.size.bodies, b.Fits

instance (program : Program) : Decidable program.WithinLimits :=
  decidable_of_iff (program.size.constants ≤ 65536 ∧ program.size.body.Fits ∧
      ∀ b ∈ program.size.bodies, b.Fits)
    ⟨fun ⟨h₁, h₂, h₃⟩ => ⟨h₁, h₂, h₃⟩, fun ⟨h₁, h₂, h₃⟩ => ⟨h₁, h₂, h₃⟩⟩

end StackScript
