import StackScript.Proofs.Compile.Buffer
import StackScript.Proofs.Eval.Scoping

/-! # Moving code

The code of the top level depends on where it starts only in the targets of its jumps. Two listings of
the same statements, one from an offset `d` further on, are the same but for `d` added to every offset
and to every target.
-/

namespace StackScript

mutual

/-- How many constants an expression adds to the pool. -/
def Expr.pooled : Expr → Nat
  | .int _ _ | .decimal _ _ | .str _ _ => 1
  | .bool _ _ | .null _ | .ident _ _ => 0
  | .unary _ e _ => e.pooled
  | .binary _ left right _ => left.pooled + right.pooled
  | .cond condition consequence alternative _ =>
    condition.pooled + consequence.pooled + elsePooled alternative
  | .function _ _ body _ => body.pooled + 1
  | .call callee args _ => callee.pooled + exprsPooled args
  | .array items _ => exprsPooled items
  | .hash ps _ => pairsPooled ps
  | .index target index _ => target.pooled + index.pooled
  | .assign target value _ => target.pooled + value.pooled

def exprsPooled : List Expr → Nat
  | [] => 0
  | e :: es => e.pooled + exprsPooled es

def pairsPooled : List (Expr × Expr) → Nat
  | [] => 0
  | (key, value) :: ps => key.pooled + value.pooled + pairsPooled ps

def Block.pooled : Block → Nat
  | .mk body _ => stmtsPooled body

def elsePooled : Option Block → Nat
  | none => 0
  | some b => b.pooled

def clausePooled : Option Expr → Nat
  | none => 0
  | some e => e.pooled

def Stmt.pooled : Stmt → Nat
  | .bind _ value _ => value.pooled
  | .ret value _ => clausePooled value
  | .expr e _ => e.pooled
  | .whileLoop condition body _ => condition.pooled + body.pooled
  | .forLoop init condition update body _ =>
    initPooled init + clausePooled condition + body.pooled + clausePooled update
  | .breakLoop _ | .continueLoop _ => 0

def initPooled : Option Stmt → Nat
  | none => 0
  | some s => s.pooled

def stmtsPooled : List Stmt → Nat
  | [] => 0
  | s :: ss => s.pooled + stmtsPooled ss

end

section Pooled

variable {pool : Array Value}

@[simp] theorem Cursor.constants_skip (s : Cursor) (op : Opcode) :
    (s.skip op).constants = s.constants := rfl

@[simp] theorem Cursor.constants_addConstant (s : Cursor) :
    s.addConstant.constants = s.constants + 1 := rfl

mutual

theorem ExprCode.constants_eq {c : Setting} {s s₁ : Cursor} {e : Expr} {is : List Item} :
    ExprCode pool c s e is s₁ → s₁.constants = s.constants + e.pooled
  | .constant he _ => by cases e <;> cases he <;> rfl
  | .bool | .null | .ident _ _ => rfl
  | .unary h => h.constants_eq
  | .array h => h.constants_eq
  | .hash h => h.constants_eq
  | .binary _ h₁ h₂ | .index h₁ h₂ | .call h₁ h₂ => by
    have h₁ := h₁.constants_eq
    have h₂ := h₂.constants_eq
    simp only [Expr.pooled, Cursor.constants_skip]
    omega
  | .cond h₁ h₂ h₃ => by
    have h₁ := h₁.constants_eq
    have h₂ := h₂.constants_eq
    have h₃ := h₃.constants_eq
    simp only [Cursor.constants_skip] at h₂ h₃
    simp only [Expr.pooled]
    omega
  | .function h => h.constants_eq
  | .assign _ _ _ h => by
    have h := h.constants_eq
    simp only [Expr.pooled, Cursor.constants_skip]
    omega
  | .assignElement _ _ _ h₁ h₂ => by
    have h₁ := h₁.constants_eq
    have h₂ := h₂.constants_eq
    simp only [Expr.pooled, Cursor.constants_skip]
    omega

theorem ExprsCode.constants_eq {c : Setting} {s s₁ : Cursor} {es : List Expr} {is : List Item} :
    ExprsCode pool c s es is s₁ → s₁.constants = s.constants + exprsPooled es
  | .nil => rfl
  | .cons h₁ h₂ => by
    have h₁ := h₁.constants_eq
    have h₂ := h₂.constants_eq
    simp only [exprsPooled]
    omega

theorem PairsCode.constants_eq {c : Setting} {s s₁ : Cursor} {ps : List (Expr × Expr)}
    {is : List Item} : PairsCode pool c s ps is s₁ → s₁.constants = s.constants + pairsPooled ps
  | .nil => rfl
  | .cons h₁ h₂ h₃ => by
    have h₁ := h₁.constants_eq
    have h₂ := h₂.constants_eq
    have h₃ := h₃.constants_eq
    simp only [pairsPooled]
    omega

theorem BranchCode.constants_eq {c : Setting} {s s₁ : Cursor} {b : Block} {is : List Item} :
    BranchCode pool c s b is s₁ → s₁.constants = s.constants + b.pooled
  | .value h => h.constants_eq
  | .null _ h => h.constants_eq

theorem ElseCode.constants_eq {c : Setting} {s s₁ : Cursor} {b : Option Block} {span : Span}
    {is : List Item} : ElseCode pool c s b span is s₁ → s₁.constants = s.constants + elsePooled b
  | .block h => h.constants_eq
  | .null => rfl

theorem ClosureCode.constants_eq {c : Setting} {s s₁ : Cursor} {self : Option String}
    {params : List Ident} {body : List Stmt} {bodySpan span : Span} {is : List Item} :
    ClosureCode pool c s self params body bodySpan span is s₁ →
      s₁.constants = s.constants + (stmtsPooled body + 1)
  | .mk h _ _ _ _ => congrArg (· + 1) h.constants_eq

theorem FunctionCode.constants_eq {env : Lexical} {names : List String} {first : Nat}
    {self : Option String} {params : List Ident} {body : List Stmt} {bodySpan : Span} {f : Function}
    {is : List Item} {s₁ : Cursor} :
    FunctionCode pool env names first self params body bodySpan f is s₁ →
      s₁.constants = first + stmtsPooled body
  | .mk h _ _ _ _ _ _ => h.constants_eq

theorem BodyCode.constants_eq {c : Setting} {s s₁ : Cursor} {body : List Stmt} {span : Span}
    {is : List Item} : BodyCode pool c s body span is s₁ →
      s₁.constants = s.constants + stmtsPooled body
  | .value h => h.constants_eq
  | .returned _ h => h.constants_eq
  | .null _ h => h.constants_eq

theorem ValueCode.constants_eq {c : Setting} {s s₁ : Cursor} {ss : List Stmt} {is : List Item} :
    ValueCode pool c s ss is s₁ → s₁.constants = s.constants + stmtsPooled ss
  | .last h => h.constants_eq
  | .cons h₁ h₂ => by
    have h₁ := h₁.constants_eq
    have h₂ := h₂.constants_eq
    simp only [stmtsPooled]
    omega

theorem StmtCode.constants_eq {c : Setting} {s s₁ : Cursor} {st : Stmt} {is : List Item}
    {env : Lexical} : StmtCode pool c s st is s₁ env → s₁.constants = s.constants + st.pooled
  | .bindFunction _ _ h => h.constants_eq
  | .bind _ h _ _ => h.constants_eq
  | .ret => rfl
  | .retValue h => h.constants_eq
  | .expr h => h.constants_eq
  | .whileLoop h₁ h₂ => by
    have h₁ := h₁.constants_eq
    have h₂ := h₂.constants_eq
    simp only [Cursor.constants_skip] at h₂
    simp only [Stmt.pooled, Block.pooled, Cursor.constants_skip]
    omega
  | .forLoop h₀ h₁ h₂ h₃ => by
    have h₀ := h₀.constants_eq
    have h₁ := h₁.constants_eq
    have h₂ := h₂.constants_eq
    have h₃ := h₃.constants_eq
    simp only [Stmt.pooled, Block.pooled, Cursor.constants_skip]
    omega
  | .breakLoop _ _ hs => by subst hs; rfl
  | .continueLoop _ _ hs => by subst hs; rfl

theorem StmtsCode.constants_eq {c : Setting} {s s₁ : Cursor} {ss : List Stmt} {is : List Item}
    {env : Lexical} : StmtsCode pool c s ss is s₁ env → s₁.constants = s.constants + stmtsPooled ss
  | .nil => rfl
  | .cons h₁ h₂ => by
    have h₁ := h₁.constants_eq
    have h₂ := h₂.constants_eq
    simp only [stmtsPooled]
    omega

theorem InitCode.constants_eq {c : Setting} {s s₁ : Cursor} {st : Option Stmt} {is : List Item}
    {env : Lexical} : InitCode pool c s st is s₁ env → s₁.constants = s.constants + initPooled st
  | .none => rfl
  | .some h => h.constants_eq

theorem GuardCode.constants_eq {c : Setting} {s s₁ : Cursor} {e : Option Expr} {stop : Nat}
    {is : List Item} : GuardCode pool c s e stop is s₁ → s₁.constants = s.constants + clausePooled e
  | .none => rfl
  | .some h => h.constants_eq

theorem UpdateCode.constants_eq {c : Setting} {s s₁ : Cursor} {e : Option Expr} {is : List Item} :
    UpdateCode pool c s e is s₁ → s₁.constants = s.constants + clausePooled e
  | .none => rfl
  | .some h => h.constants_eq

end

end Pooled

def Cursor.shift (d : Nat) (s : Cursor) : Cursor := { s with offset := s.offset + d }

def LoopExit.shift (d : Nat) (x : LoopExit) : LoopExit :=
  { x with breakTo := x.breakTo + d, continueTo := x.continueTo + d }

/-- The instruction `d` bytes further on; a jump leads `d` bytes further on. -/
def Item.shift (d : Nat) (i : Item) : Item :=
  { i with
    offset := i.offset + d
    operands := if i.op.isJump then i.operands.map (· + d) else i.operands }

/-- The settings differ only in where their loops lead to. -/
structure Setting.Beside (c c' : Setting) : Prop where
  env : c'.env = c.env
  captured : c'.captured = c.captured
  height : c'.height = c.height
  loop : c'.loop.map (·.height) = c.loop.map (·.height)

/-- The loop of the second setting leads `d` bytes further on. -/
def Setting.Leads (d : Nat) (c c' : Setting) : Prop := c'.loop = c.loop.map (·.shift d)

/-- The second listing ends `d` bytes behind the first, and under the condition `p` it is the first,
`d` bytes further on. -/
structure Moved (d : Nat) (p : Prop) (is : List Item) (s : Cursor) (is' : List Item) (s' : Cursor) :
    Prop where
  cursor : s' = s.shift d
  items : p → is' = is.map (·.shift d)

section Moved

variable {d n t t' : Nat} {p q : Prop} {c c' : Setting} {s s' s₂ s₂' : Cursor} {env : Lexical}
  {i : Instruction} {op : Opcode} {span : Span} {is is' is₂ is₂' : List Item} {x x' : LoopExit}

theorem Cursor.offset_of_shift (h : s' = s.shift d) : s'.offset = s.offset + d := by rw [h]; rfl

theorem Cursor.slots_of_shift (h : s' = s.shift d) : s'.slots = s.slots := by rw [h]; rfl

theorem Cursor.skip_of_shift (h : s' = s.shift d) (op : Opcode) : s'.skip op = (s.skip op).shift d := by
  rw [h]
  simp [Cursor.skip, Cursor.shift, Nat.add_right_comm]

namespace Setting.Beside

variable (h : c.Beside c')
include h

theorem above (n : Nat) : (c.above n).Beside (c'.above n) :=
  ⟨h.env, h.captured, congrArg (· + n) h.height, h.loop⟩

theorem within (env : Lexical) : (c.within env).Beside (c'.within env) :=
  ⟨rfl, h.captured, h.height, h.loop⟩

theorem enterBlock : (c.within c.env.enterBlock).Beside (c'.within c'.env.enterBlock) := by
  rw [h.env]
  exact h.within _

theorem atHeight (n : Nat) : Setting.Beside { c with height := n } { c' with height := n } :=
  ⟨h.env, h.captured, rfl, h.loop⟩

theorem inLoop (hx : x'.height = x.height) : (c.inLoop x).Beside (c'.inLoop x') :=
  ⟨h.env, h.captured, h.height, congrArg some hx⟩

theorem place?_eq (name : String) :
    c'.env.place? c'.captured name = c.env.place? c.captured name := by
  rw [h.env, h.captured]

theorem item (hs : s' = s.shift d) (hi : i.op.isJump = false) (span : Span) :
    c'.item s' i span = (c.item s i span).shift d := by
  rw [hs]
  simp [Setting.item, Item.shift, Cursor.shift, hi, h.height]

theorem jump (hs : s' = s.shift d) (ho : op.isJump = true) (ht : t' = t + d) (span : Span) :
    c'.item s' ⟨op, [t']⟩ span = (c.item s ⟨op, [t]⟩ span).shift d := by
  rw [hs, ht]
  simp [Setting.item, Item.shift, Cursor.shift, ho, h.height]

end Setting.Beside

namespace Moved

theorem nil (hs : s' = s.shift d) : Moved d p [] s [] s' := ⟨hs, fun _ => rfl⟩

theorem imp (h : Moved d q is s is' s') (hq : p → q) : Moved d p is s is' s' :=
  ⟨h.cursor, fun hp => h.items (hq hp)⟩

theorem withSlots (h : Moved d p is s is' s') :
    Moved d p is { s with slots := n } is' { s' with slots := n } := by
  constructor
  · rw [h.cursor]
    rfl
  · exact h.items

theorem append (h₁ : Moved d p is s is' s') (h₂ : Moved d p is₂ s₂ is₂' s₂') :
    Moved d p (is ++ is₂) s₂ (is' ++ is₂') s₂' := by
  constructor
  · exact h₂.cursor
  · intro hp
    rw [h₁.items hp, h₂.items hp, List.map_append]

theorem last (h : Moved d p is s is' s') (hc : c.Beside c') (hi : i.op.isJump = false) :
    Moved d p (is ++ [c.item s i span]) (s.skip i.op) (is' ++ [c'.item s' i span]) (s'.skip i.op) := by
  constructor
  · exact Cursor.skip_of_shift h.cursor _
  · intro hp
    rw [h.items hp, hc.item h.cursor hi, List.map_append, List.map_singleton]

theorem jump (h : Moved d p is s is' s') (hc : c.Beside c') (ho : op.isJump = true)
    (ht : p → t' = t + d) :
    Moved d p (is ++ [c.item s ⟨op, [t]⟩ span]) (s.skip op) (is' ++ [c'.item s' ⟨op, [t']⟩ span])
      (s'.skip op) := by
  constructor
  · exact Cursor.skip_of_shift h.cursor _
  · intro hp
    rw [h.items hp, hc.jump h.cursor ho (ht hp), List.map_append, List.map_singleton]

theorem single (hc : c.Beside c') (hs : s' = s.shift d) (hi : i.op.isJump = false) :
    Moved d p [c.item s i span] (s.skip i.op) [c'.item s' i span] (s'.skip i.op) :=
  (nil hs).last hc hi

theorem drops (hc : c.Beside c') (hs : s' = s.shift d) (n : Nat) :
    Moved d p (c.drops s span n) { s with offset := s.offset + n } (c'.drops s' span n)
      { s' with offset := s'.offset + n } := by
  induction n generalizing c c' s s' with
  | zero => exact nil hs
  | succ n ih =>
    have hrest := ih (hc.atHeight (c.height - 1)) (Cursor.skip_of_shift hs .pop)
    have hfirst : Moved d p [c.item s ⟨.pop, []⟩ span] (s.skip .pop) [c'.item s' ⟨.pop, []⟩ span]
        (s'.skip .pop) := single hc hs rfl
    have hmoved := hfirst.append hrest
    have hsum (u : Cursor) : ({ u.skip .pop with offset := (u.skip .pop).offset + n } : Cursor) =
        { u with offset := u.offset + (n + 1) } := by
      simp [Cursor.skip, Opcode.length, Opcode.operandCount, Nat.add_assoc, Nat.add_comm n 1]
    rw [hsum, hsum] at hmoved
    rw [Setting.drops, Setting.drops, hc.height]
    exact hmoved

end Moved

theorem Place.isJump_load (place : Place) : place.load.op.isJump = false := by
  unfold Place.load
  split <;> rfl

theorem Setting.leads_inLoop {b b' k k' m m' : Nat} (hb : b' = b + d) (hk : k' = k + d)
    (hm : m' = m) : (c.inLoop ⟨b, k, m⟩).Leads d (c'.inLoop ⟨b', k', m'⟩) := by
  rw [hb, hk, hm]
  rfl

theorem Setting.Leads.exit (h : c.Leads d c') (hx : c.loop = some x) (hx' : c'.loop = some x') :
    x' = x.shift d := by
  rw [Leads, hx, hx'] at h
  exact Option.some.inj h

theorem Setting.Beside.exit (h : c.Beside c') (hx : c.loop = some x) (hx' : c'.loop = some x') :
    x'.height = x.height := by
  have hloop := h.loop
  rw [hx, hx'] at hloop
  exact Option.some.inj hloop

theorem Moved.exit {m : Nat} (hc : c.Beside c') (hs : s' = s.shift d) (hx : c.loop = some x)
    (hx' : c'.loop = some x') (hn : c.height = x.height + n) (hm : c'.height = x'.height + m)
    (ht : c.Leads d c' → t' = t + d) :
    Moved d (c.Leads d c')
      (c.drops s span n ++ [{ c with height := x.height }.item { s with offset := s.offset + n }
        ⟨.jump, [t]⟩ span])
      ({ s with offset := s.offset + n }.skip .jump)
      (c'.drops s' span m ++ [{ c' with height := x'.height }.item { s' with offset := s'.offset + m }
        ⟨.jump, [t']⟩ span])
      ({ s' with offset := s'.offset + m }.skip .jump) := by
  have hheight := hc.exit hx hx'
  obtain rfl : m = n := by
    have := hc.height
    omega
  rw [hheight]
  exact (Moved.drops hc hs m).jump (hc.atHeight _) rfl ht

end Moved

section Scopes

variable {pool pool' : Array Value} {c c' : Setting} {s s' s₁ s₁' : Cursor} {st : Stmt}
  {first : Option Stmt} {is is' : List Item} {env env' : Lexical} {d : Nat}

theorem StmtCode.env_eq (h : StmtCode pool c s st is s₁ env) (hc : c.Beside c') (hs : s' = s.shift d)
    (h' : StmtCode pool' c' s' st is' s₁' env') : env' = env := by
  have hscope := h.scope_eq
  have hscope' := h'.scope_eq
  rw [hc.env, Cursor.slots_of_shift hs, hscope] at hscope'
  exact (congrArg Prod.fst hscope').symm

theorem InitCode.env_eq (h : InitCode pool c s first is s₁ env) (hc : c.Beside c')
    (hs : s' = s.shift d) (h' : InitCode pool' c' s' first is' s₁' env') : env' = env := by
  have hscope := h.scope_eq
  have hscope' := h'.scope_eq
  rw [hc.env, Cursor.slots_of_shift hs, hscope] at hscope'
  exact (congrArg Prod.fst hscope').symm

theorem StmtsCode.env_eq {ss : List Stmt} (h : StmtsCode pool c s ss is s₁ env) (hc : c.Beside c')
    (hs : s' = s.shift d) (h' : StmtsCode pool' c' s' ss is' s₁' env') : env' = env := by
  have hscope := h.scope_eq
  have hscope' := h'.scope_eq
  rw [hc.env, Cursor.slots_of_shift hs, hscope] at hscope'
  exact (congrArg Prod.fst hscope').symm

end Scopes

section Listings

variable {pool pool' : Array Value} {d : Nat} {c c' : Setting} {s s' s₁ s₁' : Cursor}
  {is is' : List Item}

/-- A function literal at the top level captures nothing. -/
theorem ClosureCode.moved {self : Option String} {params : List Ident} {body : List Stmt}
    {bodySpan span : Span} (h : ClosureCode pool c s self params body bodySpan span is s₁)
    (hc : c.Beside c') (hi : c.env.inner = []) (hs : s' = s.shift d)
    (h' : ClosureCode pool' c' s' self params body bodySpan span is' s₁') :
    Moved d (c.Leads d c') is s₁ is' s₁' := by
  have hnone {env : Lexical} {names : List String} {P : String → Prop} (henv : env.inner = [])
      (hn : ∀ name ∈ names, env.enclosed name = true ∧ P name) : names = [] := by
    cases names with
    | nil => rfl
    | cons name names => simpa [Lexical.enclosed, henv] using (hn name (by simp)).1
  cases h with
  | mk hf hp hplaces hn hlt =>
    cases h' with
    | mk hf' hp' hplaces' hn' hlt' =>
      obtain rfl := hnone hi hn
      obtain rfl := hnone (hc.env ▸ hi) hn'
      obtain rfl := List.map_eq_nil_iff.mp hplaces.symm
      obtain rfl := List.map_eq_nil_iff.mp hplaces'.symm
      have hconstants := hf.constants_eq
      have hconstants' := hf'.constants_eq
      rw [hs] at hconstants'
      constructor
      · rw [hconstants, hconstants', hs]
        simp [Cursor.skipLoads, Cursor.skip, Cursor.shift, Nat.add_right_comm]
      · intro _
        rw [hconstants, hconstants', hs]
        simp [Setting.loads, Cursor.skipLoads, Setting.item, Item.shift, Cursor.shift, Setting.above,
          Opcode.isJump, hc.env, hc.height]

theorem ExprCode.moved_constant {c c' : Setting} {s s' s₁' : Cursor} {e : Expr} {v : Value}
    {is' : List Item} (h' : ExprCode pool' c' s' e is' s₁') (he : e.constant? = some v)
    (hc : c.Beside c') (hs : s' = s.shift d) :
    Moved d (c.Leads d c') [c.item s ⟨.constant, [s.constants]⟩ e.span]
      (s.skip .constant).addConstant is' s₁' := by
  have hinv : is' = [c'.item s' ⟨.constant, [s'.constants]⟩ e.span] ∧
      s₁' = (s'.skip .constant).addConstant := by
    cases h' with
    | constant => exact ⟨rfl, rfl⟩
    | _ => cases he
  obtain ⟨rfl, rfl⟩ := hinv
  have hconstants : s'.constants = s.constants := by rw [hs]; rfl
  have hmoved : Moved d (c.Leads d c') [c.item s ⟨.constant, [s.constants]⟩ e.span]
      (s.skip .constant) [c'.item s' ⟨.constant, [s.constants]⟩ e.span] (s'.skip .constant) :=
    .single hc hs rfl
  rw [hconstants]
  exact ⟨congrArg Cursor.addConstant hmoved.cursor, hmoved.items⟩

mutual

theorem ExprCode.moved {c c' : Setting} {s s' s₁ s₁' : Cursor} {e : Expr} {is is' : List Item} :
    ExprCode pool c s e is s₁ → c.Beside c' → c.env.inner = [] → s' = s.shift d →
      ExprCode pool' c' s' e is' s₁' → Moved d (c.Leads d c') is s₁ is' s₁'
  | .constant he _, hc, _, hs, h' => h'.moved_constant he hc hs
  | .bool (b := b), hc, _, hs, h' => by
    cases h' with
    | constant he => cases he
    | bool => exact .single hc hs (by cases b <;> rfl)
  | .null, hc, _, hs, h' => by
    cases h' with
    | constant he => cases he
    | null => exact .single hc hs rfl
  | .ident hp _, hc, _, hs, h' => by
    cases h' with
    | constant he => cases he
    | ident hp' _ =>
      rw [hc.place?_eq, hp] at hp'
      cases hp'
      exact .single hc hs (Place.isJump_load _)
  | .unary h, hc, hi, hs, h' => by
    cases h' with
    | constant he => cases he
    | unary h' => exact (h.moved hc hi hs h').last (hc.above 1) rfl
  | .binary ho h₁ h₂, hc, hi, hs, h' => by
    cases h' with
    | constant he => cases he
    | binary ho' h₁' h₂' =>
      rw [ho] at ho'
      cases ho'
      have hm₁ := h₁.moved hc hi hs h₁'
      have hm₂ := h₂.moved (hc.above 1) hi hm₁.cursor h₂'
      exact (hm₁.append hm₂).last (hc.above 2) rfl
  | .cond h₁ h₂ h₃, hc, hi, hs, h' => by
    cases h' with
    | constant he => cases he
    | cond h₁' h₂' h₃' =>
      have hm₁ := h₁.moved hc hi hs h₁'
      have hm₂ := h₂.moved hc hi (Cursor.skip_of_shift hm₁.cursor _) h₂'
      have hm₃ := h₃.moved hc hi (Cursor.skip_of_shift hm₂.cursor _) h₃'
      have hskip := Cursor.offset_of_shift (Cursor.skip_of_shift hm₂.cursor .jump)
      have hstop := Cursor.offset_of_shift hm₃.cursor
      exact (((hm₁.jump (hc.above 1) rfl fun _ => hskip).append hm₂).jump (hc.above 1) rfl
        fun _ => hstop).append hm₃
  | .function h, hc, hi, hs, h' => by
    cases h' with
    | constant he => cases he
    | function h' => exact h.moved hc hi hs h'
  | .call h₁ h₂, hc, hi, hs, h' => by
    cases h' with
    | constant he => cases he
    | call h₁' h₂' =>
      have hm₁ := h₁.moved hc hi hs h₁'
      have hm₂ := h₂.moved (hc.above 1) hi hm₁.cursor h₂'
      exact (hm₁.append hm₂).last (hc.above _) rfl
  | .array h, hc, hi, hs, h' => by
    cases h' with
    | constant he => cases he
    | array h' => exact (h.moved hc hi hs h').last (hc.above _) rfl
  | .hash h, hc, hi, hs, h' => by
    cases h' with
    | constant he => cases he
    | hash h' => exact (h.moved hc hi hs h').last (hc.above _) rfl
  | .index h₁ h₂, hc, hi, hs, h' => by
    cases h' with
    | constant he => cases he
    | index h₁' h₂' =>
      have hm₁ := h₁.moved hc hi hs h₁'
      have hm₂ := h₂.moved (hc.above 1) hi hm₁.cursor h₂'
      exact (hm₁.append hm₂).last (hc.above 2) rfl
  | .assign hp _ _ h, hc, hi, hs, h' => by
    cases h' with
    | constant he => cases he
    | assign hp' _ _ h' =>
      rw [hc.place?_eq, hp] at hp'
      cases hp'
      exact ((h.moved hc hi hs h').last (hc.above 1) rfl).last hc (Place.isJump_load _)
  | .assignElement hp _ _ h₁ h₂, hc, hi, hs, h' => by
    cases h' with
    | constant he => cases he
    | assignElement hp' _ _ h₁' h₂' =>
      rw [hc.place?_eq, hp] at hp'
      cases hp'
      have hm₁ := h₁.moved hc hi hs h₁'
      have hm₂ := h₂.moved (hc.above 1) hi hm₁.cursor h₂'
      exact (hm₁.append hm₂).last (hc.above 2) rfl

theorem ExprsCode.moved {c c' : Setting} {s s' s₁ s₁' : Cursor} {es : List Expr}
    {is is' : List Item} : ExprsCode pool c s es is s₁ → c.Beside c' → c.env.inner = [] →
      s' = s.shift d → ExprsCode pool' c' s' es is' s₁' → Moved d (c.Leads d c') is s₁ is' s₁'
  | .nil, _, _, hs, h' => by
    cases h'
    exact .nil hs
  | .cons h₁ h₂, hc, hi, hs, h' => by
    cases h' with
    | cons h₁' h₂' =>
      have hm₁ := h₁.moved hc hi hs h₁'
      have hm₂ := h₂.moved (hc.above 1) hi hm₁.cursor h₂'
      exact hm₁.append hm₂

theorem PairsCode.moved {c c' : Setting} {s s' s₁ s₁' : Cursor} {ps : List (Expr × Expr)}
    {is is' : List Item} : PairsCode pool c s ps is s₁ → c.Beside c' → c.env.inner = [] →
      s' = s.shift d → PairsCode pool' c' s' ps is' s₁' → Moved d (c.Leads d c') is s₁ is' s₁'
  | .nil, _, _, hs, h' => by
    cases h'
    exact .nil hs
  | .cons h₁ h₂ h₃, hc, hi, hs, h' => by
    cases h' with
    | cons h₁' h₂' h₃' =>
      have hm₁ := h₁.moved hc hi hs h₁'
      have hm₂ := h₂.moved (hc.above 1) hi hm₁.cursor h₂'
      have hm₃ := h₃.moved (hc.above 2) hi hm₂.cursor h₃'
      exact (hm₁.append hm₂).append hm₃

theorem BranchCode.moved {c c' : Setting} {s s' s₁ s₁' : Cursor} {b : Block} {is is' : List Item} :
    BranchCode pool c s b is s₁ → c.Beside c' → c.env.inner = [] → s' = s.shift d →
      BranchCode pool' c' s' b is' s₁' → Moved d (c.Leads d c') is s₁ is' s₁'
  | .value h, hc, hi, hs, h' => by
    cases h' with
    | value h' =>
      have hm := h.moved hc.enterBlock (Lexical.inner_modify hi _) hs h'
      exact hm
    | null he => exact absurd h.ending_eq he
  | .null he h, hc, hi, hs, h' => by
    cases h' with
    | value h' => exact absurd h'.ending_eq he
    | null _ h' =>
      have hm := h.moved hc.enterBlock (Lexical.inner_modify hi _) hs h'
      exact hm.last hc rfl

theorem ElseCode.moved {c c' : Setting} {s s' s₁ s₁' : Cursor} {b : Option Block} {span : Span}
    {is is' : List Item} : ElseCode pool c s b span is s₁ → c.Beside c' → c.env.inner = [] →
      s' = s.shift d → ElseCode pool' c' s' b span is' s₁' → Moved d (c.Leads d c') is s₁ is' s₁'
  | .block h, hc, hi, hs, h' => by
    cases h' with
    | block h' => exact h.moved hc hi hs h'
  | .null, hc, _, hs, h' => by
    cases h' with
    | null => exact .single hc hs rfl

theorem ValueCode.moved {c c' : Setting} {s s' s₁ s₁' : Cursor} {ss : List Stmt}
    {is is' : List Item} : ValueCode pool c s ss is s₁ → c.Beside c' → c.env.inner = [] →
      s' = s.shift d → ValueCode pool' c' s' ss is' s₁' → Moved d (c.Leads d c') is s₁ is' s₁'
  | .last h, hc, hi, hs, h' => by
    cases h' with
    | last h' => exact h.moved hc hi hs h'
    | cons _ h' => cases h'
  | .cons h₁ h₂, hc, hi, hs, h' => by
    cases h' with
    | last => cases h₂
    | cons h₁' h₂' =>
      obtain rfl := h₁.env_eq hc hs h₁'
      have hm₁ := h₁.moved hc hi hs h₁'
      have hm₂ := h₂.moved (hc.within _) (h₁.inner_eq hi) hm₁.cursor h₂'
      exact hm₁.append hm₂

theorem StmtCode.moved {c c' : Setting} {s s' s₁ s₁' : Cursor} {st : Stmt} {is is' : List Item}
    {env env' : Lexical} : StmtCode pool c s st is s₁ env → c.Beside c' → c.env.inner = [] →
      s' = s.shift d → StmtCode pool' c' s' st is' s₁' env' → Moved d (c.Leads d c') is s₁ is' s₁'
  | .bindFunction hd _ h, hc, hi, hs, h' => by
    cases h' with
    | bindFunction hd' _ h' =>
      rw [hc.env, Cursor.slots_of_shift hs, hd] at hd'
      cases hd'
      exact (h.moved (hc.within _) (Lexical.inner_declare hi hd) (by rw [hs]; rfl) h').last
        (hc.above 1) rfl
    | bind hf => cases hf
  | .bind hf h hd _, hc, hi, hs, h' => by
    cases h' with
    | bindFunction => cases hf
    | bind _ h' hd' _ =>
      have hm := h.moved hc hi hs h'
      rw [hc.env, Cursor.slots_of_shift hm.cursor, hd] at hd'
      cases hd'
      exact (hm.last (hc.above 1) rfl).withSlots
  | .ret, hc, _, hs, h' => by
    cases h' with
    | ret => exact .single hc hs rfl
  | .retValue h, hc, hi, hs, h' => by
    cases h' with
    | retValue h' => exact (h.moved hc hi hs h').last (hc.above 1) rfl
  | .expr h, hc, hi, hs, h' => by
    cases h' with
    | expr h' => exact (h.moved hc hi hs h').last (hc.above 1) rfl
  | .whileLoop h₁ h₂, hc, hi, hs, h' => by
    cases h' with
    | whileLoop h₁' h₂' =>
      have hm₁ := h₁.moved hc hi hs h₁'
      have hm₂ := h₂.moved (hc.enterBlock.inLoop hc.height) (Lexical.inner_modify hi _)
        (Cursor.skip_of_shift hm₁.cursor _) h₂'
      have hstop := Cursor.offset_of_shift (Cursor.skip_of_shift hm₂.cursor .jump)
      -- the body ends `d` bytes further on, so its loop leads there
      have hbody := hm₂.imp (p := c.Leads d c') fun _ =>
        Setting.leads_inLoop hstop (Cursor.offset_of_shift hs) hc.height
      exact ((hm₁.jump (hc.above 1) rfl fun _ => hstop).append hbody).jump hc rfl fun _ =>
        Cursor.offset_of_shift hs
  | .forLoop h₀ h₁ h₂ h₃, hc, hi, hs, h' => by
    cases h' with
    | forLoop h₀' h₁' h₂' h₃' =>
      have hblock := hc.enterBlock
      have hi₀ := h₀.inner_eq (Lexical.inner_modify hi (·.enterBlock))
      obtain rfl := h₀.env_eq hblock hs h₀'
      have hm₀ := h₀.moved hblock (Lexical.inner_modify hi _) hs h₀'
      have hm₁ := h₁.moved (hc.within _) hi₀ hm₀.cursor h₁'
      obtain rfl := h₂.env_eq ((hc.within _).inLoop hc.height) hm₁.cursor h₂'
      have hm₂ := h₂.moved ((hc.within _).inLoop hc.height) hi₀ hm₁.cursor h₂'
      have hm₃ := h₃.moved (hc.within _) (h₂.inner_eq hi₀) hm₂.cursor h₃'
      have hstart := Cursor.offset_of_shift hm₀.cursor
      have hnext := Cursor.offset_of_shift hm₂.cursor
      have hstop := Cursor.offset_of_shift (Cursor.skip_of_shift hm₃.cursor .jump)
      have hguard := hm₁.imp (p := c.Leads d c') fun hl => ⟨hl, hstop⟩
      have hbody := hm₂.imp (p := c.Leads d c') fun _ => Setting.leads_inLoop hstop hnext hc.height
      exact (((hm₀.append hguard).append hbody).append hm₃).jump hc rfl fun _ => hstart
  | .breakLoop hx hn hs₁, hc, _, hs, h' => by
    cases h' with
    | breakLoop hx' hm hs₁' =>
      subst hs₁ hs₁'
      exact .exit hc hs hx hx' hn hm fun hl => congrArg LoopExit.breakTo (hl.exit hx hx')
  | .continueLoop hx hn hs₁, hc, _, hs, h' => by
    cases h' with
    | continueLoop hx' hm hs₁' =>
      subst hs₁ hs₁'
      exact .exit hc hs hx hx' hn hm fun hl => congrArg LoopExit.continueTo (hl.exit hx hx')

theorem StmtsCode.moved {c c' : Setting} {s s' s₁ s₁' : Cursor} {ss : List Stmt}
    {is is' : List Item} {env env' : Lexical} : StmtsCode pool c s ss is s₁ env → c.Beside c' →
      c.env.inner = [] → s' = s.shift d → StmtsCode pool' c' s' ss is' s₁' env' →
      Moved d (c.Leads d c') is s₁ is' s₁'
  | .nil, _, _, hs, h' => by
    cases h'
    exact .nil hs
  | .cons h₁ h₂, hc, hi, hs, h' => by
    cases h' with
    | cons h₁' h₂' =>
      obtain rfl := h₁.env_eq hc hs h₁'
      have hm₁ := h₁.moved hc hi hs h₁'
      have hm₂ := h₂.moved (hc.within _) (h₁.inner_eq hi) hm₁.cursor h₂'
      exact hm₁.append hm₂

theorem InitCode.moved {c c' : Setting} {s s' s₁ s₁' : Cursor} {st : Option Stmt}
    {is is' : List Item} {env env' : Lexical} : InitCode pool c s st is s₁ env → c.Beside c' →
      c.env.inner = [] → s' = s.shift d → InitCode pool' c' s' st is' s₁' env' →
      Moved d (c.Leads d c') is s₁ is' s₁'
  | .none, _, _, hs, h' => by
    cases h'
    exact .nil hs
  | .some h, hc, hi, hs, h' => by
    cases h' with
    | some h' => exact h.moved hc hi hs h'

theorem GuardCode.moved {c c' : Setting} {s s' s₁ s₁' : Cursor} {e : Option Expr} {stop stop' : Nat}
    {is is' : List Item} : GuardCode pool c s e stop is s₁ → c.Beside c' → c.env.inner = [] →
      s' = s.shift d → GuardCode pool' c' s' e stop' is' s₁' →
      Moved d (c.Leads d c' ∧ stop' = stop + d) is s₁ is' s₁'
  | .none, _, _, hs, h' => by
    cases h'
    exact .nil hs
  | .some h, hc, hi, hs, h' => by
    cases h' with
    | some h' => exact ((h.moved hc hi hs h').imp And.left).jump (hc.above 1) rfl And.right

theorem UpdateCode.moved {c c' : Setting} {s s' s₁ s₁' : Cursor} {e : Option Expr}
    {is is' : List Item} : UpdateCode pool c s e is s₁ → c.Beside c' → c.env.inner = [] →
      s' = s.shift d → UpdateCode pool' c' s' e is' s₁' → Moved d (c.Leads d c') is s₁ is' s₁'
  | .none, _, _, hs, h' => by
    cases h'
    exact .nil hs
  | .some h, hc, hi, hs, h' => by
    cases h' with
    | some h' => exact (h.moved hc hi hs h').last (hc.above 1) rfl

end

end Listings

end StackScript
