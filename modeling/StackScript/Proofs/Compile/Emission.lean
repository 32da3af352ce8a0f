import StackScript.Proofs.Compile.Buffer
import StackScript.Proofs.Scope.Resolve

/-! # Emission

What a step of the compiler adds to the code. `Emits R x` says that the step `x` adds a listing in
the relation `R`, and that it leaves loops, operands and scopes balanced, also when it fails. The
rules for the steps that every node uses are here; those for the nodes follow the tree.
-/

namespace StackScript

/-- A constant of a pool: a literal, or a function whose body has a listing. A body uses only
constants before its own. -/
inductive ConstantOk (constants : Array Value) (globals index : Nat) : Value → Prop
  | literal {e : Expr} {v : Value} : e.constant? = some v → ConstantOk constants globals index v
  | function {f : Function} {env : Lexical} {names : List String} {first : Nat}
      {self : Option String} {params : List Ident} {body : List Stmt} {bodySpan : Span}
      {is : List Item} {s : Cursor} :
      (∀ name i, env.main.find? name = some (.slot i) → i < globals) → s.constants = index →
      (∀ pool : Array Value, constants.toList <+: pool.toList →
        FunctionCode pool env names first self params body bodySpan f is s) →
      ConstantOk constants globals index (.function f)

def PoolOk (constants : Array Value) (globals : Nat) : Prop :=
  ∀ index v, constants[index]? = some v → ConstantOk constants globals index v

section Pool

variable {constants more : Array Value} {globals globals' index : Nat} {v : Value}

theorem getElem?_of_extends (hp : constants.toList <+: more.toList) (h : constants[index]? = some v) :
    more[index]? = some v := by
  rw [← Array.getElem?_toList] at h ⊢
  obtain ⟨hi, rfl⟩ := List.getElem?_eq_some_iff.mp h
  exact List.prefix_iff_getElem?.mp hp index hi

theorem ConstantOk.mono (h : ConstantOk constants globals index v)
    (hp : constants.toList <+: more.toList) (hg : globals ≤ globals') :
    ConstantOk more globals' index v := by
  cases h with
  | literal he => exact .literal he
  | function hs hi hf =>
    exact .function (fun name i h => Nat.lt_of_lt_of_le (hs name i h) hg) hi
      fun pool hpool => hf pool (hp.trans hpool)

theorem PoolOk.mono (h : PoolOk constants globals) (hg : globals ≤ globals') :
    PoolOk constants globals' :=
  fun index v hv => (h index v hv).mono (List.prefix_refl _) hg

theorem PoolOk.push (h : PoolOk constants globals)
    (hv : ConstantOk constants globals constants.size v) : PoolOk (constants.push v) globals := by
  intro index w hw
  have hp : constants.toList <+: (constants.push v).toList := by simp
  rw [Array.getElem?_push] at hw
  split at hw
  · next hi =>
    obtain rfl := Option.some.inj hw
    exact hi ▸ hv.mono hp (Nat.le_refl _)
  · exact (h index w hw).mono hp (Nat.le_refl _)

end Pool

namespace Compiler

/-- The compiler has written `items` with the targets `σ`, its scopes show `v` and its constants are
in order. -/
structure Stands (c : Compiler) (v : OpenScopes) (items : List Item) (σ : Targets) : Prop where
  scopes : c.scopes.Shows v
  writes : c.unit.Writes items σ
  held : ∀ l, c.unit.loops.head? = some l → l.held ≤ c.unit.held
  pool : PoolOk c.constants v.globals

def cursor (c : Compiler) (v : OpenScopes) : Cursor :=
  ⟨c.unit.code.size, v.slots, c.constants.size⟩

/-- What the next node is compiled in, once the names captured by the function and the targets of
the loop are known. -/
def setting (c : Compiler) (v : OpenScopes) (captured : List String) (breakTo continueTo : Nat) :
    Setting :=
  ⟨v.env, captured, c.unit.loops.head?.map fun l => ⟨breakTo, continueTo, l.held⟩, c.unit.held⟩

end Compiler

structure Exits where
  breaks : List Nat := []
  continues : List Nat := []

namespace Exits

def all (x : Exits) : List Nat := x.breaks ++ x.continues

/-- The jumps of two parts of the code, the later part first. -/
def andThen (x y : Exits) : Exits := ⟨y.breaks ++ x.breaks, y.continues ++ x.continues⟩

def record (x : Exits) : List LoopJumps → List LoopJumps
  | [] => []
  | l :: ls =>
    { l with breaks := x.breaks ++ l.breaks, continues := x.continues ++ l.continues } :: ls

def Aimed (x : Exits) (τ : Nat → Nat) (breakTo continueTo : Nat) : Prop :=
  (∀ j ∈ x.breaks, τ j = breakTo) ∧ ∀ j ∈ x.continues, τ j = continueTo

variable {x y : Exits} {ls : List LoopJumps} {τ : Nat → Nat} {breakTo continueTo : Nat}

@[simp] theorem record_empty : record {} ls = ls := by cases ls <;> rfl

theorem record_record : y.record (x.record ls) = (x.andThen y).record ls := by
  cases ls with
  | nil => rfl
  | cons l ls => simp [record, andThen]

@[simp] theorem andThen_empty : x.andThen {} = x := rfl

@[simp] theorem empty_andThen : andThen {} x = x := by simp [andThen]

theorem head?_record {α : Type} (f : Nat → α) :
    ((x.record ls).head?.map fun l => f l.held) = ls.head?.map fun l => f l.held := by
  cases ls <;> rfl

theorem mem_andThen {j : Nat} : j ∈ (x.andThen y).all ↔ j ∈ x.all ∨ j ∈ y.all := by
  simp only [all, andThen, List.mem_append]
  constructor <;> rintro ((h | h) | h | h) <;> simp [h]

theorem Aimed.left (h : (x.andThen y).Aimed τ breakTo continueTo) : x.Aimed τ breakTo continueTo :=
  ⟨fun j hj => h.1 j (by simp [andThen, hj]), fun j hj => h.2 j (by simp [andThen, hj])⟩

theorem Aimed.right (h : (x.andThen y).Aimed τ breakTo continueTo) :
    y.Aimed τ breakTo continueTo :=
  ⟨fun j hj => h.1 j (by simp [andThen, hj]), fun j hj => h.2 j (by simp [andThen, hj])⟩

end Exits

/-- What a step keeps, with a result or with an error: the scopes around, the constants, the
operands pending and the open loops. -/
structure Balanced (c : Compiler) (v : OpenScopes) (c' : Compiler) (v' : OpenScopes)
    (exits : Exits) : Prop where
  scopes : v.Extends v'
  constants : c.constants.toList <+: c'.constants.toList
  held : c'.unit.held = c.unit.held
  loops : c'.unit.loops = exits.record c.unit.loops

/-- From `c` to `c'`, the listing `new` has been added. -/
structure Adds (c : Compiler) (v : OpenScopes) (items : List Item) (σ : Targets) (c' : Compiler)
    (v' : OpenScopes) (new : List Item) (σ' : Targets) (exits : Exits) : Prop
    extends Balanced c v c' v' exits where
  stands : c'.Stands v' (items ++ new) σ'
  targets : ∀ p < c.unit.code.size, σ' p = σ p
  /-- The jumps out of the loop are not patched yet. -/
  pending : ∀ j ∈ exits.all, σ' j = none ∧ ∃ i ∈ new, i.op.isJump = true ∧ i.offset = j
  apart : ∀ j ∈ exits.breaks, j ∉ exits.continues
  outside : c.unit.loops = [] → exits = {}

/-- The compiler has failed, with a cause that is not its own fault. -/
def Fails (c : Compiler) (v : OpenScopes) (e : CompileError) (c' : Compiler) : Prop :=
  (∀ m, e.cause ≠ .internal m) ∧
    ∃ v' items σ exits, c'.Stands v' items σ ∧ Balanced c v c' v' exits

section Balanced

variable {c c₁ c₂ : Compiler} {v v₁ v₂ : OpenScopes} {items new₁ new₂ : List Item}
  {σ σ₁ σ₂ : Targets} {x y : Exits} {e : CompileError}

theorem Balanced.refl (c : Compiler) (v : OpenScopes) : Balanced c v c v {} :=
  ⟨.refl v, List.prefix_refl _, rfl, by simp⟩

theorem Balanced.trans (h₁ : Balanced c v c₁ v₁ x) (h₂ : Balanced c₁ v₁ c₂ v₂ y) :
    Balanced c v c₂ v₂ (x.andThen y) where
  scopes := h₁.scopes.trans h₂.scopes
  constants := h₁.constants.trans h₂.constants
  held := h₂.held.trans h₁.held
  loops := by rw [h₂.loops, h₁.loops, Exits.record_record]

theorem Balanced.setting_eq (h : Balanced c v c₁ v₁ x) (captured : List String)
    (breakTo continueTo : Nat) :
    c₁.setting v₁ captured breakTo continueTo =
      (c.setting v captured breakTo continueTo).within v₁.env := by
  simp only [Compiler.setting, Setting.within, h.held, h.loops]
  rw [Exits.head?_record fun n => LoopExit.mk breakTo continueTo n]

theorem Fails.of_stands (h : c.Stands v items σ) (hc : ∀ m, e.cause ≠ .internal m) :
    Fails c v e c :=
  ⟨hc, v, items, σ, {}, h, .refl c v⟩

theorem Fails.after (h₁ : Balanced c v c₁ v₁ x) (h₂ : Fails c₁ v₁ e c₂) : Fails c v e c₂ := by
  obtain ⟨hc, v', is, σ', y, hs, hb⟩ := h₂
  exact ⟨hc, v', is, σ', _, hs, h₁.trans hb⟩

theorem Adds.tiled (h : Adds c v items σ c₁ v₁ new₁ σ₁ x) (hc : c.Stands v items σ) :
    Tiled c.unit.code.size new₁ c₁.unit.code.size := by
  obtain ⟨mid, h₁, h₂⟩ := tiled_append.mp h.stands.writes.tiled
  rwa [← hc.writes.tiled.unique h₁] at h₂

theorem Adds.size_le (h : Adds c v items σ c₁ v₁ new₁ σ₁ x) (hc : c.Stands v items σ) :
    c.unit.code.size ≤ c₁.unit.code.size := (h.tiled hc).le

theorem Adds.exit_bounds (h : Adds c v items σ c₁ v₁ new₁ σ₁ x) (hc : c.Stands v items σ) {j : Nat}
    (hj : j ∈ x.all) : c.unit.code.size ≤ j ∧ j < c₁.unit.code.size := by
  obtain ⟨-, i, hi, -, rfl⟩ := h.pending j hj
  have := (h.tiled hc).bounds hi
  have := i.op.length_pos
  omega

theorem Adds.not_mem_of_le (h : Adds c v items σ c₁ v₁ new₁ σ₁ x) (hc : c.Stands v items σ) {p : Nat}
    (hp : c₁.unit.code.size ≤ p) : p ∉ x.all := fun hx => by
  have := (h.exit_bounds hc hx).2
  omega

theorem Adds.not_mem_of_lt (h : Adds c v items σ c₁ v₁ new₁ σ₁ x) (hc : c.Stands v items σ) {p : Nat}
    (hp : p < c.unit.code.size) : p ∉ x.all := fun hx => by
  have := (h.exit_bounds hc hx).1
  omega

theorem Adds.keeps (h : Adds c v items σ c₁ v₁ new₁ σ₁ x) (hc : c.Stands v items σ) {p t : Nat}
    (hp : σ p = some t) : σ₁ p = some t := by
  have hlt : p < c.unit.code.size := Nat.lt_of_not_le fun hle => by
    rw [hc.writes.unpatched hle] at hp
    cases hp
  rw [h.targets p hlt, hp]

theorem Adds.refl (hc : c.Stands v items σ) : Adds c v items σ c v [] σ {} where
  toBalanced := .refl c v
  stands := by simpa using hc
  targets p _ := rfl
  pending j hj := by simp [Exits.all] at hj
  apart j hj := by simp at hj
  outside _ := rfl

theorem Adds.trans (hc : c.Stands v items σ) (h₁ : Adds c v items σ c₁ v₁ new₁ σ₁ x)
    (h₂ : Adds c₁ v₁ (items ++ new₁) σ₁ c₂ v₂ new₂ σ₂ y) :
    Adds c v items σ c₂ v₂ (new₁ ++ new₂) σ₂ (x.andThen y) where
  toBalanced := h₁.toBalanced.trans h₂.toBalanced
  stands := by simpa using h₂.stands
  targets p hp := by
    rw [h₂.targets p (Nat.lt_of_lt_of_le hp (h₁.size_le hc)), h₁.targets p hp]
  pending j hj := by
    rcases Exits.mem_andThen.mp hj with hj | hj
    · obtain ⟨hσ, i, hi, hjump⟩ := h₁.pending j hj
      exact ⟨(h₂.targets j (h₁.exit_bounds hc hj).2).trans hσ, i, by simp [hi], hjump⟩
    · obtain ⟨hσ, i, hi, hjump⟩ := h₂.pending j hj
      exact ⟨hσ, i, by simp [hi], hjump⟩
  apart j hb hk := by
    have hx {j : Nat} (hj : j ∈ x.all) : j < c₁.unit.code.size := (h₁.exit_bounds hc hj).2
    have hy {j : Nat} (hj : j ∈ y.all) : c₁.unit.code.size ≤ j :=
      (h₂.exit_bounds h₁.stands hj).1
    simp only [Exits.andThen, List.mem_append] at hb hk
    rcases hb with hb | hb <;> rcases hk with hk | hk
    · exact h₂.apart j hb hk
    · have := hy (j := j) (by simp [Exits.all, hb])
      have := hx (j := j) (by simp [Exits.all, hk])
      omega
    · have := hx (j := j) (by simp [Exits.all, hb])
      have := hy (j := j) (by simp [Exits.all, hk])
      omega
    · exact h₁.apart j hb hk
  outside hl := by
    rw [h₁.outside hl, h₂.outside (by rw [h₁.loops, hl]; rfl)]
    rfl

theorem Adds.trans_straight (hc : c.Stands v items σ) (h₁ : Adds c v items σ c₁ v₁ new₁ σ₁ x)
    (h₂ : Adds c₁ v₁ (items ++ new₁) σ₁ c₂ v₂ new₂ σ₂ {}) :
    Adds c v items σ c₂ v₂ (new₁ ++ new₂) σ₂ x :=
  h₁.trans hc (y := {}) h₂

end Balanced

/-- A relation between what a node is compiled in, its listing, and what comes behind it. -/
abbrev Rule (α : Type) :=
  α → Array Value → Setting → Cursor → List Item → Cursor → Lexical → Prop

/-- What may become known later: more constants and captured names, the targets of all jumps, and
where the loop ends. -/
structure Meets (c : Compiler) (v : OpenScopes) (σ : Targets) (exits : Exits) (pool : Array Value)
    (captured : List String) (τ : Nat → Nat) (breakTo continueTo : Nat) : Prop where
  constants : c.constants.toList <+: pool.toList
  captured : v.captured <+: captured
  targets : ∀ p t, σ p = some t → τ p = t
  exits : exits.Aimed τ breakTo continueTo

namespace Meets

variable {c c₁ c₂ : Compiler} {v v₁ v₂ : OpenScopes} {items new : List Item} {σ σ₁ σ₂ : Targets}
  {x y : Exits} {pool : Array Value} {captured : List String} {τ : Nat → Nat}
  {breakTo continueTo : Nat}

theorem right (h : Meets c v σ (x.andThen y) pool captured τ breakTo continueTo) :
    Meets c v σ y pool captured τ breakTo continueTo :=
  { h with exits := h.exits.right }

theorem before (h : Meets c₂ v₂ σ₂ (x.andThen y) pool captured τ breakTo continueTo)
    (ha : Adds c₁ v₁ items σ₁ c₂ v₂ new σ₂ y) (hc : c₁.Stands v₁ items σ₁) :
    Meets c₁ v₁ σ₁ x pool captured τ breakTo continueTo where
  constants := ha.constants.trans h.constants
  captured := ha.scopes.captured.trans h.captured
  targets p t hp := h.targets p t (ha.keeps hc hp)
  exits := h.exits.left

theorem before_straight (h : Meets c₂ v₂ σ₂ x pool captured τ breakTo continueTo)
    (ha : Adds c₁ v₁ items σ₁ c₂ v₂ new σ₂ {}) (hc : c₁.Stands v₁ items σ₁) :
    Meets c₁ v₁ σ₁ x pool captured τ breakTo continueTo :=
  before (x := x) (y := {}) h ha hc

end Meets

/-- The added listing is in the relation, whatever becomes known later. -/
def Lists (R : Array Value → Setting → Cursor → List Item → Cursor → Lexical → Prop) (c : Compiler)
    (v : OpenScopes) (c' : Compiler) (v' : OpenScopes) (new : List Item) (σ' : Targets)
    (exits : Exits) : Prop :=
  ∀ (pool : Array Value) (captured : List String) (τ : Nat → Nat) (breakTo continueTo : Nat),
    Meets c' v' σ' exits pool captured τ breakTo continueTo →
    R pool (c.setting v captured breakTo continueTo) (c.cursor v) (aimed τ new) (c'.cursor v') v'.env

/-- The step adds a listing in the relation `R`, and when `keeps` holds the unit then knows its last
two instructions. -/
def Emits {α : Type} (keeps : Prop) (R : Rule α) (x : Compile α) : Prop :=
  ∀ c v items σ, Compiler.Stands c v items σ →
    Gives x c
      (fun a c' => ∃ v' new σ' exits, Adds c v items σ c' v' new σ' exits ∧
        (keeps → c'.unit.Recalls (items ++ new)) ∧ Lists (R a) c v c' v' new σ' exits)
      (Fails c v)

def Rule.andThen {α β : Type} (R : Rule α) (S : α → Rule β) : Rule β :=
  fun b pool c s is s₂ env₂ => ∃ a is₁ is₂ s₁ env₁, is = is₁ ++ is₂ ∧ R a pool c s is₁ s₁ env₁ ∧
    S a b pool (c.within env₁) s₁ is₂ s₂ env₂

def Rule.nothing {α : Type} (P : α → Setting → Prop) : Rule α :=
  fun a _ c s is s' env => is = [] ∧ s' = s ∧ env = c.env ∧ P a c

namespace Emits

variable {α β : Type} {keeps keeps' : Prop} {R R' : Rule α} {S : α → Rule β} {x : Compile α}
  {f : α → Compile β}

theorem mono (h : Emits keeps R x) (hk : keeps' → keeps)
    (hR : ∀ a pool c s is s' env, R a pool c s is s' env → R' a pool c s is s' env) :
    Emits keeps' R' x := by
  intro c v items σ hc
  refine (h c v items σ hc).mono ?_ fun _ _ he => he
  rintro a c' ⟨v', new, σ', exits, ha, hkeep, hl⟩
  exact ⟨v', new, σ', exits, ha, fun k => hkeep (hk k), fun pool captured τ b k hm =>
    hR _ _ _ _ _ _ _ (hl pool captured τ b k hm)⟩

theorem bind (hx : Emits keeps R x) (hf : ∀ a, Emits keeps' (S a) (f a)) :
    Emits keeps' (R.andThen S) (x >>= f) := by
  intro c v items σ hc
  refine (hx c v items σ hc).bind (fun _ _ he => he) ?_
  rintro a c₁ ⟨v₁, new₁, σ₁, x₁, h₁, -, hl₁⟩
  refine (hf a c₁ v₁ _ σ₁ h₁.stands).mono ?_ fun _ _ he => he.after h₁.toBalanced
  rintro b c₂ ⟨v₂, new₂, σ₂, x₂, h₂, hk, hl₂⟩
  refine ⟨v₂, new₁ ++ new₂, σ₂, _, h₁.trans hc h₂, by simpa using hk, ?_⟩
  intro pool captured τ breakTo continueTo hm
  refine ⟨a, aimed τ new₁, aimed τ new₂, c₁.cursor v₁, v₁.env, aimed_append .., ?_, ?_⟩
  · exact hl₁ pool captured τ breakTo continueTo (hm.before h₂ h₁.stands)
  · rw [← h₁.setting_eq]
    exact hl₂ pool captured τ breakTo continueTo hm.right

theorem pure {P : α → Setting → Prop} {a : α} (hP : ∀ c, P a c) :
    Emits False (.nothing P) (Pure.pure a) := by
  intro c v items σ hc
  exact ⟨v, [], σ, {}, .refl hc, fun h => h.elim, fun _ _ _ _ _ _ => ⟨rfl, rfl, rfl, hP _⟩⟩

theorem fail {cause : CompileError.Cause} {span : Span} (hc : ∀ m, cause ≠ .internal m) :
    Emits keeps R (Compile.fail cause span) :=
  fun _ _ _ _ hs => Fails.of_stands hs hc

end Emits

section Unit

variable {α : Type} {c c₁ : Compiler} {v : OpenScopes} {items new : List Item} {σ σ' : Targets}
  {exits : Exits} {span : Span} {i : Item} {u : CodeUnit}

theorem Gives.onUnit {step : Emit α} {Q : α → CodeUnit → Prop}
    {E : CompileError.Cause → CodeUnit → Prop} (h : Gives step c.unit Q E) :
    Gives (Compile.onUnit span step) c (fun a c' => Q a c'.unit ∧ c' = { c with unit := c'.unit })
      (fun e c' => E e.cause c'.unit ∧ c' = { c with unit := c'.unit }) := by
  unfold Gives at h ⊢
  unfold Compile.onUnit
  rcases hs : step c.unit with ⟨e | a, u⟩ <;> rw [hs] at h <;> simp only [hs] <;>
    exact ⟨h, rfl⟩

theorem Adds.of_appended (hc : c.Stands v items σ) (h : c.unit.Appended items σ' i u)
    (hσ : ∀ p < c.unit.code.size, σ' p = σ p) :
    Adds c v items σ { c with unit := u } v [i] σ' {} where
  scopes := .refl v
  constants := List.prefix_refl _
  held := h.held
  loops := by simp [h.loops]
  stands := ⟨hc.scopes, h.writes, by simp only [h.loops, h.held]; exact hc.held, hc.pool⟩
  targets := hσ
  pending j hj := by simp [Exits.all] at hj
  apart j hj := by simp at hj
  outside _ := rfl

/-- What writing one instruction leads to. -/
theorem Gives.emitted {op : Opcode} {operands : List Nat} (hc : c.Stands v items σ)
    (hσ : ∀ p < c.unit.code.size, σ' p = σ p)
    (h : Gives (CodeUnit.emit op operands span) c.unit
      (fun position u' => position = c.unit.code.size ∧ c.unit.Appended items σ' i u')
      (fun e u' => u' = c.unit ∧ ∃ n, e = .operandTooLarge i.op n)) :
    Gives (Compile.emit op operands span) c
      (fun position c' => position = c.unit.code.size ∧ Adds c v items σ c' v [i] σ' {} ∧
        c'.unit.Recalls (items ++ [i]) ∧
        c'.cursor v = (c.cursor v).skip i.op)
      (Fails c v) := by
  refine h.onUnit.mono ?_ ?_
  · rintro position c' ⟨⟨rfl, h⟩, hc'⟩
    have hadds := Adds.of_appended hc h hσ
    rw [← hc'] at hadds
    refine ⟨rfl, hadds, h.recalls, ?_⟩
    rw [hc']
    simp [Compiler.cursor, Cursor.skip, h.size]
  · rintro e c' ⟨⟨hu, n, he⟩, hc'⟩
    rw [hu] at hc'
    subst hc'
    exact .of_stands hc (by simp [he])

namespace Compiler.Stands

theorem emit (hc : c.Stands v items σ) (hn : i.op.isJump = false) (ho : i.offset = c.unit.code.size)
    (hk : i.operands.length = i.op.operandCount) :
    Gives (Compile.emit i.op i.operands i.span) c
      (fun position c' => position = c.unit.code.size ∧ Adds c v items σ c' v [i] σ {} ∧
        c'.unit.Recalls (items ++ [i]) ∧ c'.cursor v = (c.cursor v).skip i.op)
      (Fails c v) :=
  Gives.emitted hc (fun _ _ => rfl) (hc.writes.emit hn ho hk)

theorem emitJump (hc : c.Stands v items σ) (hj : i.op.isJump = true)
    (ho : i.offset = c.unit.code.size) :
    Gives (Compile.emitJump i.op i.span) c
      (fun position c' => position = i.offset ∧ Adds c v items σ c' v [i] σ {} ∧
        c'.cursor v = (c.cursor v).skip i.op)
      (Fails c v) := by
  refine (Gives.emitted hc (fun _ _ => rfl) (hc.writes.emitJump hj ho)).mono ?_ fun _ _ h => h
  rintro position c' ⟨rfl, h, -, hs⟩
  exact ⟨ho.symm, h, hs⟩

theorem emitJumpTo (hc : c.Stands v items σ) (hj : i.op.isJump = true)
    (ho : i.offset = c.unit.code.size) (target : Nat) :
    Gives (Compile.emitJumpTo i.op target i.span) c
      (fun _ c' => Adds c v items σ c' v [i] (σ.set i.offset target) {} ∧
        c'.cursor v = (c.cursor v).skip i.op)
      (Fails c v) := by
  unfold Compile.emitJumpTo
  split
  · refine Gives.discard ((Gives.emitted hc (fun p hp => σ.set_of_ne target (by omega))
      (hc.writes.emitJumpTo hj ho target)).mono ?_ fun _ _ h => h)
    rintro position c' ⟨-, h, -, hs⟩
    exact ⟨h, hs⟩
  · exact .of_stands hc (by simp)

end Compiler.Stands

theorem Adds.patchJump {v₁ : OpenScopes} (h : Adds c v items σ c₁ v₁ new σ' exits) (hi : i ∈ new)
    (hj : i.op.isJump = true) (hstart : c.unit.code.size ≤ i.offset) (he : i.offset ∉ exits.all)
    (target : Nat) :
    Gives (Compile.patchJump i.offset target span) c₁
      (fun _ c' => Adds c v items σ c' v₁ new (σ'.set i.offset target) exits ∧
        c'.cursor v₁ = c₁.cursor v₁ ∧ c'.constants = c₁.constants)
      (Fails c v) := by
  have hmem : i ∈ items ++ new := List.mem_append_right _ hi
  refine (h.stands.writes.patchJump hmem hj target).onUnit.mono ?_ ?_
  · rintro - c' ⟨⟨hw, hu, hsize⟩, hc'⟩
    have hheld : c'.unit.held = c₁.unit.held := by rw [hu]
    have hloops : c'.unit.loops = c₁.unit.loops := by rw [hu]
    have hscopes : c'.scopes = c₁.scopes := by rw [hc']
    have hconstants : c'.constants = c₁.constants := by rw [hc']
    refine ⟨?_, by simp [Compiler.cursor, hsize, hconstants], hconstants⟩
    exact {
      scopes := h.scopes
      constants := hconstants ▸ h.constants
      held := hheld.trans h.held
      loops := hloops.trans h.loops
      stands := ⟨hscopes ▸ h.stands.scopes, hw, hloops ▸ hheld ▸ h.stands.held,
        hconstants ▸ h.stands.pool⟩
      targets := fun p hp => (σ'.set_of_ne target (by omega)).trans (h.targets p hp)
      pending := fun j hj => by
        obtain ⟨hσ, hjump⟩ := h.pending j hj
        exact ⟨(σ'.set_of_ne target fun (e : j = i.offset) => he (e ▸ hj)).trans hσ, hjump⟩
      apart := h.apart
      outside := h.outside }
  · rintro e c' ⟨⟨hu, hcause⟩, hc'⟩
    rw [hu] at hc'
    subst hc'
    exact (Fails.of_stands h.stands (by simp [hcause])).after h.toBalanced

end Unit

section Scopes

variable {α : Type} {c : Compiler} {v v' : OpenScopes} {items : List Item} {σ : Targets}
  {span : Span}

theorem Gives.onScopes {step : Scoping α} {Q : α → ScopeTable → Prop}
    {E : SymbolError → ScopeTable → Prop} (h : Gives step c.scopes Q E) :
    Gives (Compile.onScopes span step) c (fun a c' => ∃ t, Q a t ∧ c' = { c with scopes := t })
      (fun e c' => ∃ t e', E e' t ∧ e = ⟨.symbol e', span⟩ ∧ c' = { c with scopes := t }) := by
  unfold Gives at h ⊢
  unfold Compile.onScopes
  rcases hs : step c.scopes with ⟨e | a, t⟩ <;> rw [hs] at h <;> simp only [hs]
  · exact ⟨t, e, h, rfl, rfl⟩
  · exact ⟨t, h, rfl⟩

theorem Adds.of_scopes {t : ScopeTable} (hc : c.Stands v items σ) (ht : t.Shows v')
    (he : v.Extends v') : Adds c v items σ { c with scopes := t } v' [] σ {} where
  scopes := he
  constants := List.prefix_refl _
  held := rfl
  loops := by simp
  stands := ⟨ht, by simpa using hc.writes, hc.held, hc.pool.mono he.globals_le⟩
  targets p _ := rfl
  pending j hj := by simp [Exits.all] at hj
  apart j hj := by simp at hj
  outside _ := rfl

/-- A step on the scopes that changes nothing when it fails. -/
theorem Gives.scoped {step : Scoping α} {Q : α → ScopeTable → Prop}
    {E : SymbolError → ScopeTable → Prop} (hc : c.Stands v items σ) (h : Gives step c.scopes Q E)
    (hE : ∀ e t, E e t → t = c.scopes) :
    Gives (Compile.onScopes span step) c (fun a c' => ∃ t, Q a t ∧ c' = { c with scopes := t })
      (Fails c v) := by
  refine h.onScopes.mono (fun _ _ h => h) ?_
  rintro _ _ ⟨t, e, he, rfl, rfl⟩
  rw [hE e t he]
  exact .of_stands hc (by simp)

theorem Emits.resolve (name : String) (span : Span) :
    Emits False (.nothing fun s c => c.env.place? c.captured name = some s.place ∧
      s.place.index < Storage.slotLimit) (Compile.resolve name span) := by
  intro c v items σ hc
  unfold Compile.resolve
  refine Gives.reading (a := c) rfl ?_
  split
  · next index hl hi =>
    refine (Gives.scoped hc (hc.scopes.defineBuiltin hl hi) nofun).mono ?_ fun _ _ h => h
    rintro s c' ⟨t, ⟨ht, hp, hs⟩, rfl⟩
    exact ⟨v, [], σ, {}, .of_scopes hc ht (.refl v), fun h => h.elim,
      fun _ _ _ _ _ hm => ⟨rfl, rfl, rfl, Lexical.place?_mono hm.captured hp, hs⟩⟩
  · refine (Gives.scoped hc (hc.scopes.resolve name) fun _ _ h => h.1).mono ?_ fun _ _ h => h
    rintro s c' ⟨t, ⟨v', hext, henv, hslots, ht, hp, hs, -⟩, rfl⟩
    refine ⟨v', [], σ, {}, .of_scopes hc ht hext, fun h => h.elim, ?_⟩
    intro _ _ _ _ _ hm
    exact ⟨rfl, by simp [Compiler.cursor, hslots], henv, Lexical.place?_mono hm.captured hp, hs⟩

theorem Emits.define (name : Ident) :
    Emits False (fun x _ c s is s' env => is = [] ∧ x.place.index < Storage.slotLimit ∧
      ∃ slots, c.env.declare s.slots name.name = (x.place, env, slots) ∧
        s' = { s with slots := slots }) (Compile.define name) := by
  intro c v items σ hc
  refine (Gives.scoped hc (hc.scopes.define name.name) fun _ _ h => h.1).mono ?_ fun _ _ h => h
  rintro s c' ⟨t, ⟨hp, hi, ht⟩, rfl⟩
  refine ⟨_, [], σ, {}, .of_scopes hc ht (.declare v name.name), fun h => h.elim, ?_⟩
  intro _ _ _ _ _ _
  refine ⟨rfl, hi, (v.declare name.name).slots, ?_, rfl⟩
  rw [v.slots_declare, v.env_declare, hp]
  rfl

end Scopes

theorem Compiler.Stands.addConstant {c : Compiler} {v : OpenScopes} {items : List Item}
    {σ : Targets} {w : Value} (hc : c.Stands v items σ)
    (hw : ConstantOk c.constants v.globals c.constants.size w) (span : Span) :
    Gives (Compile.addConstant w span) c
      (fun index c' => index = c.constants.size ∧ c'.constants = c.constants.push w ∧
        Adds c v items σ c' v [] σ {} ∧ c'.cursor v = (c.cursor v).addConstant)
      (Fails c v) := by
  unfold Compile.addConstant
  refine Gives.reading (a := c) rfl ?_
  simp only
  split
  · refine ⟨rfl, rfl, ?_, by simp [Compiler.cursor, Cursor.addConstant]⟩
    exact {
      scopes := .refl v
      constants := by simp
      held := rfl
      loops := by simp
      stands := ⟨hc.scopes, by simpa using hc.writes, hc.held, hc.pool.push hw⟩
      targets := fun _ _ => rfl
      pending := fun j hj => by simp [Exits.all] at hj
      apart := fun j hj => by simp at hj
      outside := fun _ => rfl }
  · exact .of_stands hc (by simp)

/-- An instruction with `n` operands of its own below it, behind the loads of `loaded`. -/
def Rule.instruction (n : Nat) (loaded : List Place) (i : Instruction) (span : Span) : Rule Unit :=
  fun _ _ c s is s' env => is = [{ (c.above n).item s i span with loaded := loaded }] ∧
    s' = s.skip i.op ∧ env = c.env

namespace Emits

theorem instruction (n : Nat) (loaded : List Place) (op : Opcode) (operands : List Nat)
    (hn : op.isJump = false) (hk : operands.length = op.operandCount) (span : Span) :
    Emits True (.instruction n loaded ⟨op, operands⟩ span)
      (Functor.discard (Compile.emit op operands span)) := by
  intro c v items σ hc
  let i : Item := { op := op, operands := operands, offset := c.unit.code.size, span := span,
                    height := c.unit.held + n, loaded := loaded }
  refine Gives.discard ((hc.emit (i := i) hn rfl hk).mono ?_ fun _ _ h => h)
  rintro - c' ⟨-, h, hr, hs⟩
  refine ⟨v, [i], σ, {}, h, fun _ => hr, ?_⟩
  intro _ _ _ _ _ _
  rw [aimed_singleton, Item.aim_of_not_isJump hn]
  exact ⟨rfl, hs, rfl⟩

theorem load (n : Nat) (loaded : List Place) (s : Symbol) (span : Span) :
    Emits True (.instruction n loaded s.place.load span) (Compile.load s span) := by
  unfold Compile.load
  cases hs : s.storage with
  | self =>
    have hl : s.place.load = ⟨.currentClosure, []⟩ := by simp [Place.load, Symbol.place, hs]
    rw [hl]
    exact instruction n loaded _ _ rfl rfl span
  | _ =>
    have hl : s.place.load = ⟨.get, [s.operand]⟩ := by
      simp [Place.load, Symbol.place, hs, Symbol.operand, Place.operand]
    rw [hl]
    exact instruction n loaded _ _ rfl rfl span

theorem store (n : Nat) (s : Symbol) (span : Span) :
    Emits True (.instruction n [] ⟨.set, [s.place.operand]⟩ span) (Compile.store s span) :=
  instruction n [] _ _ rfl rfl span

theorem assignable (name : String) (span : Span) :
    Emits False (.nothing fun s c => c.env.place? c.captured name = some s.place ∧
      s.place.index < Storage.slotLimit ∧ s.place.storage.assignable = true)
      (Compile.assignable name span) := by
  have hcheck (s : Symbol) : Emits False
      (.nothing fun s' _ => s' = s ∧ s.storage.assignable = true)
      (if s.storage.assignable then Pure.pure s
        else Compile.fail (.invalidAssignment (.named s.storage name)) span) := by
    split
    · next hs => exact pure fun _ => ⟨rfl, hs⟩
    · exact fail (by simp)
  refine ((resolve name span).bind hcheck).mono id ?_
  rintro s pool c cur is cur' env
    ⟨_, _, _, _, _, rfl, ⟨rfl, rfl, rfl, hp, hi⟩, rfl, rfl, rfl, rfl, hs⟩
  exact ⟨rfl, rfl, rfl, hp, hi, hs⟩

theorem addConstant {w : Value} (span : Span)
    (hw : ∀ constants globals index, ConstantOk constants globals index w) :
    Emits False (fun index pool c s is s' env => index = s.constants ∧ pool[s.constants]? = some w ∧
      is = [] ∧ s' = s.addConstant ∧ env = c.env) (Compile.addConstant w span) := by
  intro c v items σ hc
  refine (hc.addConstant (hw _ _ _) span).mono ?_ fun _ _ h => h
  rintro index c' ⟨rfl, hconstants, h, hs⟩
  refine ⟨v, [], σ, {}, h, fun h => h.elim, ?_⟩
  intro pool _ _ _ _ hm
  have hp := hm.constants
  rw [hconstants] at hp
  exact ⟨rfl, getElem?_of_extends hp (by simp [Compiler.cursor]), rfl, hs, rfl⟩

theorem constant {w : Value} {e : Expr} (he : e.constant? = some w) :
    Emits False (fun _ pool c s is s' env => ExprCode pool c s e is s' ∧ env = c.env)
      (Compile.emitConstant w e.span) := by
  refine ((addConstant e.span fun _ _ _ => .literal he).bind fun index =>
    instruction 0 [] .constant [index] rfl rfl e.span).mono (fun h => h.elim) ?_
  rintro - pool c s is s' env
    ⟨_, _, _, _, _, rfl, ⟨rfl, hp, rfl, rfl, rfl⟩, rfl, rfl, rfl⟩
  exact ⟨.constant he hp, rfl⟩

end Emits

section Bracket

variable {α : Type} {c c₁ : Compiler} {v v₁ : OpenScopes} {items new : List Item} {σ σ₁ : Targets}
  {exits : Exits} {x : Compile Unit}

/-- A step between a change of the state and its reverse, which is made also when the step fails. -/
theorem Gives.bracket {f g : Compiler → Compiler} {Q : Unit → Compiler → Prop}
    {E : CompileError → Compiler → Prop}
    (h : Gives x (f c) (fun a c' => Q a (g c')) fun e c' => E e (g c')) :
    Gives (do
      modify f
      let result ← Compile.observing x
      modify g
      Compile.ofExcept result) c Q E := by
  unfold Gives at h ⊢
  simp only [bind_apply, modify_apply, Compile.observing]
  rcases hx : x (f c) with ⟨e | a, c'⟩ <;> rw [hx] at h <;> exact h

theorem Exits.exists_of_head?_record {ls : List LoopJumps} {l : LoopJumps}
    (h : (exits.record ls).head? = some l) : ∃ l₀, ls.head? = some l₀ ∧ l₀.held = l.held := by
  cases ls with
  | nil => cases h
  | cons l₀ ls =>
    obtain rfl := Option.some.inj h
    exact ⟨l₀, rfl, rfl⟩

def Compiler.hold (c : Compiler) (n : Nat) : Compiler := { c with unit := c.unit.hold n }

def Compiler.release (c : Compiler) (n : Nat) : Compiler := { c with unit := c.unit.release n }

theorem Compiler.Stands.hold (hc : c.Stands v items σ) (n : Nat) : (c.hold n).Stands v items σ :=
  ⟨hc.scopes, hc.writes.congr rfl rfl rfl,
    fun l hl => Nat.le_trans (hc.held l hl) (Nat.le_add_right _ _), hc.pool⟩

theorem Balanced.release {n : Nat} (h : Balanced (c.hold n) v c₁ v₁ exits) :
    Balanced c v (c₁.release n) v₁ exits where
  scopes := h.scopes
  constants := h.constants
  held := by
    have := h.held
    simp only [Compiler.hold, CodeUnit.hold] at this
    simp [Compiler.release, CodeUnit.release, this]
  loops := h.loops

theorem Compiler.Stands.release {n : Nat} (hc : c.Stands v items σ) (h : c₁.Stands v₁ new σ₁)
    (hb : Balanced (c.hold n) v c₁ v₁ exits) : (c₁.release n).Stands v₁ new σ₁ := by
  refine ⟨h.scopes, h.writes.congr rfl rfl rfl, ?_, h.pool⟩
  intro l hl
  obtain ⟨l₀, hl₀, hheld⟩ := Exits.exists_of_head?_record (hb.loops ▸ hl)
  rw [hb.release.held, ← hheld]
  exact hc.held l₀ hl₀

theorem Emits.holding {keeps : Prop} {R : Rule Unit} (h : Emits keeps R x) (n : Nat) :
    Emits False (fun a pool c s is s' env => R a pool (c.above n) s is s' env)
      (Compile.holding n x) := by
  intro c v items σ hc
  refine Gives.bracket (f := (·.hold n)) (g := (·.release n))
    ((h (c.hold n) v items σ (hc.hold n)).mono ?_ ?_)
  · rintro a c' ⟨v', new, σ', exits, ha, -, hl⟩
    refine ⟨v', new, σ', exits, ?_, fun h => h.elim, ?_⟩
    · exact { ha.toBalanced.release with
        stands := hc.release ha.stands ha.toBalanced
        targets := ha.targets
        pending := ha.pending
        apart := ha.apart
        outside := ha.outside }
    · intro pool captured τ b k hm
      exact hl pool captured τ b k ⟨hm.constants, hm.captured, hm.targets, hm.exits⟩
  · rintro e c' ⟨he, v', is, σ', exits, hs, hb⟩
    exact ⟨he, v', is, σ', exits, hc.release hs hb, hb.release⟩

theorem Compiler.Stands.enterBlock (hc : c.Stands v items σ) (kind : BlockKind) :
    Compiler.Stands { c with scopes := c.scopes.enterBlock kind } (v.modify (·.enterBlock)) items σ :=
  ⟨hc.scopes.enterBlock kind, hc.writes, hc.held, by
    obtain ⟨main, globals, _ | ⟨b, bs⟩⟩ := v <;> exact hc.pool⟩

theorem Compiler.Stands.leaveBlock (hc : c.Stands v items σ) :
    Compiler.Stands { c with scopes := c.scopes.leaveBlock } (v.modify (·.leaveBlock)) items σ :=
  ⟨hc.scopes.leaveBlock, hc.writes, hc.held, by
    obtain ⟨main, globals, _ | ⟨b, bs⟩⟩ := v <;> exact hc.pool⟩

theorem Balanced.leaveBlock {kind : BlockKind}
    (h : Balanced { c with scopes := c.scopes.enterBlock kind } (v.modify (·.enterBlock)) c₁ v₁
      exits) :
    Balanced c v { c₁ with scopes := c₁.scopes.leaveBlock } (v₁.modify (·.leaveBlock)) exits where
  scopes := h.scopes.leaveBlock.1
  constants := h.constants
  held := h.held
  loops := h.loops

theorem Emits.blockWith {keeps : Prop} {R : Rule Unit} (h : Emits keeps R x) (kind : BlockKind) :
    Emits keeps (fun a pool c s is s' env => env = c.env ∧
      ∃ env', R a pool (c.within c.env.enterBlock) s is s' env') (Compile.blockWith kind x) := by
  intro c v items σ hc
  refine Gives.bracket (f := fun c => { c with scopes := c.scopes.enterBlock kind })
    (g := fun c => { c with scopes := c.scopes.leaveBlock })
    ((h _ _ items σ (hc.enterBlock kind)).mono ?_ ?_)
  · rintro a c' ⟨v', new, σ', exits, ha, hk, hl⟩
    refine ⟨v'.modify (·.leaveBlock), new, σ', exits, ?_, hk, ?_⟩
    · exact { ha.toBalanced.leaveBlock with
        stands := ha.stands.leaveBlock
        targets := ha.targets
        pending := ha.pending
        apart := ha.apart
        outside := ha.outside }
    · intro pool captured τ b k hm
      refine ⟨ha.scopes.leaveBlock.2, v'.env, ?_⟩
      have := hl pool captured τ b k
        ⟨hm.constants, by simpa using hm.captured, hm.targets, hm.exits⟩
      simpa [Compiler.setting, Compiler.cursor, Setting.within, Lexical.enterBlock] using this
  · rintro e c' ⟨he, v', is, σ', exits, hs, hb⟩
    exact ⟨he, _, is, σ', exits, hs.leaveBlock, hb.leaveBlock⟩

end Bracket

end StackScript
