import StackScript.Proofs.Compile.Emission

/-! # Operands of compiled code

What the operands of a listing refer to: constants that are in the pool, slots that are taken, values
that are captured. The names of a body are bound to slots below those taken, and that bounds every
operand.
-/

namespace StackScript

/-- The names of the body are bound to the first `n` slots. -/
def Body.Below (b : Body) (n : Nat) : Prop := ∀ name i, b.find? name = some (.slot i) → i < n

/-- The names of the innermost body are bound to the first `slots` slots, those of the top level to
the first `globals` ones. -/
def Lexical.Below (env : Lexical) (slots globals : Nat) : Prop :=
  match env.inner with
  | [] => env.main.Below slots
  | b :: _ => b.Below slots ∧ env.main.Below globals

/-- What the instructions of a body can refer to. -/
structure Extent where
  globals : Nat
  locals : Nat
  captured : List String
  constants : Nat
  inFunction : Bool

def Place.Within (p : Place) (x : Extent) : Prop :=
  match p.storage with
  | .globalSlot => p.index < x.globals
  | .localSlot => p.index < x.locals
  | .builtin => p.index < Builtin.all.length
  | .captured => p.index < x.captured.length
  | .self => x.inFunction = true

def Setting.extent (c : Setting) (s : Cursor) (globals : Nat) : Extent :=
  match c.env.inner with
  | [] => ⟨s.slots, 0, c.captured, s.constants, false⟩
  | _ :: _ => ⟨globals, s.slots, c.captured, s.constants, true⟩

theorem Setting.captured_extent (c : Setting) (s : Cursor) (globals : Nat) :
    (c.extent s globals).captured = c.captured := by
  obtain ⟨⟨main, _ | ⟨b, bs⟩⟩, captured, loop, height⟩ := c <;> rfl

theorem Setting.constants_extent (c : Setting) (s : Cursor) (globals : Nat) :
    (c.extent s globals).constants = s.constants := by
  obtain ⟨⟨main, _ | ⟨b, bs⟩⟩, captured, loop, height⟩ := c <;> rfl

structure Extent.Le (x y : Extent) : Prop where
  globals : x.globals ≤ y.globals
  locals : x.locals ≤ y.locals
  captured : x.captured = y.captured
  constants : x.constants ≤ y.constants
  inFunction : x.inFunction = y.inFunction

section Lexical

variable {env : Lexical} {b : Body} {name : String} {slots slots' globals n m : Nat}

theorem Body.Below.mono (h : b.Below n) (hn : n ≤ m) : b.Below m :=
  fun name i hi => Nat.lt_of_lt_of_le (h name i hi) hn

theorem Body.Below.bind (h : b.Below n) (name : String) : (b.bind name (.slot n)).Below (n + 1) := by
  intro other i hi
  rw [Body.find?_bind] at hi
  split at hi
  · cases hi
    exact Nat.lt_succ_self _
  · exact Nat.lt_succ_of_lt (h other i hi)

theorem Body.below_ofParams (self : Option String) (params : List String) :
    (Body.ofParams self params).Below params.length := by
  intro name i hi
  simp only [Body.find?, Body.ofParams, List.findSome?_nil, Option.none_or] at hi
  obtain ⟨before, after, heq, -⟩ := List.lookup_eq_some_iff.mp hi
  have hmem := List.mem_append_right before
    (List.mem_cons_self (a := (name, Binding.slot i)) (l := after))
  rw [← heq] at hmem
  rcases List.mem_append.mp hmem with hmem | hmem
  · obtain ⟨⟨p, j⟩, hj, hp⟩ := List.mem_map.mp (List.mem_reverse.mp hmem)
    cases hp
    exact (List.mem_zipIdx' hj).1
  · simp [Option.map_eq_some_iff] at hmem

theorem Lexical.Below.mono (h : env.Below slots globals) (hs : slots ≤ slots') :
    env.Below slots' globals := by
  obtain ⟨main, _ | ⟨b, bs⟩⟩ := env
  · exact Body.Below.mono h hs
  · exact ⟨h.1.mono hs, h.2⟩

theorem Lexical.Below.enterBlock (h : env.Below slots globals) :
    env.enterBlock.Below slots globals := by
  have hb {b : Body} {n : Nat} (h : b.Below n) : b.enterBlock.Below n := fun name i hi =>
    h name i (b.find?_enterBlock name ▸ hi)
  obtain ⟨main, _ | ⟨b, bs⟩⟩ := env
  · exact hb (b := main) h
  · exact ⟨hb h.1, h.2⟩

theorem Lexical.below_enterFunction (h : env.main.Below globals) (self : Option String)
    (params : List String) : (env.enterFunction self params).Below params.length globals :=
  ⟨Body.below_ofParams self params, h⟩

end Lexical

namespace Extent.Le

variable {x y : Extent}

theorem place {p : Place} (h : x.Le y) (hp : p.Within x) : p.Within y := by
  unfold Place.Within at hp ⊢
  cases hs : p.storage <;> rw [hs] at hp
  · exact Nat.lt_of_lt_of_le hp h.globals
  · exact Nat.lt_of_lt_of_le hp h.locals
  · exact hp
  · exact h.captured ▸ hp
  · exact h.inFunction ▸ hp

end Extent.Le

section Places

variable {c : Setting} {s s₁ : Cursor} {env : Lexical} {globals : Nat} {name : String} {p : Place}

theorem Setting.extent_le (c : Setting) (globals : Nat) (hs : s.slots ≤ s₁.slots) (hc : s.constants ≤ s₁.constants) :
    (c.extent s globals).Le (c.extent s₁ globals) := by
  obtain ⟨⟨main, _ | ⟨b, bs⟩⟩, captured, loop, height⟩ := c
  · exact ⟨hs, Nat.le_refl _, rfl, hc, rfl⟩
  · exact ⟨Nat.le_refl _, hs, rfl, hc, rfl⟩

def Setting.Like (d c : Setting) : Prop :=
  d.captured = c.captured ∧ d.env.inner.isEmpty = c.env.inner.isEmpty

theorem Setting.Like.extent_eq {d : Setting} (h : d.Like c) (s : Cursor) :
    d.extent s globals = c.extent s globals := by
  obtain ⟨⟨main, _ | ⟨b, bs⟩⟩, captured, loop, height⟩ := c <;>
    obtain ⟨⟨main', _ | ⟨b', bs'⟩⟩, captured', loop', height'⟩ := d <;>
    obtain ⟨rfl, he⟩ := h <;> first | rfl | cases he

theorem Lexical.Below.outside (env : Lexical) {n : Nat} {x : Extent} (h : env.main.Below n)
    (hx : n = x.globals) (hp : env.outside? name = some p) : p.Within x := by
  unfold Lexical.outside? at hp
  split at hp
  · next i hi =>
    cases hp
    exact Nat.lt_of_lt_of_eq (h name i hi) hx
  · cases hp
  · obtain ⟨i, hi, rfl⟩ := Option.map_eq_some_iff.mp hp
    exact Builtin.indexOf?_lt hi

theorem Lexical.Below.main (h : c.env.Below s.slots globals) :
    c.env.main.Below (c.extent s globals).globals := by
  obtain ⟨⟨main, _ | ⟨b, bs⟩⟩, captured, loop, height⟩ := c
  · exact h
  · exact h.2

theorem Lexical.Below.place (h : c.env.Below s.slots globals)
    (hp : c.env.place? c.captured name = some p) : p.Within (c.extent s globals) := by
  obtain ⟨⟨main, _ | ⟨b, bs⟩⟩, captured, loop, height⟩ := c
  · exact Lexical.Below.outside ⟨main, []⟩ h rfl hp
  · simp only [Lexical.place?] at hp
    split at hp
    · next i hi =>
      cases hp
      exact h.1 name i hi
    · cases hp
      rfl
    · split at hp
      · obtain ⟨i, hi, rfl⟩ := Option.map_eq_some_iff.mp hp
        exact (List.idxOf?_eq_some_iff.mp hi).1
      · exact Lexical.Below.outside ⟨main, b :: bs⟩ h.2 rfl hp

theorem Lexical.isEmpty_inner_modify (env : Lexical) (f : Body → Body) :
    (env.modify f).inner.isEmpty = env.inner.isEmpty := by
  obtain ⟨main, _ | ⟨b, bs⟩⟩ := env <;> rfl

theorem Lexical.Below.declare {slots : Nat} (h : c.env.Below s.slots globals)
    (hd : c.env.declare s.slots name = (p, env, slots)) :
    s.slots ≤ slots ∧ env.Below slots globals ∧ env.inner.isEmpty = c.env.inner.isEmpty ∧
      p.storage.assignable = true ∧ p.Within (c.extent { s with slots := slots } globals) := by
  have hassignable := Lexical.assignable_declare hd
  unfold Lexical.declare at hd
  split at hd
  · next q hq =>
    cases hd
    obtain ⟨hplace, -⟩ := Option.filter_eq_some_iff.mp hq
    have hp : p.Within (({ c with captured := [] } : Setting).extent s globals) :=
      Lexical.Below.place (c := { c with captured := [] }) h hplace
    refine ⟨Nat.le_refl _, h, rfl, hassignable, ?_⟩
    unfold Place.Within Setting.extent at hp ⊢
    obtain ⟨storage, index⟩ := p
    obtain ⟨⟨main, _ | ⟨b, bs⟩⟩, captured, loop, height⟩ := c <;> cases storage <;>
      first | exact hp | cases hassignable
  · cases hd
    refine ⟨Nat.le_succ _, ?_, Lexical.isEmpty_inner_modify _ _, hassignable, ?_⟩
    · obtain ⟨⟨main, _ | ⟨b, bs⟩⟩, captured, loop, height⟩ := c
      · exact Body.Below.bind h name
      · exact ⟨h.1.bind name, h.2⟩
    · obtain ⟨⟨main, _ | ⟨b, bs⟩⟩, captured, loop, height⟩ := c <;> exact Nat.lt_succ_self _

end Places

/-- The operand of an instruction names a place of the body. -/
def Item.Names (i : Item) (x : Extent) (Ok : Storage → Prop) : Prop :=
  ∃ p : Place, i.operands = [p.operand] ∧ Ok p.storage ∧ p.index < Storage.slotLimit ∧ p.Within x

/-- The instruction makes a closure of its function literal: the constant is the body of the literal,
and the values before it are those of the captured names. -/
structure Item.Closes (i : Item) (pool : Array Value) (x : Extent) (l : Literal) : Prop where
  literal : i.literal = some l
  captured : l.names.map (l.env.place? x.captured) = i.loaded.map some
  enclosed : ∀ name ∈ l.names, l.env.enclosed name = true
  below : l.env.main.Below x.globals
  body : ∃ (k first : Nat) (bodySpan : Span) (f : Function) (is : List Item) (s : Cursor),
    i.operands = [k, l.names.length] ∧ k < x.constants ∧ pool[k]? = some (.function f) ∧
    FunctionCode pool l.env l.names first l.self l.params l.body bodySpan f is s

/-- What the operands of an instruction refer to exists. -/
def Item.Sound (i : Item) (pool : Array Value) (x : Extent) : Prop :=
  match i.op with
  | .constant => ∃ k v, i.operands = [k] ∧ k < x.constants ∧ pool[k]? = some v ∧
      ∃ e : Expr, e.constant? = some v
  | .get => i.Names x (· ≠ .self)
  | .set | .setElement => i.Names x (·.assignable = true)
  | .currentClosure => x.inFunction = true
  | .hash => ∃ n, i.operands = [2 * n]
  | .closure => ∃ literal, i.Closes pool x literal
  | _ => True

section Sound

variable {pool : Array Value} {x y : Extent} {i : Item} {c : Setting} {s s₁ s₂ : Cursor}
  {span : Span} {globals : Nat} {p : Place}

theorem Item.Names.mono {Ok : Storage → Prop} (h : i.Names x Ok) (hx : x.Le y) : i.Names y Ok := by
  obtain ⟨p, ho, hs, hi, hp⟩ := h
  exact ⟨p, ho, hs, hi, hx.place hp⟩

theorem Item.Sound.assignable (h : i.Sound pool x) (ho : i.op = .set ∨ i.op = .setElement) :
    i.Names x (·.assignable = true) := by
  rcases ho with ho | ho <;> simpa only [Item.Sound, ho] using h

theorem Item.Sound.names (h : i.Sound pool x) (ho : i.op = .get ∨ i.op = .set ∨ i.op = .setElement) :
    i.Names x (· ≠ .self) := by
  rcases ho with ho | ho
  · simpa only [Item.Sound, ho] using h
  · obtain ⟨p, hp, hassign, hrest⟩ := h.assignable ho
    exact ⟨p, hp, Place.storage_ne_self hassign, hrest⟩

theorem Item.Sound.closes (h : i.Sound pool x) (ho : i.op = .closure) : ∃ l, i.Closes pool x l := by
  simpa only [Item.Sound, ho] using h

theorem Item.Sound.mono (h : i.Sound pool x) (hx : x.Le y) : i.Sound pool y := by
  unfold Item.Sound at h ⊢
  split at h
  · obtain ⟨k, v, ho, hk, hv⟩ := h
    exact ⟨k, v, ho, Nat.lt_of_lt_of_le hk hx.constants, hv⟩
  · exact h.mono hx
  · exact h.mono hx
  · exact h.mono hx
  · exact hx.inFunction ▸ h
  · exact h
  · obtain ⟨literal, hl, hc, hn, hb, k, first, bodySpan, f, is, s, ho, hk, hf⟩ := h
    exact ⟨literal, hl, hx.captured ▸ hc, hn, hb.mono hx.globals, k, first, bodySpan, f, is, s, ho,
      Nat.lt_of_lt_of_le hk hx.constants, hf⟩
  · trivial

theorem sound_load (c : Setting) (s : Cursor) (span : Span) (loaded : List Place)
    (hi : p.index < Storage.slotLimit) (hp : p.Within x) :
    Item.Sound { c.item s p.load span with loaded := loaded } pool x := by
  obtain ⟨storage, index⟩ := p
  cases storage <;> first | exact hp | exact ⟨_, rfl, Storage.noConfusion, hi, hp⟩

theorem sound_loads {places : List Place}
    (hi : ∀ p ∈ places, p.index < Storage.slotLimit) (hp : ∀ p ∈ places, p.Within x)
    (loaded : List Place) : ∀ i ∈ c.loads s span loaded places, i.Sound pool x := by
  induction places generalizing c s loaded with
  | nil => simp [Setting.loads]
  | cons p places ih =>
    intro i hmem
    rcases List.mem_cons.mp hmem with rfl | hmem
    · exact sound_load _ _ _ loaded (hi p (by simp)) (hp p (by simp))
    · exact ih (fun q hq => hi q (by simp [hq])) (fun q hq => hp q (by simp [hq])) _ i hmem

theorem sound_drops (n : Nat) : ∀ i ∈ c.drops s span n, i.Sound pool x := by
  induction n generalizing c s with
  | zero => simp [Setting.drops]
  | succ n ih =>
    intro i hi
    rcases List.mem_cons.mp hi with rfl | hi
    · trivial
    · exact ih i hi

end Sound

/-- Slots and constants are only added. -/
def Cursor.Grows (s s₁ : Cursor) : Prop := s.slots ≤ s₁.slots ∧ s.constants ≤ s₁.constants

namespace Cursor.Grows

variable {s s₁ s₂ : Cursor}

theorem refl (s : Cursor) : s.Grows s := ⟨Nat.le_refl _, Nat.le_refl _⟩

theorem trans (h₁ : s.Grows s₁) (h₂ : s₁.Grows s₂) : s.Grows s₂ :=
  ⟨Nat.le_trans h₁.1 h₂.1, Nat.le_trans h₁.2 h₂.2⟩

theorem declare {env env' : Lexical} {name : String} {place : Place} {slots : Nat}
    (hd : env.declare s.slots name = (place, env', slots)) : s.Grows { s with slots := slots } := by
  unfold Lexical.declare at hd
  split at hd
  · cases hd
    exact refl s
  · cases hd
    exact ⟨Nat.le_succ _, Nat.le_refl _⟩

end Cursor.Grows

section Grows

variable {pool : Array Value}

theorem Cursor.skipLoads_grows (s : Cursor) (places : List Place) : s.Grows (s.skipLoads places) := by
  induction places generalizing s with
  | nil => exact .refl s
  | cons p places ih => exact ih (s.skip p.load.op)

mutual

theorem ExprCode.grows {c : Setting} {s s₁ : Cursor} {e : Expr} {is : List Item} :
    ExprCode pool c s e is s₁ → s.Grows s₁
  | .constant _ _ => ⟨Nat.le_refl _, Nat.le_succ _⟩
  | .bool | .null | .ident _ _ => .refl s
  | .unary h | .array h | .hash h | .assign _ _ _ h => h.grows
  | .binary _ h₁ h₂ | .call h₁ h₂ | .index h₁ h₂ | .assignElement _ _ _ h₁ h₂ =>
    h₁.grows.trans h₂.grows
  | .cond h₁ h₂ h₃ => (h₁.grows.trans h₂.grows).trans h₃.grows
  | .function h => h.grows

theorem ExprsCode.grows {c : Setting} {s s₁ : Cursor} {es : List Expr} {is : List Item} :
    ExprsCode pool c s es is s₁ → s.Grows s₁
  | .nil => .refl s
  | .cons h₁ h₂ => h₁.grows.trans h₂.grows

theorem PairsCode.grows {c : Setting} {s s₁ : Cursor} {ps : List (Expr × Expr)} {is : List Item} :
    PairsCode pool c s ps is s₁ → s.Grows s₁
  | .nil => .refl s
  | .cons h₁ h₂ h₃ => (h₁.grows.trans h₂.grows).trans h₃.grows

theorem BranchCode.grows {c : Setting} {s s₁ : Cursor} {b : Block} {is : List Item} :
    BranchCode pool c s b is s₁ → s.Grows s₁
  | .value h | .null _ h => h.grows

theorem ElseCode.grows {c : Setting} {s s₁ : Cursor} {b : Option Block} {span : Span}
    {is : List Item} : ElseCode pool c s b span is s₁ → s.Grows s₁
  | .block h => h.grows
  | .null => .refl s

theorem ClosureCode.grows {c : Setting} {s s₁ : Cursor} {self : Option String}
    {params : List Ident} {body : List Stmt} {bodySpan span : Span} {is : List Item} :
    ClosureCode pool c s self params body bodySpan span is s₁ → s.Grows s₁
  | @ClosureCode.mk _ _ _ _ _ _ _ _ _ _ places _ _ h _ _ _ _ =>
    ⟨(s.skipLoads_grows places).1, Nat.le_trans h.grows (Nat.le_succ _)⟩

theorem FunctionCode.grows {env : Lexical} {names : List String} {constants : Nat}
    {self : Option String} {params : List Ident} {body : List Stmt} {bodySpan : Span} {f : Function}
    {is : List Item} {s₁ : Cursor} :
    FunctionCode pool env names constants self params body bodySpan f is s₁ →
      constants ≤ s₁.constants
  | .mk h _ _ _ _ _ _ => h.grows.2

theorem BodyCode.grows {c : Setting} {s s₁ : Cursor} {body : List Stmt} {span : Span}
    {is : List Item} : BodyCode pool c s body span is s₁ → s.Grows s₁
  | .value h | .returned _ h | .null _ h => h.grows

theorem ValueCode.grows {c : Setting} {s s₁ : Cursor} {ss : List Stmt} {is : List Item} :
    ValueCode pool c s ss is s₁ → s.Grows s₁
  | .last h => h.grows
  | .cons h₁ h₂ => h₁.grows.trans h₂.grows

theorem StmtCode.grows {c : Setting} {s s₁ : Cursor} {st : Stmt} {is : List Item} {env : Lexical} :
    StmtCode pool c s st is s₁ env → s.Grows s₁
  | .bindFunction hd _ h => (Cursor.Grows.declare hd).trans h.grows
  | .bind _ h hd _ => h.grows.trans (.declare hd)
  | .ret => .refl s
  | .retValue h | .expr h => h.grows
  | .whileLoop h₁ h₂ => h₁.grows.trans h₂.grows
  | .forLoop h₀ h₁ h₂ h₃ => ((h₀.grows.trans h₁.grows).trans h₂.grows).trans h₃.grows
  | .breakLoop _ _ hs | .continueLoop _ _ hs => hs ▸ .refl s

theorem StmtsCode.grows {c : Setting} {s s₁ : Cursor} {ss : List Stmt} {is : List Item}
    {env : Lexical} : StmtsCode pool c s ss is s₁ env → s.Grows s₁
  | .nil => .refl s
  | .cons h₁ h₂ => h₁.grows.trans h₂.grows

theorem InitCode.grows {c : Setting} {s s₁ : Cursor} {st : Option Stmt} {is : List Item}
    {env : Lexical} : InitCode pool c s st is s₁ env → s.Grows s₁
  | .none => .refl s
  | .some h => h.grows

theorem GuardCode.grows {c : Setting} {s s₁ : Cursor} {e : Option Expr} {stop : Nat}
    {is : List Item} : GuardCode pool c s e stop is s₁ → s.Grows s₁
  | .none => .refl s
  | .some h => h.grows

theorem UpdateCode.grows {c : Setting} {s s₁ : Cursor} {e : Option Expr} {is : List Item} :
    UpdateCode pool c s e is s₁ → s.Grows s₁
  | .none => .refl s
  | .some h => h.grows

end

end Grows

/-- The operands of a listing are sound, and behind it the names are bound to slots that are taken. -/
structure Refers (pool : Array Value) (globals : Nat) (c : Setting) (is : List Item) (s₁ : Cursor)
    (env₁ : Lexical) : Prop where
  sound : ∀ i ∈ is, i.Sound pool (c.extent s₁ globals)
  below : env₁.Below s₁.slots globals
  same : env₁.inner.isEmpty = c.env.inner.isEmpty

section Refers

variable {pool : Array Value} {globals : Nat} {c : Setting} {s s₁ s₂ : Cursor}
  {is is₁ is₂ : List Item} {env env₁ env₂ : Lexical} {i : Item}

theorem Refers.nil (h : c.env.Below s.slots globals) : Refers pool globals c [] s c.env :=
  ⟨by simp, h, rfl⟩

theorem Refers.single (h : c.env.Below s₁.slots globals) (hi : i.Sound pool (c.extent s₁ globals)) :
    Refers pool globals c [i] s₁ c.env :=
  ⟨by simpa using hi, h, rfl⟩

theorem Refers.append {d : Setting} (h₁ : Refers pool globals c is₁ s₁ env₁) (hg : s₁.Grows s₂)
    (h₂ : Refers pool globals d is₂ s₂ env₂) (hd : d.Like c) :
    Refers pool globals c (is₁ ++ is₂) s₂ env₂ := by
  refine ⟨fun i hi => ?_, h₂.below, h₂.same.trans hd.2⟩
  rcases List.mem_append.mp hi with hi | hi
  · exact (h₁.sound i hi).mono (c.extent_le _ hg.1 hg.2)
  · rw [← hd.extent_eq]
    exact h₂.sound i hi

theorem Refers.last (h : Refers pool globals c is s₁ env₁) (hs : s₁.slots = s₂.slots)
    (hc : s₁.constants = s₂.constants) (hi : i.Sound pool (c.extent s₁ globals)) :
    Refers pool globals c (is ++ [i]) s₂ env₁ := by
  have hle := c.extent_le globals (Nat.le_of_eq hs) (Nat.le_of_eq hc)
  refine ⟨fun j hj => ?_, hs ▸ h.below, h.same⟩
  rcases List.mem_append.mp hj with hj | hj
  · exact (h.sound j hj).mono hle
  · obtain rfl := List.mem_singleton.mp hj
    exact hi.mono hle

theorem Refers.block {d : Setting} (h : Refers pool globals d is s₁ env₁) (hd : d.Like c)
    (hb : c.env.Below s.slots globals) (hg : s.Grows s₁) : Refers pool globals c is s₁ c.env := by
  refine ⟨fun i hi => ?_, hb.mono hg.1, rfl⟩
  rw [← hd.extent_eq]
  exact h.sound i hi

theorem Setting.like_enterBlock (c : Setting) : (c.within c.env.enterBlock).Like c :=
  ⟨rfl, c.env.isEmpty_inner_modify (·.enterBlock)⟩

theorem ClosureCode.refers {self : Option String} {params : List Ident} {body : List Stmt}
    {bodySpan span : Span} (h : ClosureCode pool c s self params body bodySpan span is s₁)
    (hb : c.env.Below s.slots globals) : Refers pool globals c is s₁ c.env := by
  have hg := h.grows
  cases h with
  | @mk _ _ s₂ _ _ _ _ _ names places f is' hbody hpool hplaces hn hlt =>
    have hle := c.extent_le globals hg.1 hg.2
    have hwithin (p : Place) (hp : p ∈ places) : p.Within (c.extent s globals) := by
      have hmem : some p ∈ names.map (c.env.place? c.captured) := by
        rw [hplaces]
        exact List.mem_map_of_mem hp
      obtain ⟨name, -, hname⟩ := List.mem_map.mp hmem
      exact hb.place hname
    refine ⟨fun i hi => ?_, hb.mono hg.1, rfl⟩
    rcases List.mem_append.mp hi with hi | hi
    · exact (sound_loads hlt hwithin [] i hi).mono hle
    · obtain rfl := List.mem_singleton.mp hi
      refine ⟨_, rfl, ?_, fun name hname => (hn name hname).1, hb.main.mono hle.globals, _, _, _, f, is', s₂, rfl, ?_, hpool, hbody⟩
      · rw [c.captured_extent]
        exact hplaces
      · rw [c.constants_extent]
        exact Nat.lt_succ_self _

mutual

theorem ExprCode.refers {c : Setting} {s s₁ : Cursor} {e : Expr} {is : List Item} :
    ExprCode pool c s e is s₁ → c.env.Below s.slots globals → Refers pool globals c is s₁ c.env
  | .constant he hv, hb => .single hb ⟨_, _, rfl, by rw [c.constants_extent]; exact Nat.lt_succ_self _,
      hv, _, he⟩
  | .bool (b := b), hb => by cases b <;> exact .single hb trivial
  | .null, hb => .single hb trivial
  | .ident hp hi, hb => .single hb (sound_load _ _ _ [] hi (hb.place hp))
  | .unary h, hb => (h.refers hb).last rfl rfl trivial
  | .binary _ h₁ h₂, hb =>
    have h := h₁.refers hb
    (h.append h₂.grows (h₂.refers h.below) ⟨rfl, rfl⟩).last rfl rfl trivial
  | .cond h₁ h₂ h₃, hb => by
    have hc := h₁.refers hb
    have ht := h₂.refers hc.below
    have he := h₃.refers ht.below
    refine .append (.last (.append (.last hc rfl rfl ?_) h₂.grows ht ⟨rfl, rfl⟩) rfl rfl ?_)
      h₃.grows he ⟨rfl, rfl⟩
    · trivial
    · trivial
  | .function h, hb => h.refers hb
  | .call h₁ h₂, hb =>
    have h := h₁.refers hb
    (h.append h₂.grows (h₂.refers h.below) ⟨rfl, rfl⟩).last rfl rfl trivial
  | .array h, hb => (h.refers hb).last rfl rfl trivial
  | .hash h, hb => (h.refers hb).last rfl rfl ⟨_, rfl⟩
  | .index h₁ h₂, hb =>
    have h := h₁.refers hb
    (h.append h₂.grows (h₂.refers h.below) ⟨rfl, rfl⟩).last rfl rfl trivial
  | @ExprCode.assign _ _ _ s₂ _ _ span _ _ _ hp hi ha h, hb => by
    have hle := c.extent_le globals h.grows.1 h.grows.2
    have hp := hle.place (hb.place hp)
    refine .last (.last (h.refers hb) rfl rfl ?_) rfl rfl ?_
    · exact ⟨_, rfl, ha, hi, hp⟩
    · exact sound_load c (s₂.skip .set) span [] hi hp
  | .assignElement hp hi ha h₁ h₂, hb =>
    have h := h₁.refers hb
    have hg := h₁.grows.trans h₂.grows
    have hle := c.extent_le globals hg.1 hg.2
    (h.append h₂.grows (h₂.refers h.below) ⟨rfl, rfl⟩).last rfl rfl
      ⟨_, rfl, ha, hi, hle.place (hb.place hp)⟩

theorem ExprsCode.refers {c : Setting} {s s₁ : Cursor} {es : List Expr} {is : List Item} :
    ExprsCode pool c s es is s₁ → c.env.Below s.slots globals → Refers pool globals c is s₁ c.env
  | .nil, hb => .nil hb
  | .cons h₁ h₂, hb =>
    have h := h₁.refers hb
    h.append h₂.grows (h₂.refers h.below) ⟨rfl, rfl⟩

theorem PairsCode.refers {c : Setting} {s s₁ : Cursor} {ps : List (Expr × Expr)} {is : List Item} :
    PairsCode pool c s ps is s₁ → c.env.Below s.slots globals → Refers pool globals c is s₁ c.env
  | .nil, hb => .nil hb
  | .cons h₁ h₂ h₃, hb =>
    have h := h₁.refers hb
    have h := h.append h₂.grows (h₂.refers h.below) ⟨rfl, rfl⟩
    h.append h₃.grows (h₃.refers h.below) ⟨rfl, rfl⟩

theorem BranchCode.refers {c : Setting} {s s₁ : Cursor} {b : Block} {is : List Item} :
    BranchCode pool c s b is s₁ → c.env.Below s.slots globals → Refers pool globals c is s₁ c.env
  | .value h, hb =>
    have ⟨_, hv⟩ := h.refers hb.enterBlock
    hv.block c.like_enterBlock hb h.grows
  | .null _ h, hb =>
    ((h.refers hb.enterBlock).block c.like_enterBlock hb h.grows).last rfl rfl trivial

theorem ElseCode.refers {c : Setting} {s s₁ : Cursor} {b : Option Block} {span : Span}
    {is : List Item} : ElseCode pool c s b span is s₁ → c.env.Below s.slots globals →
    Refers pool globals c is s₁ c.env
  | .block h, hb => h.refers hb
  | .null, hb => .single hb trivial

theorem ValueCode.refers {c : Setting} {s s₁ : Cursor} {ss : List Stmt} {is : List Item} :
    ValueCode pool c s ss is s₁ → c.env.Below s.slots globals →
    ∃ env, Refers pool globals c is s₁ env
  | .last h, hb => ⟨_, h.refers hb⟩
  | .cons h₁ h₂, hb =>
    have h := h₁.refers hb
    have ⟨env, h'⟩ := h₂.refers h.below
    ⟨env, h.append h₂.grows h' ⟨rfl, h.same⟩⟩

theorem StmtCode.refers {c : Setting} {s s₁ : Cursor} {st : Stmt} {is : List Item} {env : Lexical} :
    StmtCode pool c s st is s₁ env → c.env.Below s.slots globals → Refers pool globals c is s₁ env
  | .bindFunction hd hi h, hb => by
    obtain ⟨-, hbelow, hsame, ha, hp⟩ := hb.declare hd
    have hle := c.extent_le globals h.grows.1 h.grows.2
    have hall := (Refers.nil hb).append (.trans (.declare hd) h.grows) (h.refers hbelow) ⟨rfl, hsame⟩
    exact hall.last rfl rfl ⟨_, rfl, ha, hi, hle.place hp⟩
  | .bind _ h hd hi, hb => by
    have hv := h.refers hb
    obtain ⟨-, hbelow, hsame, ha, hp⟩ := hv.below.declare hd
    have hle := c.extent_le globals (Cursor.Grows.declare hd).1 (Nat.le_refl _)
    have hall : Refers pool globals c _ _ _ :=
      ⟨fun i hi => (hv.sound i hi).mono hle, hbelow, hsame⟩
    exact hall.last rfl rfl ⟨_, rfl, ha, hi, hp⟩
  | .ret, hb => .single hb trivial
  | .retValue h, hb | .expr h, hb => (h.refers hb).last rfl rfl trivial
  | .whileLoop h₁ h₂, hb => by
    have hc := h₁.refers hb
    have hl := (h₂.refers hc.below.enterBlock).block (c := c) c.like_enterBlock hc.below h₂.grows
    refine .last (.append (.last hc rfl rfl ?_) h₂.grows hl ⟨rfl, rfl⟩) rfl rfl ?_
    · trivial
    · trivial
  | .forLoop h₀ h₁ h₂ h₃, hb => by
    have hfirst := h₀.refers hb.enterBlock
    have hguard := h₁.refers hfirst.below
    have hbody := h₂.refers hguard.below
    have hupdate := h₃.refers hbody.below
    have hall := ((hfirst.append h₁.grows hguard ⟨rfl, hfirst.same⟩).append h₂.grows hbody
      ⟨rfl, hfirst.same⟩).append h₃.grows hupdate ⟨rfl, hbody.same.trans hfirst.same⟩
    refine .last (.block hall c.like_enterBlock hb ?_) rfl rfl trivial
    exact ((h₀.grows.trans h₁.grows).trans h₂.grows).trans h₃.grows
  | .breakLoop _ _ hs, hb | .continueLoop _ _ hs, hb => by
    subst hs
    exact .last ⟨sound_drops _, hb, rfl⟩ rfl rfl trivial

theorem StmtsCode.refers {c : Setting} {s s₁ : Cursor} {ss : List Stmt} {is : List Item}
    {env : Lexical} : StmtsCode pool c s ss is s₁ env → c.env.Below s.slots globals →
    Refers pool globals c is s₁ env
  | .nil, hb => .nil hb
  | .cons h₁ h₂, hb =>
    have h := h₁.refers hb
    h.append h₂.grows (h₂.refers h.below) ⟨rfl, h.same⟩

theorem InitCode.refers {c : Setting} {s s₁ : Cursor} {st : Option Stmt} {is : List Item}
    {env : Lexical} : InitCode pool c s st is s₁ env → c.env.Below s.slots globals →
    Refers pool globals c is s₁ env
  | .none, hb => .nil hb
  | .some h, hb => h.refers hb

theorem GuardCode.refers {c : Setting} {s s₁ : Cursor} {e : Option Expr} {stop : Nat}
    {is : List Item} : GuardCode pool c s e stop is s₁ → c.env.Below s.slots globals →
    Refers pool globals c is s₁ c.env
  | .none, hb => .nil hb
  | .some h, hb => (h.refers hb).last rfl rfl trivial

theorem UpdateCode.refers {c : Setting} {s s₁ : Cursor} {e : Option Expr} {is : List Item} :
    UpdateCode pool c s e is s₁ → c.env.Below s.slots globals → Refers pool globals c is s₁ c.env
  | .none, hb => .nil hb
  | .some h, hb => (h.refers hb).last rfl rfl trivial

end

theorem BodyCode.refers {body : List Stmt} {span : Span} (h : BodyCode pool c s body span is s₁)
    (hb : c.env.Below s.slots globals) : ∀ i ∈ is, i.Sound pool (c.extent s₁ globals) := by
  cases h with
  | value h =>
    obtain ⟨env, hv⟩ := h.refers hb
    exact Refers.sound (hv.last rfl rfl trivial)
  | returned _ h => exact (h.refers hb).sound
  | null _ h => exact Refers.sound ((h.refers hb).last rfl rfl trivial)

theorem FunctionCode.sound {names : List String} {first : Nat} {self : Option String}
    {params : List Ident} {body : List Stmt} {bodySpan : Span} {f : Function}
    (h : FunctionCode pool env names first self params body bodySpan f is s)
    (hb : env.main.Below globals) :
    f.params ≤ f.locals ∧
      ∀ i ∈ is, i.Sound pool ⟨globals, f.locals, names, s.constants, true⟩ := by
  cases h with
  | mk h _ _ hlocals hparams _ _ =>
    rw [hlocals, hparams]
    have hbelow := Lexical.below_enterFunction hb self (params.map (·.name))
    rw [List.length_map] at hbelow
    exact ⟨h.grows.1, h.refers hbelow⟩

theorem ProgramCode.sound {body : List Stmt} (h : ProgramCode pool env s body is s₁)
    (hi : env.inner = []) (hb : env.main.Below s.slots) :
    ∀ i ∈ is, i.Sound pool ⟨s₁.slots, 0, [], s₁.constants, false⟩ := by
  obtain ⟨main, inner⟩ := env
  subst hi
  have hbelow : Lexical.Below ⟨main, []⟩ s.slots 0 := hb
  cases h with
  | value h =>
    obtain ⟨env, hv⟩ := h.refers hbelow
    exact hv.sound
  | other _ h => exact (h.refers hbelow).sound

end Refers

end StackScript
