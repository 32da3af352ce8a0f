import Mathlib.Data.List.Forall2
import StackScript.Scope.Table
import StackScript.Proofs.Scope.Lexical

/-! # Scope tables and lexical environments

A scope table shows a lexical environment when its contexts bind the same names to the same slots.
Beyond the environment it holds what a body has captured so far, and the builtins in use. Every
operation of the table is an operation of the environment.
-/

namespace StackScript

/-- An open function body: its names, the slots taken and the names captured. -/
structure OpenBody where
  names : Body
  slots : Nat
  captured : List String

structure OpenScopes where
  main : Body := {}
  globals : Nat := 0
  /-- Function bodies, the innermost first. -/
  inner : List OpenBody := []

namespace OpenScopes

def env (v : OpenScopes) : Lexical := ⟨v.main, v.inner.map (·.names)⟩

def slots (v : OpenScopes) : Nat :=
  match v.inner with
  | [] => v.globals
  | b :: _ => b.slots

def captured (v : OpenScopes) : List String :=
  match v.inner with
  | [] => []
  | b :: _ => b.captured

def modify (v : OpenScopes) (f : Body → Body) : OpenScopes :=
  match v with
  | ⟨main, globals, []⟩ => ⟨f main, globals, []⟩
  | ⟨main, globals, b :: bs⟩ => ⟨main, globals, { b with names := f b.names } :: bs⟩

def take (v : OpenScopes) (slots : Nat) : OpenScopes :=
  match v with
  | ⟨main, _, []⟩ => ⟨main, slots, []⟩
  | ⟨main, globals, b :: bs⟩ => ⟨main, globals, { b with slots := slots } :: bs⟩

def capture (v : OpenScopes) (name : String) : OpenScopes :=
  match v with
  | ⟨main, globals, []⟩ => ⟨main, globals, []⟩
  | ⟨main, globals, b :: bs⟩ =>
    ⟨main, globals, { b with captured := b.captured ++ [name] } :: bs⟩

@[simp] theorem env_modify (v : OpenScopes) (f : Body → Body) :
    (v.modify f).env = v.env.modify f := by
  obtain ⟨main, globals, _ | ⟨b, bs⟩⟩ := v <;> rfl

@[simp] theorem env_take (v : OpenScopes) (n : Nat) : (v.take n).env = v.env := by
  obtain ⟨main, globals, _ | ⟨b, bs⟩⟩ := v <;> rfl

@[simp] theorem env_capture (v : OpenScopes) (name : String) : (v.capture name).env = v.env := by
  obtain ⟨main, globals, _ | ⟨b, bs⟩⟩ := v <;> rfl

@[simp] theorem slots_modify (v : OpenScopes) (f : Body → Body) :
    (v.modify f).slots = v.slots := by
  obtain ⟨main, globals, _ | ⟨b, bs⟩⟩ := v <;> rfl

@[simp] theorem slots_take (v : OpenScopes) (n : Nat) : (v.take n).slots = n := by
  obtain ⟨main, globals, _ | ⟨b, bs⟩⟩ := v <;> rfl

@[simp] theorem slots_capture (v : OpenScopes) (name : String) :
    (v.capture name).slots = v.slots := by
  obtain ⟨main, globals, _ | ⟨b, bs⟩⟩ := v <;> rfl

@[simp] theorem captured_modify (v : OpenScopes) (f : Body → Body) :
    (v.modify f).captured = v.captured := by
  obtain ⟨main, globals, _ | ⟨b, bs⟩⟩ := v <;> rfl

theorem captured_capture {v : OpenScopes} (h : v.inner ≠ []) (name : String) :
    (v.capture name).captured = v.captured ++ [name] := by
  obtain ⟨main, globals, _ | ⟨b, bs⟩⟩ := v
  · exact absurd rfl h
  · rfl

@[simp] theorem captured_take (v : OpenScopes) (n : Nat) : (v.take n).captured = v.captured := by
  obtain ⟨main, globals, _ | ⟨b, bs⟩⟩ := v <;> rfl

end OpenScopes

/-- The binding that a symbol stands for; captured values and builtins are no bindings. -/
def Symbol.binding? (s : Symbol) : Option Binding :=
  match s.storage with
  | .globalSlot | .localSlot => some (.slot s.index)
  | .self => some .self
  | .builtin | .captured => none

/-- A context binds `names`, and all its symbols satisfy `Ok`. -/
structure Context.Shows (c : Context) (Ok : String → Symbol → Prop) (names : Names) : Prop where
  binding : ∀ name, (c.find? name).bind Symbol.binding? = names.lookup name
  ok : ∀ name s, c.find? name = some s → Ok name s

namespace Context.Shows

variable {c : Context} {Ok Ok' : String → Symbol → Prop} {names : Names} {name : String}

theorem empty (id : Nat) (title : String) : Shows ⟨id, title, ∅⟩ Ok [] where
  binding name := by simp
  ok name s h := by simp at h

theorem mono (h : c.Shows Ok names) (hok : ∀ name s, Ok name s → Ok' name s) :
    c.Shows Ok' names where
  binding := h.binding
  ok name s hs := hok name s (h.ok name s hs)

theorem lookup_of_some {s : Symbol} (h : c.Shows Ok names) (hs : c.find? name = some s) :
    names.lookup name = s.binding? := by
  rw [← h.binding name, hs]; rfl

theorem lookup_of_none (h : c.Shows Ok names) (hs : c.find? name = none) :
    names.lookup name = none := by
  rw [← h.binding name, hs]; rfl

theorem insert {s : Symbol} {b : Binding} (h : c.Shows Ok names) (hb : s.binding? = some b)
    (hok : Ok s.name s) : (c.insert s).Shows Ok ((s.name, b) :: names) where
  binding name := by
    simp only [Context.find?_insert, List.lookup_cons]
    by_cases hn : s.name = name
    · simp [hn, hb]
    · have hn' : (name == s.name) = false := by simpa using fun e => hn e.symm
      simp [hn, hn', h.binding name]
  ok name s' hs' := by
    simp only [Context.find?_insert] at hs'
    by_cases hn : s.name = name
    · simp only [hn, if_true, Option.some.injEq] at hs'
      subst hs'; subst hn; exact hok
    · simp only [hn, if_false] at hs'
      exact h.ok name s' hs'

/-- A symbol that stands for no binding leaves the names as they are. -/
theorem insertHidden {s : Symbol} (h : c.Shows Ok names) (hb : s.binding? = none)
    (hn : names.lookup s.name = none) (hok : Ok s.name s) : (c.insert s).Shows Ok names where
  binding name := by
    simp only [Context.find?_insert]
    by_cases he : s.name = name
    · subst he; simp [hb, hn]
    · simp [he, h.binding name]
  ok name s' hs' := by
    simp only [Context.find?_insert] at hs'
    by_cases he : s.name = name
    · simp only [he, if_true, Option.some.injEq] at hs'
      subst hs'; subst he; exact hok
    · simp only [he, if_false] at hs'
      exact h.ok name s' hs'

end Context.Shows

structure FunctionScope.Shows (f : FunctionScope) (RootOk BlockOk : String → Symbol → Prop)
    (b : Body) : Prop where
  root : f.root.Shows RootOk b.root
  blocks : List.Forall₂ (fun c names => Context.Shows c BlockOk names) f.blocks b.blocks

namespace FunctionScope.Shows

variable {f : FunctionScope} {RootOk BlockOk : String → Symbol → Prop} {b : Body} {name : String}

theorem mono {RootOk' BlockOk' : String → Symbol → Prop} (h : f.Shows RootOk BlockOk b)
    (hr : ∀ name s, RootOk name s → RootOk' name s)
    (hb : ∀ name s, BlockOk name s → BlockOk' name s) : f.Shows RootOk' BlockOk' b where
  root := h.root.mono hr
  blocks := h.blocks.imp fun _ _ hc => hc.mono hb

theorem findSome?_blocks (name : String) {cs : List Context} {bs : List Names}
    (h : List.Forall₂ (fun c names => Context.Shows c BlockOk names) cs bs)
    (hb : ∀ name s, BlockOk name s → s.binding?.isSome) :
    (cs.findSome? (·.find? name)).bind Symbol.binding? = bs.findSome? (·.lookup name) ∧
      ∀ s, cs.findSome? (·.find? name) = some s → BlockOk name s := by
  induction h with
  | nil => simp
  | @cons c names cs bs hc _ ih =>
    simp only [List.findSome?_cons]
    cases hs : c.find? name with
    | none => simpa [hc.lookup_of_none hs] using ih
    | some s =>
      obtain ⟨x, hx⟩ := Option.isSome_iff_exists.mp (hb name s (hc.ok name s hs))
      have hl := hc.lookup_of_some hs
      rw [hx] at hl
      refine ⟨by simp [hl, hx], fun s' hs' => ?_⟩
      simp only [Option.some.injEq] at hs'
      exact hs' ▸ hc.ok name s hs

/-- A body finds the binding of the symbol that its scopes find. -/
theorem find?_eq (h : f.Shows RootOk BlockOk b)
    (hb : ∀ name s, BlockOk name s → s.binding?.isSome) :
    b.find? name = (f.lookup? name).bind Symbol.binding? := by
  obtain ⟨he, hok⟩ := findSome?_blocks name h.blocks hb
  unfold Body.find? FunctionScope.lookup?
  cases hs : f.blocks.findSome? (·.find? name) with
  | none => simpa [← he, hs] using (h.root.binding name).symm
  | some s =>
    obtain ⟨x, hx⟩ := Option.isSome_iff_exists.mp (hb name s (hok s hs))
    simp [← he, hs, hx]

theorem lookup?_ok {s : Symbol} (h : f.Shows RootOk BlockOk b)
    (hb : ∀ name s, BlockOk name s → s.binding?.isSome) (hs : f.lookup? name = some s) :
    BlockOk name s ∨ RootOk name s := by
  obtain ⟨_, hok⟩ := findSome?_blocks name h.blocks hb
  unfold FunctionScope.lookup? at hs
  rcases Option.or_eq_some_iff.mp hs with hs | ⟨_, hs⟩
  · exact Or.inl (hok s hs)
  · exact Or.inr (h.root.ok name s hs)

theorem root_of_lookup?_none (h : f.lookup? name = none) : f.root.find? name = none := by
  unfold FunctionScope.lookup? at h
  exact (Option.or_eq_none_iff.mp h).2

theorem insert {s : Symbol} {x : Binding} (h : f.Shows RootOk BlockOk b)
    (hb : s.binding? = some x) (hr : RootOk s.name s) (hk : BlockOk s.name s) :
    (f.insert s).Shows RootOk BlockOk (b.bind s.name x) := by
  obtain ⟨depth, root, blocks, locals, free⟩ := f
  obtain ⟨names, scopes⟩ := b
  obtain ⟨hroot, hblocks⟩ := h
  cases hblocks with
  | nil => exact ⟨hroot.insert hb hr, .nil⟩
  | cons hc hcs => exact ⟨hroot, .cons (hc.insert hb hk) hcs⟩

theorem enterBlock (h : f.Shows RootOk BlockOk b) (id : Nat) (title : String) :
    ({ f with blocks := ⟨id, title, ∅⟩ :: f.blocks }).Shows RootOk BlockOk b.enterBlock :=
  ⟨h.root, .cons (.empty id title) h.blocks⟩

theorem leaveBlock (h : f.Shows RootOk BlockOk b) :
    ({ f with blocks := f.blocks.tail }).Shows RootOk BlockOk b.leaveBlock := by
  refine ⟨h.root, ?_⟩
  have hb := h.blocks
  simp only [Body.leaveBlock]
  revert hb
  cases f.blocks <;> cases b.blocks <;> intro hb
  · exact .nil
  · cases hb
  · cases hb
  · exact (List.forall₂_cons.mp hb).2

end FunctionScope.Shows

def boundIn (bodies : List OpenBody) (name : String) : Bool :=
  bodies.any fun b => (b.names.find? name).isSome

structure LocalOk (depth slots : Nat) (name : String) (s : Symbol) : Prop where
  name_eq : s.name = name
  depth_eq : s.depth = depth
  storage : s.storage = .localSlot
  index_lt : s.index < slots

/-- A symbol of the outermost context of a function body: a local, the function itself, or a
captured name. -/
inductive RootOk (depth slots : Nat) (captured : List String) (outer : List OpenBody)
    (name : String) (s : Symbol) : Prop
  | slot : LocalOk depth slots name s → RootOk depth slots captured outer name s
  | self : s.name = name → s.depth = depth → s.storage = .self → s.index = 0 →
      RootOk depth slots captured outer name s
  | captured : s.name = name → s.depth = depth → s.storage = .captured →
      captured.idxOf? name = some s.index → boundIn outer name = true →
      RootOk depth slots captured outer name s

structure GlobalOk (globals : Nat) (s : Symbol) : Prop where
  storage : s.storage = .globalSlot
  index_lt : s.index < globals

/-- A symbol of the outermost context of all: a global or a builtin. -/
inductive MainOk (globals : Nat) (name : String) (s : Symbol) : Prop
  | slot : GlobalOk globals s → MainOk globals name s
  | builtin : s.storage = .builtin → Builtin.indexOf? name = some s.index → MainOk globals name s

structure BodyShows (f : FunctionScope) (b : OpenBody) (outer : List OpenBody) : Prop where
  scopes : f.Shows (RootOk f.depth b.slots b.captured outer) (LocalOk f.depth b.slots) b.names
  locals : f.locals = b.slots
  free : f.free.toList.map (·.name) = b.captured
  bound : ∀ name ∈ b.captured, f.root.find? name ≠ none
  enclosed : ∀ name ∈ b.captured, boundIn outer name = true
  slots_le : b.slots ≤ Storage.slotLimit
  captured_le : b.captured.length ≤ Storage.slotLimit
  nodup : b.captured.Nodup

/-- The scopes of the open function bodies show these bodies, and no two have the same depth. -/
inductive InnerShows : List FunctionScope → List OpenBody → Prop
  | nil : InnerShows [] []
  | cons {f : FunctionScope} {fs : List FunctionScope} {b : OpenBody} {bs : List OpenBody} :
      BodyShows f b bs → (∀ g ∈ fs, g.depth ≠ f.depth) → InnerShows fs bs →
      InnerShows (f :: fs) (b :: bs)

structure ScopeTable.Shows (t : ScopeTable) (v : OpenScopes) : Prop where
  main : t.main.Shows (MainOk v.globals) (fun _ => GlobalOk v.globals) v.main
  inner : InnerShows t.inner v.inner
  globals : t.globals = v.globals
  globals_le : v.globals ≤ Storage.slotLimit
  fresh : ∀ f ∈ t.inner, f.depth < t.nextId

end StackScript
