import StackScript.Code.Instruction
import StackScript.Scope.Symbol
import StackScript.Value.Builtin

/-! # Lexical environments

What a name means at a point of a program, by the source text alone: the function bodies around the
point, in each of them the open blocks, and in each block the names bound so far. A name means its
innermost binding; from there follows the place where the running call finds the value.
-/

namespace StackScript

/-- Where a running call finds a value: a storage class and an index in it. -/
structure Place where
  storage : Storage
  index : Nat
deriving DecidableEq, Repr

namespace Place

def operand (p : Place) : Nat := p.storage.encode p.index

def ofOperand (operand : Nat) : Place := ⟨(Storage.decode operand).1, (Storage.decode operand).2⟩

theorem storage_ne_self {p : Place} (h : p.storage.assignable = true) : p.storage ≠ .self := by
  intro hself
  rw [hself] at h
  cases h

theorem ofOperand_operand {p : Place} (hs : p.storage ≠ .self) (hi : p.index < Storage.slotLimit) :
    ofOperand p.operand = p := by
  rw [ofOperand, operand, Storage.decode_encode hs hi]

/-- The instruction that pushes the value of a place. -/
def load (p : Place) : Instruction :=
  match p.storage with
  | .self => ⟨.currentClosure, []⟩
  | _ => ⟨.get, [p.operand]⟩

end Place

/-- What a name is bound to: a slot of the body that binds it, or the function of that body. -/
inductive Binding
  | slot (index : Nat)
  | self
deriving DecidableEq, Repr

abbrev Names := List (String × Binding)

/-- The scopes of a function body or of the top level. -/
structure Body where
  root : Names := []
  /-- Open blocks, the innermost first. -/
  blocks : List Names := []
deriving DecidableEq, Repr

namespace Body

/-- The innermost binding of a name in a body. -/
def find? (b : Body) (name : String) : Option Binding :=
  (b.blocks.findSome? (·.lookup name)).or (b.root.lookup name)

def bind (b : Body) (name : String) (x : Binding) : Body :=
  match b with
  | ⟨root, []⟩ => ⟨(name, x) :: root, []⟩
  | ⟨root, names :: blocks⟩ => ⟨root, ((name, x) :: names) :: blocks⟩

def enterBlock (b : Body) : Body := { b with blocks := [] :: b.blocks }

def leaveBlock (b : Body) : Body := { b with blocks := b.blocks.tail }

/-- The bindings at the start of a function body: the function under its own name, then the
parameters in the first slots. -/
def ofParams (self : Option String) (params : List String) : Body where
  root := (params.zipIdx.map fun (name, i) => (name, Binding.slot i)).reverse ++
    (self.map fun name => (name, Binding.self)).toList

theorem find?_enterBlock (b : Body) (name : String) : b.enterBlock.find? name = b.find? name := by
  simp [find?, enterBlock, List.findSome?_cons]

theorem find?_bind (b : Body) (bound : String) (x : Binding) (name : String) :
    (b.bind bound x).find? name = if name == bound then some x else b.find? name := by
  obtain ⟨root, _ | ⟨names, blocks⟩⟩ := b <;> simp only [bind, find?] <;>
    cases hn : name == bound <;> simp [List.lookup_cons, List.findSome?_cons, hn]

end Body

/-- The bodies around a point of the program. -/
structure Lexical where
  main : Body := {}
  /-- Function bodies, the innermost first. -/
  inner : List Body := []
deriving DecidableEq, Repr

namespace Lexical

/-- The place of a name that no function body binds: a global or a builtin. -/
def outside? (env : Lexical) (name : String) : Option Place :=
  match env.main.find? name with
  | some (.slot i) => some ⟨.globalSlot, i⟩
  | some .self => none
  | none => (Builtin.indexOf? name).map (⟨.builtin, ·⟩)

/-- The place of the innermost binding of a name, in a function that captures the names `captured`.
A binding of the running body is in one of its slots or is the running function; one of another
function body has been captured. -/
def place? (env : Lexical) (captured : List String) (name : String) : Option Place :=
  match env.inner with
  | [] => env.outside? name
  | body :: outer =>
    match body.find? name with
    | some (.slot i) => some ⟨.localSlot, i⟩
    | some .self => some ⟨.self, 0⟩
    | none =>
      if outer.any fun b => (b.find? name).isSome then
        (captured.idxOf? name).map (⟨.captured, ·⟩)
      else env.outside? name

/-- Whether one of the function bodies around binds a name. -/
def enclosed (env : Lexical) (name : String) : Bool := env.inner.any fun b => (b.find? name).isSome

def binds (env : Lexical) (name : String) : Bool := env.inner.head?.any fun b => (b.find? name).isSome

def modify (env : Lexical) (f : Body → Body) : Lexical :=
  match env with
  | ⟨main, []⟩ => ⟨f main, []⟩
  | ⟨main, b :: bs⟩ => ⟨main, f b :: bs⟩

def enterBlock (env : Lexical) : Lexical := env.modify (·.enterBlock)

def leaveBlock (env : Lexical) : Lexical := env.modify (·.leaveBlock)

def enterFunction (env : Lexical) (self : Option String) (params : List String) : Lexical :=
  { env with inner := .ofParams self params :: env.inner }

def slot (env : Lexical) (index : Nat) : Place :=
  ⟨if env.inner.isEmpty then .globalSlot else .localSlot, index⟩

/-- The variable that a visible name stands for, if a `let` of that name writes to it. -/
def reused? (env : Lexical) (name : String) : Option Place :=
  (env.place? [] name).filter (·.storage.assignable)

/-- The variable that a `let` writes to when `taken` slots of the body are in use. A visible variable
that can be assigned from here is reused, any other name gets a new slot. -/
def declare (env : Lexical) (taken : Nat) (name : String) : Place × Lexical × Nat :=
  match env.reused? name with
  | some place => (place, env, taken)
  | none => (env.slot taken, env.modify (·.bind name (.slot taken)), taken + 1)

theorem assignable_declare {env env' : Lexical} {taken slots : Nat} {name : String} {place : Place}
    (h : env.declare taken name = (place, env', slots)) : place.storage.assignable = true := by
  unfold declare at h
  split at h
  · next hr =>
    cases h
    exact (Option.filter_eq_some_iff.mp hr).2
  · cases h
    obtain ⟨main, _ | ⟨b, bs⟩⟩ := env <;> rfl

theorem idxOf?_of_extends {xs ys : List String} {x : String} {i : Nat} (hp : xs <+: ys)
    (h : xs.idxOf? x = some i) : ys.idxOf? x = some i := by
  obtain ⟨zs, rfl⟩ := hp
  induction xs generalizing i with
  | nil => simp at h
  | cons a xs ih =>
    rw [List.idxOf?_cons] at h
    rw [List.cons_append, List.idxOf?_cons]
    split at h
    · next ha => rw [if_pos ha, h]
    · next ha =>
      obtain ⟨j, hj, rfl⟩ := Option.map_eq_some_iff.mp h
      rw [if_neg ha, ih hj, Option.map_some]

theorem inner_modify {env : Lexical} (h : env.inner = []) (g : Body → Body) :
    (env.modify g).inner = [] := by
  obtain ⟨main, inner⟩ := env
  obtain rfl : inner = [] := h
  rfl

theorem binds_enterBlock (env : Lexical) (name : String) :
    env.enterBlock.binds name = env.binds name := by
  obtain ⟨main, _ | ⟨b, bs⟩⟩ := env <;> simp [enterBlock, modify, binds, Body.find?_enterBlock]

theorem binds_bind {env : Lexical} {name : String} (h : env.binds name = true) (bound : String)
    (x : Binding) : (env.modify (·.bind bound x)).binds name = true := by
  obtain ⟨main, _ | ⟨b, bs⟩⟩ := env
  · exact h
  · simp only [binds, List.head?_cons, Option.any_some] at h
    simp only [modify, binds, List.head?_cons, Option.any_some, Body.find?_bind]
    split
    · rfl
    · exact h

theorem inner_declare {env env' : Lexical} {n n' : Nat} {name : String} {p : Place}
    (h : env.inner = []) (hd : env.declare n name = (p, env', n')) : env'.inner = [] := by
  unfold declare at hd
  split at hd
  · cases hd
    exact h
  · cases hd
    exact inner_modify h _

/-- Capturing more names does not move those captured before. -/
theorem place?_mono {env : Lexical} {captured more : List String} {name : String} {p : Place}
    (hp : captured <+: more) (h : env.place? captured name = some p) :
    env.place? more name = some p := by
  unfold place? at h ⊢
  split at h
  · exact h
  · split at h
    · exact h
    · exact h
    · split at h
      · obtain ⟨i, hi, rfl⟩ := Option.map_eq_some_iff.mp h
        simp_all [idxOf?_of_extends hp hi]
      · simp_all

end Lexical

end StackScript
