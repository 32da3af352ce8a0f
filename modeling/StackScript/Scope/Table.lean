import Std.Data.TreeMap
import StackScript.Scope.Symbol

/-! # Scopes

The names that are visible at a point of the program. A context is one lexical scope; the contexts
of one function body belong together, since a local of another body can be read only as a value
that the closure captured.
-/

namespace StackScript

/-- A lexical scope: `main`, a function body, a branch of a conditional or a loop. -/
structure Context where
  id : Nat
  name : String
  symbols : Std.TreeMap String Symbol := ∅

namespace Context

def insert (c : Context) (s : Symbol) : Context := { c with symbols := c.symbols.insert s.name s }

def find? (c : Context) (name : String) : Option Symbol := c.symbols[name]?

@[simp] theorem find?_empty (id : Nat) (title name : String) : find? ⟨id, title, ∅⟩ name = none :=
  Std.TreeMap.getElem?_emptyc

theorem find?_insert (c : Context) (s : Symbol) (name : String) :
    (c.insert s).find? name = if s.name = name then some s else c.find? name := by
  simp [insert, find?, Std.TreeMap.getElem?_insert]

end Context

structure FunctionScope where
  depth : Nat
  root : Context
  /-- Open blocks, the innermost first. -/
  blocks : List Context := []
  locals : Nat := 0
  /-- Captured symbols as the enclosing scope sees them. -/
  free : Array Symbol := #[]

namespace FunctionScope

def context (f : FunctionScope) : Context := f.blocks.head?.getD f.root

def insert (f : FunctionScope) (s : Symbol) : FunctionScope :=
  match f with
  | ⟨depth, root, [], locals, free⟩ => ⟨depth, root.insert s, [], locals, free⟩
  | ⟨depth, root, c :: cs, locals, free⟩ => ⟨depth, root, c.insert s :: cs, locals, free⟩

def insertRoot (f : FunctionScope) (s : Symbol) : FunctionScope :=
  { f with root := f.root.insert s }

/-- Bind a captured symbol in the outermost context, next to the one that it stands for. -/
def capture (f : FunctionScope) (s outer : Symbol) : FunctionScope :=
  match f with
  | ⟨depth, root, blocks, locals, free⟩ =>
    ⟨depth, root.insert s, blocks, locals, free.push outer⟩

def lookup? (f : FunctionScope) (name : String) : Option Symbol :=
  (f.blocks.findSome? (·.find? name)).or (f.root.find? name)

/-- The names of the contexts, the outermost first. -/
def path (f : FunctionScope) : List String := f.root.name :: f.blocks.reverse.map (·.name)

end FunctionScope

/-- Scopes are numbered with 32 bits. A scope can be opened as long as the number behind its own fits
in them. -/
def ScopeTable.maxId : Nat := 1 <<< 32 - 1

structure ScopeTable where
  main : FunctionScope := ⟨0, ⟨0, "main", ∅⟩, [], 0, #[]⟩
  /-- Open function bodies, the innermost first. -/
  inner : List FunctionScope := []
  /-- The number of the next scope, at most `ScopeTable.maxId`. -/
  nextId : Nat := 1
  globals : Nat := 0

/-- What a finished function body leaves to its compiler. -/
structure FunctionSymbols where
  locals : Nat
  free : Array Symbol

inductive BlockKind
  | cond | loop
deriving DecidableEq, Repr

namespace ScopeTable

def current (t : ScopeTable) : FunctionScope := t.inner.head?.getD t.main

def modifyCurrent (t : ScopeTable) (f : FunctionScope → FunctionScope) : ScopeTable :=
  match t with
  | ⟨main, [], nextId, globals⟩ => ⟨f main, [], nextId, globals⟩
  | ⟨main, s :: ss, nextId, globals⟩ => ⟨main, f s :: ss, nextId, globals⟩

/-- How many function bodies are open, `main` included. -/
def callDepth (t : ScopeTable) : Nat := t.inner.length + 1

def contextName (t : ScopeTable) : String := t.current.context.name

def joined (names : List String) : String := "::".intercalate names

def outerPath (t : ScopeTable) : List String :=
  match t.inner with
  | [] => []
  | _ :: outer => t.main.path ++ outer.reverse.flatMap (·.path)

def contextPath (t : ScopeTable) : String := joined (t.outerPath ++ t.current.path)

/-- The path of the outermost context of the innermost function body. -/
def rootPath (t : ScopeTable) : String := joined (t.outerPath ++ [t.current.root.name])

def lookup? (t : ScopeTable) (name : String) : Option Symbol :=
  (t.inner.findSome? (·.lookup? name)).or (t.main.lookup? name)

def enterFunction (t : ScopeTable) (name : Option String) : ScopeTable :=
  let id := t.nextId
  let contextName := match name with
    | some name => s!"fn#{id}:{name}"
    | none => s!"fn#{id}"
  { t with inner := ⟨id, ⟨id, contextName, ∅⟩, [], 0, #[]⟩ :: t.inner, nextId := id + 1 }

/-- Close the innermost function body, and with it the blocks still open in it. -/
def leaveFunction (t : ScopeTable) : FunctionSymbols × ScopeTable :=
  match t.inner with
  | f :: fs => (⟨f.locals, f.free⟩, { t with inner := fs })
  | [] => (⟨0, #[]⟩, t)

def enterBlock (t : ScopeTable) (kind : BlockKind) : ScopeTable :=
  let id := t.nextId
  let name := match kind with
    | .cond => s!"if#{id}"
    | .loop => s!"loop#{id}"
  let t := { t with nextId := id + 1 }
  t.modifyCurrent fun f => { f with blocks := ⟨id, name, ∅⟩ :: f.blocks }

def leaveBlock (t : ScopeTable) : ScopeTable :=
  t.modifyCurrent fun f => { f with blocks := f.blocks.tail }

/-- Bind the name of the innermost function in its own body. -/
def defineSelf (t : ScopeTable) (name : String) : Symbol × ScopeTable :=
  let f := t.current
  let s : Symbol := ⟨.self, name, joined [t.rootPath, name], f.root.id, f.depth, 0⟩
  (s, t.modifyCurrent (·.insertRoot s))

end ScopeTable

/-- A step on the open scopes. An error leaves them as they were. -/
abbrev Scoping := ExceptT SymbolError (StateM ScopeTable)

namespace Scoping

def slot (storage : Storage) (name : String) (taken : Nat) : Scoping Nat :=
  if taken < Storage.slotLimit then pure taken else throw (.indexOverflow storage name taken)

def bindHere (storage : Storage) (name : String) (index : Nat) : Scoping Symbol := do
  let t ← get
  let f := t.current
  let s : Symbol :=
    ⟨storage, name, ScopeTable.joined [t.contextPath, name], f.context.id, f.depth, index⟩
  modify (·.modifyCurrent (·.insert s))
  return s

def defineGlobal (name : String) : Scoping Symbol := do
  let index ← slot .globalSlot name (← get).globals
  modify fun t => { t with globals := t.globals + 1 }
  bindHere .globalSlot name index

def defineLocal (name : String) : Scoping Symbol := do
  let index ← slot .localSlot name (← get).current.locals
  modify (·.modifyCurrent fun f => { f with locals := f.locals + 1 })
  bindHere .localSlot name index

/-- Bind a parameter: always a new local. -/
def defineParameter (name : String) : Scoping Symbol := defineLocal name

/-- Whether an assignment from the body `depth` can reuse the slot of a symbol. -/
def reusable (depth : Nat) (s : Symbol) : Bool :=
  match s.storage with
  | .globalSlot => true
  | .localSlot => s.depth == depth
  | _ => false

/-- Bind a variable. A global, or a local of the same function body, that is visible is reused; any
other symbol is shadowed by a new slot. -/
def define (name : String) : Scoping Symbol := do
  let t ← get
  match (t.lookup? name).filter (reusable t.current.depth) with
  | some s => return s
  | none => if t.inner.isEmpty then defineGlobal name else defineLocal name

def defineBuiltin (name : String) (index : Nat) : Scoping Symbol := do
  let index ← slot .builtin name index
  let s : Symbol :=
    ⟨.builtin, name, ScopeTable.joined [(← get).main.root.name, name], 0, 0, index⟩
  modify fun t => { t with main := t.main.insertRoot s }
  return s

/-- Capture a symbol of an enclosing function body as the next free variable of the innermost
one. -/
def defineFree (outer : Symbol) : Scoping Symbol := do
  let t ← get
  let f := t.current
  let index ← slot .captured outer.name f.free.size
  let s : Symbol := ⟨.captured, outer.name, ScopeTable.joined [t.rootPath, outer.name], f.root.id,
    f.depth, index⟩
  modify (·.modifyCurrent (·.capture s outer))
  return s

/-- Find a name from the innermost context outwards. What lives in another function body is
captured. -/
def resolve (name : String) : Scoping Symbol := do
  let t ← get
  match t.lookup? name with
  | none => throw (.unresolved name)
  | some s =>
    match s.storage with
    | .globalSlot | .builtin => return s
    | _ => if s.depth = t.current.depth then return s else defineFree s

end Scoping

end StackScript
