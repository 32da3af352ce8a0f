import StackScript.Proofs.Scope.Operations

/-! # Rosters of symbols

A roster lists, for each storage class and each function body, the symbols that were given a slot
there, in the order of their slots. Every operation of a scope table keeps the table on a roster: it
gives out a symbol that is listed, or appends a new one.
-/

namespace StackScript

/-- All symbols of a context satisfy `P`, and stand under their names. -/
def Context.Every (c : Context) (P : Symbol → Prop) : Prop :=
  ∀ name s, c.find? name = some s → s.name = name ∧ P s

theorem Context.Every.empty (id : Nat) (title : String) (P : Symbol → Prop) :
    Context.Every ⟨id, title, ∅⟩ P := by
  intro name s h
  simp at h

theorem Context.Every.insert {c : Context} {P : Symbol → Prop} {s : Symbol} (h : c.Every P)
    (hs : P s) : (c.insert s).Every P := by
  intro name s' hs'
  simp only [Context.find?_insert] at hs'
  split at hs'
  · next hn =>
    obtain rfl := Option.some.inj hs'
    exact ⟨by simpa using hn, hs⟩
  · exact h name s' hs'

namespace FunctionScope

/-- All symbols of a function body satisfy `P`, and stand under their names. -/
structure Every (f : FunctionScope) (P : Symbol → Prop) : Prop where
  root : f.root.Every P
  blocks : ∀ c ∈ f.blocks, c.Every P

namespace Every

variable {f : FunctionScope} {P Q : Symbol → Prop} {s : Symbol}

theorem mono (h : f.Every P) (hPQ : ∀ s, P s → Q s) : f.Every Q where
  root name s hs := ⟨(h.root name s hs).1, hPQ s (h.root name s hs).2⟩
  blocks c hc name s hs := ⟨(h.blocks c hc name s hs).1, hPQ s (h.blocks c hc name s hs).2⟩

theorem insert (h : f.Every P) (hs : P s) : (f.insert s).Every P := by
  obtain ⟨depth, root, _ | ⟨c, cs⟩, locals, free⟩ := f
  · exact ⟨h.root.insert hs, h.blocks⟩
  · refine ⟨h.root, ?_⟩
    intro d hd
    rcases List.mem_cons.mp hd with rfl | hd
    · exact (h.blocks c (by simp)).insert hs
    · exact h.blocks d (by simp [hd])

theorem enterBlock (h : f.Every P) (id : Nat) (title : String) :
    ({ f with blocks := ⟨id, title, ∅⟩ :: f.blocks } : FunctionScope).Every P where
  root := h.root
  blocks c hc := by
    rcases List.mem_cons.mp hc with rfl | hc
    · exact .empty id title P
    · exact h.blocks c hc

theorem leaveBlock (h : f.Every P) :
    ({ f with blocks := f.blocks.tail } : FunctionScope).Every P where
  root := h.root
  blocks c hc := h.blocks c (List.mem_of_mem_tail hc)

theorem lookup? {name : String} (h : f.Every P) (hs : f.lookup? name = some s) :
    s.name = name ∧ P s := by
  unfold FunctionScope.lookup? at hs
  rcases Option.or_eq_some_iff.mp hs with hs | ⟨-, hs⟩
  · obtain ⟨c, hc, hs⟩ := List.exists_of_findSome?_eq_some hs
    exact h.blocks c hc name s hs
  · exact h.root name s hs

end Every

end FunctionScope

/-- For a storage class and a function body, the symbols that have a slot there. -/
abbrev Roster := Storage → Nat → List Symbol

namespace Roster

variable {r r' : Roster} {s s' : Symbol}

/-- Give a symbol the next slot of its class and body. -/
def add (r : Roster) (s : Symbol) : Roster := fun storage depth =>
  if s.storage = storage ∧ s.depth = depth then r storage depth ++ [s] else r storage depth

/-- Every symbol stands in the row of its class and body, at its index. -/
structure Numbered (r : Roster) : Prop where
  entry : ∀ {storage : Storage} {depth i : Nat} {s : Symbol}, (r storage depth)[i]? = some s →
    s.storage = storage ∧ s.depth = depth ∧ s.index = i
  limit : ∀ storage depth, (r storage depth).length ≤ Storage.slotLimit

/-- A symbol is listed, unless its class has no slots. -/
def Lists (r : Roster) (s : Symbol) : Prop :=
  match s.storage with
  | .builtin => s.index < Storage.slotLimit
  | .self => s.index = 0
  | .globalSlot | .localSlot | .captured => s ∈ r s.storage s.depth

/-- The classes whose symbols have slots of their own. -/
def Slotted (storage : Storage) : Prop :=
  storage = .globalSlot ∨ storage = .localSlot ∨ storage = .captured

def Grows (r r' : Roster) : Prop := ∀ storage depth, r storage depth <+: r' storage depth

theorem Grows.refl (r : Roster) : r.Grows r := fun _ _ => List.prefix_refl _

theorem Grows.trans {r'' : Roster} (h : r.Grows r') (h' : r'.Grows r'') : r.Grows r'' :=
  fun storage depth => (h storage depth).trans (h' storage depth)

theorem grows_add (r : Roster) (s : Symbol) : r.Grows (r.add s) := by
  intro storage depth
  unfold add
  split
  · exact List.prefix_append _ _
  · exact List.prefix_refl _

theorem add_self (r : Roster) (s : Symbol) :
    r.add s s.storage s.depth = r s.storage s.depth ++ [s] :=
  if_pos ⟨rfl, rfl⟩

theorem add_of_storage_ne {storage : Storage} (h : s.storage ≠ storage) (depth : Nat) :
    r.add s storage depth = r storage depth :=
  if_neg fun he => h he.1

theorem add_of_depth_ne {depth : Nat} (h : s.depth ≠ depth) (storage : Storage) :
    r.add s storage depth = r storage depth :=
  if_neg fun he => h he.2

theorem lists_iff_mem (h : Slotted s.storage) : r.Lists s ↔ s ∈ r s.storage s.depth := by
  unfold Lists
  rcases h with h | h | h <;> simp only [h]

theorem Lists.mono (h : r.Lists s) (hg : r.Grows r') : r'.Lists s := by
  have hmem (hs : Slotted s.storage) : r'.Lists s :=
    (lists_iff_mem hs).mpr ((hg _ _).subset ((lists_iff_mem hs).mp h))
  cases hst : s.storage with
  | builtin =>
    simp only [Lists, hst] at h ⊢
    exact h
  | self =>
    simp only [Lists, hst] at h ⊢
    exact h
  | globalSlot => exact hmem (.inl hst)
  | localSlot => exact hmem (.inr (.inl hst))
  | captured => exact hmem (.inr (.inr hst))

theorem lists_add (h : Slotted s.storage) : (r.add s).Lists s := by
  rw [lists_iff_mem h, add_self]
  simp

theorem Numbered.add (h : r.Numbered) (hi : s.index = (r s.storage s.depth).length)
    (hlt : s.index < Storage.slotLimit) : (r.add s).Numbered where
  entry := by
    intro storage depth i s' hs'
    unfold Roster.add at hs'
    split at hs'
    · next he =>
      obtain ⟨rfl, rfl⟩ := he
      rw [List.getElem?_append] at hs'
      split at hs'
      · exact h.entry hs'
      · next hge =>
        obtain ⟨hlen, rfl⟩ := List.getElem?_eq_some_iff.mp hs'
        simp only [List.length_singleton] at hlen
        exact ⟨by simp, by simp, by simp only [List.getElem_singleton]; omega⟩
    · exact h.entry hs'
  limit := by
    intro storage depth
    unfold Roster.add
    split
    · next he =>
      obtain ⟨rfl, rfl⟩ := he
      simp only [List.length_append, List.length_singleton]
      omega
    · exact h.limit storage depth

theorem Numbered.index_lt_length (h : r.Numbered) {storage : Storage} {depth : Nat}
    (hs : s ∈ r storage depth) : s.index < (r storage depth).length := by
  obtain ⟨i, hlt, rfl⟩ := List.getElem_of_mem hs
  rw [(h.entry (List.getElem?_eq_getElem hlt)).2.2]
  exact hlt

theorem Numbered.map_index (h : r.Numbered) (storage : Storage) (depth : Nat) :
    (r storage depth).map (·.index) = List.range (r storage depth).length := by
  apply List.ext_getElem (by simp)
  intro i hi hi'
  have hlt : i < (r storage depth).length := by simpa using hi
  simpa using (h.entry (List.getElem?_eq_getElem hlt)).2.2

theorem Numbered.eq_of_index_eq (h : r.Numbered) {storage : Storage} {depth : Nat}
    (hs : s ∈ r storage depth) (hs' : s' ∈ r storage depth) (hi : s.index = s'.index) : s = s' := by
  obtain ⟨i, hlt, rfl⟩ := List.getElem_of_mem hs
  obtain ⟨j, hlt', rfl⟩ := List.getElem_of_mem hs'
  have hsi := (h.entry (List.getElem?_eq_getElem hlt)).2.2
  have hsj := (h.entry (List.getElem?_eq_getElem hlt')).2.2
  obtain rfl : i = j := by omega
  rfl

theorem Numbered.index_lt_limit (h : r.Numbered) (hs : r.Lists s) :
    s.index < Storage.slotLimit := by
  have hmem (hst : Slotted s.storage) : s.index < Storage.slotLimit :=
    Nat.lt_of_lt_of_le (h.index_lt_length ((lists_iff_mem hst).mp hs)) (h.limit _ _)
  cases hst : s.storage with
  | builtin =>
    simp only [Lists, hst] at hs
    exact hs
  | self =>
    simp only [Lists, hst] at hs
    rw [hs]
    decide
  | globalSlot => exact hmem (.inl hst)
  | localSlot => exact hmem (.inr (.inl hst))
  | captured => exact hmem (.inr (.inr hst))

end Roster

structure MainSymbol (r : Roster) (s : Symbol) : Prop where
  lists : r.Lists s
  depth : s.depth = 0
  storage : s.storage = .globalSlot ∨ s.storage = .builtin ∨ s.storage = .self

structure BodySymbol (r : Roster) (depth : Nat) (s : Symbol) : Prop where
  lists : r.Lists s
  depth_eq : s.depth = depth
  storage : s.storage = .localSlot ∨ s.storage = .captured ∨ s.storage = .self

theorem FunctionScope.Every.grow {f : FunctionScope} {depth : Nat} {r r' : Roster}
    (h : f.Every (BodySymbol r depth)) (hg : r.Grows r') : f.Every (BodySymbol r' depth) :=
  h.mono fun _ hs => { hs with lists := hs.lists.mono hg }

/-- The scopes of an open function body are on a roster. -/
structure FunctionScope.Rostered (f : FunctionScope) (r : Roster) : Prop where
  scopes : f.Every (BodySymbol r f.depth)
  locals : (r .localSlot f.depth).length = f.locals
  free : (r .captured f.depth).length = f.free.size
  outer : ∀ s ∈ f.free, r.Lists s

/-- A scope table is on a roster: the counters of the table are the lengths of the rows. -/
structure ScopeTable.Rostered (t : ScopeTable) (r : Roster) : Prop where
  numbered : r.Numbered
  main : t.main.Every (MainSymbol r)
  main_depth : t.main.depth = 0
  globals : (r .globalSlot 0).length = t.globals
  inner : ∀ f ∈ t.inner, f.Rostered r
  depths : ∀ f ∈ t.inner, 0 < f.depth ∧ f.depth < t.nextId
  distinct : t.inner.Pairwise (·.depth ≠ ·.depth)
  /-- Globals belong to the top level, and a body that was never opened has nothing. -/
  elsewhere : ∀ depth, depth ≠ 0 → r .globalSlot depth = []
  top : r .localSlot 0 = []
  fresh : ∀ storage depth, t.nextId ≤ depth → r storage depth = []
  started : 0 < t.nextId

namespace ScopeTable.Rostered

open Roster

variable {t : ScopeTable} {r : Roster} {name : String} {s : Symbol}

theorem initial : ({} : ScopeTable).Rostered fun _ _ => [] where
  numbered := ⟨by simp, by simp⟩
  main := ⟨.empty 0 "main" _, by simp⟩
  main_depth := rfl
  globals := rfl
  inner := by simp
  depths := by simp
  distinct := .nil
  elsewhere := by simp
  top := rfl
  fresh := by simp
  started := Nat.one_pos

theorem enterFunction (h : t.Rostered r) (name : Option String) :
    (t.enterFunction name).Rostered r where
  numbered := h.numbered
  main := h.main
  main_depth := h.main_depth
  globals := h.globals
  inner f hf := by
    rcases List.mem_cons.mp hf with rfl | hf
    · have hrow (storage : Storage) : r storage t.nextId = [] := h.fresh storage _ (Nat.le_refl _)
      exact ⟨⟨.empty _ _ _, by simp⟩, by simp [hrow], by simp [hrow], by simp⟩
    · exact h.inner f hf
  depths f hf := by
    rcases List.mem_cons.mp hf with rfl | hf
    · exact ⟨h.started, Nat.lt_succ_self _⟩
    · exact ⟨(h.depths f hf).1, Nat.lt_succ_of_lt (h.depths f hf).2⟩
  distinct := List.pairwise_cons.mpr ⟨fun f hf => (Nat.ne_of_lt (h.depths f hf).2).symm, h.distinct⟩
  elsewhere := h.elsewhere
  top := h.top
  fresh storage depth hd := h.fresh storage depth (Nat.le_of_succ_le hd)
  started := Nat.succ_pos _

theorem leaveFunction (h : t.Rostered r) : t.leaveFunction.2.Rostered r := by
  obtain ⟨main, _ | ⟨f, fs⟩, nextId, globals⟩ := t
  · exact h
  · exact { h with
      inner := fun g hg => h.inner g (List.mem_cons_of_mem f hg)
      depths := fun g hg => h.depths g (List.mem_cons_of_mem f hg)
      distinct := (List.pairwise_cons.mp h.distinct).2 }

theorem replaceInner {main f f' : FunctionScope} {fs : List FunctionScope} {nextId globals : Nat}
    (h : Rostered ⟨main, f :: fs, nextId, globals⟩ r) (hdepth : f'.depth = f.depth)
    (hf' : f'.Rostered r) : Rostered ⟨main, f' :: fs, nextId, globals⟩ r := by
  obtain ⟨hfirst, hrest⟩ := List.pairwise_cons.mp h.distinct
  exact { h with
    inner := fun e he => by
      rcases List.mem_cons.mp he with rfl | he
      · exact hf'
      · exact h.inner e (by simp [he])
    depths := fun e he => by
      rcases List.mem_cons.mp he with rfl | he
      · rw [hdepth]
        exact h.depths f (by simp)
      · exact h.depths e (by simp [he])
    distinct := List.pairwise_cons.mpr ⟨fun e he => by rw [hdepth]; exact hfirst e he, hrest⟩ }

theorem modifyCurrent {g : FunctionScope → FunctionScope} (h : t.Rostered r)
    (hg : ∀ f, (g f).depth = f.depth ∧ (g f).locals = f.locals ∧ (g f).free = f.free)
    (hmain : t.inner = [] → (g t.main).Every (MainSymbol r))
    (hinner : ∀ f fs, t.inner = f :: fs → f.Every (BodySymbol r f.depth) →
      (g f).Every (BodySymbol r f.depth)) : (t.modifyCurrent g).Rostered r := by
  obtain ⟨main, _ | ⟨f, fs⟩, nextId, globals⟩ := t
  · exact { h with main := hmain rfl, main_depth := (hg main).1.trans h.main_depth }
  · obtain ⟨hdepth, hlocals, hfree⟩ := hg f
    have hf := h.inner f (by simp)
    have hscopes := hinner f fs rfl hf.scopes
    have hgf : (g f).Rostered r :=
      ⟨by rw [hdepth]; exact hscopes, by rw [hdepth, hlocals, hf.locals],
        by rw [hdepth, hfree, hf.free], by rw [hfree]; exact hf.outer⟩
    exact h.replaceInner hdepth hgf

theorem enterBlock (h : t.Rostered r) (kind : BlockKind) : (t.enterBlock kind).Rostered r := by
  have hnext : ({ t with nextId := t.nextId + 1 } : ScopeTable).Rostered r := { h with
    depths := fun f hf => ⟨(h.depths f hf).1, Nat.lt_succ_of_lt (h.depths f hf).2⟩
    fresh := fun storage depth hd => h.fresh storage depth (Nat.le_of_succ_le hd)
    started := Nat.succ_pos _ }
  exact hnext.modifyCurrent (fun _ => ⟨rfl, rfl, rfl⟩) (fun _ => h.main.enterBlock _ _)
    fun _ _ _ hf => hf.enterBlock _ _

theorem leaveBlock (h : t.Rostered r) : t.leaveBlock.Rostered r :=
  h.modifyCurrent (fun _ => ⟨rfl, rfl, rfl⟩) (fun _ => h.main.leaveBlock)
    fun _ _ _ hf => hf.leaveBlock

theorem defineSelf (h : t.Rostered r) (name : String) :
    (t.defineSelf name).2.Rostered r ∧ r.Lists (t.defineSelf name).1 := by
  have hlists : r.Lists (t.defineSelf name).1 := by simp [ScopeTable.defineSelf, Roster.Lists]
  refine ⟨h.modifyCurrent (fun _ => ⟨rfl, rfl, rfl⟩) ?_ ?_, hlists⟩
  · intro hi
    have hdepth : t.current.depth = 0 := by simp [ScopeTable.current, hi, h.main_depth]
    exact ⟨h.main.root.insert ⟨hlists, hdepth, .inr (.inr rfl)⟩, h.main.blocks⟩
  · intro f fs hi hscopes
    have hdepth : t.current.depth = f.depth := by simp [ScopeTable.current, hi]
    exact ⟨hscopes.root.insert ⟨hlists, hdepth, .inr (.inr rfl)⟩, hscopes.blocks⟩

theorem addBuiltin (h : t.Rostered r) (hst : s.storage = .builtin) (hd : s.depth = 0)
    (hi : s.index < Storage.slotLimit) :
    ({ t with main := t.main.insertRoot s } : ScopeTable).Rostered r ∧ r.Lists s := by
  have hlists : r.Lists s := by simpa [Roster.Lists, hst] using hi
  exact ⟨{ h with
    main := ⟨h.main.root.insert ⟨hlists, hd, .inr (.inl hst)⟩, h.main.blocks⟩ }, hlists⟩

section Add

variable {main f f' : FunctionScope} {fs : List FunctionScope} {nextId globals : Nat}

theorem addGlobal (h : Rostered ⟨main, [], nextId, globals⟩ r) (hst : s.storage = .globalSlot)
    (hd : s.depth = 0) (hi : s.index = globals) (hlt : globals < Storage.slotLimit) :
    Rostered ⟨main.insert s, [], nextId, globals + 1⟩ (r.add s) := by
  have hg := grows_add r s
  have hrow : (r s.storage s.depth).length = globals := by
    rw [hst, hd]
    exact h.globals
  have hlists : (r.add s).Lists s := lists_add (.inl hst)
  have hmain : main.Every (MainSymbol (r.add s)) :=
    h.main.mono fun _ hs => { hs with lists := hs.lists.mono hg }
  exact {
    numbered := h.numbered.add (by omega) (by omega)
    main := hmain.insert ⟨hlists, hd, .inl hst⟩
    main_depth := (FunctionScope.depth_insert main s).trans h.main_depth
    globals := by
      have := add_self r s
      rw [hst, hd] at this
      simp [this, h.globals]
    inner := by simp
    depths := by simp
    distinct := .nil
    elsewhere := fun depth hne => by
      rw [add_of_depth_ne (by omega), h.elsewhere depth hne]
    top := by rw [add_of_storage_ne (by simp [hst]), h.top]
    fresh := fun storage depth hle => by
      have hne : s.depth ≠ depth := by
        rw [hd]
        exact Nat.ne_of_lt (Nat.lt_of_lt_of_le h.started hle)
      rw [add_of_depth_ne hne, h.fresh storage depth hle]
    started := h.started }

theorem addInner (h : Rostered ⟨main, f :: fs, nextId, globals⟩ r)
    (hst : s.storage = .localSlot ∨ s.storage = .captured) (hd : s.depth = f.depth)
    (hi : s.index = (r s.storage s.depth).length) (hlt : s.index < Storage.slotLimit)
    (hdepth : f'.depth = f.depth) (hf' : f'.Rostered (r.add s)) :
    Rostered ⟨main, f' :: fs, nextId, globals⟩ (r.add s) := by
  have hg := grows_add r s
  have hpos := h.depths f (by simp)
  have hglobal : s.storage ≠ .globalSlot := by
    rcases hst with hst | hst <;> simp [hst]
  obtain ⟨hfirst, -⟩ := List.pairwise_cons.mp h.distinct
  exact {
    numbered := h.numbered.add hi hlt
    main := h.main.mono fun _ hs => { hs with lists := hs.lists.mono hg }
    main_depth := h.main_depth
    globals := by rw [add_of_storage_ne hglobal, h.globals]
    inner := fun e he => by
      rcases List.mem_cons.mp he with rfl | he
      · exact hf'
      · have hne : s.depth ≠ e.depth := by
          rw [hd]
          exact hfirst e he
        have hold := h.inner e (by simp [he])
        exact ⟨hold.scopes.grow hg, by rw [add_of_depth_ne hne, hold.locals],
          by rw [add_of_depth_ne hne, hold.free], fun o ho => (hold.outer o ho).mono hg⟩
    depths := fun e he => by
      rcases List.mem_cons.mp he with rfl | he
      · rw [hdepth]
        exact hpos
      · exact h.depths e (by simp [he])
    distinct := by
      obtain ⟨_, hrest⟩ := List.pairwise_cons.mp h.distinct
      exact List.pairwise_cons.mpr ⟨fun e he => by rw [hdepth]; exact hfirst e he, hrest⟩
    elsewhere := fun depth hne => by rw [add_of_storage_ne hglobal, h.elsewhere depth hne]
    top := by rw [add_of_depth_ne (by omega), h.top]
    fresh := fun storage depth hle => by
      have : f.depth < nextId := hpos.2
      have : nextId ≤ depth := hle
      rw [add_of_depth_ne (by omega), h.fresh storage depth hle]
    started := h.started }

end Add

theorem lookup? (h : t.Rostered r) (hs : t.lookup? name = some s) :
    s.name = name ∧ (MainSymbol r s ∨ ∃ f ∈ t.inner, BodySymbol r f.depth s) := by
  unfold ScopeTable.lookup? at hs
  rcases Option.or_eq_some_iff.mp hs with hs | ⟨-, hs⟩
  · obtain ⟨f, hf, hs⟩ := List.exists_of_findSome?_eq_some hs
    obtain ⟨hname, hbody⟩ := (h.inner f hf).scopes.lookup? hs
    exact ⟨hname, .inr ⟨f, hf, hbody⟩⟩
  · obtain ⟨hname, hmain⟩ := h.main.lookup? hs
    exact ⟨hname, .inl hmain⟩

theorem lists_of_lookup? (h : t.Rostered r) (hs : t.lookup? name = some s) : r.Lists s := by
  rcases (h.lookup? hs).2 with hmain | ⟨f, -, hbody⟩
  · exact hmain.lists
  · exact hbody.lists

end ScopeTable.Rostered

/-- A step that gives out the symbol `s` leads from a table on the roster `r` to one on `r'`. -/
structure Supplies (t : ScopeTable) (r : Roster) (s : Symbol) (t' : ScopeTable) (r' : Roster) :
    Prop where
  rostered : t'.Rostered r'
  lists : r'.Lists s
  bodies : t'.inner.map (·.depth) = t.inner.map (·.depth)
  nextId : t'.nextId = t.nextId

section Supplies

open Roster

variable {t : ScopeTable} {r : Roster} {name : String}

theorem Scoping.slot_apply (storage : Storage) (name : String) (taken : Nat) (t : ScopeTable) :
    Scoping.slot storage name taken t = if taken < Storage.slotLimit then (.ok taken, t)
      else (.error (.indexOverflow storage name taken), t) := by
  unfold Scoping.slot
  split <;> rfl

theorem ScopeTable.Rostered.defineLocal {f : FunctionScope} {fs : List FunctionScope}
    (h : t.Rostered r) (hi : t.inner = f :: fs) (name : String) :
    Gives (Scoping.defineLocal name) t
      (fun s t' => Supplies t r s t' (r.add s) ∧ s.storage = .localSlot ∧ s.depth = f.depth)
      (fun _ t' => t' = t) := by
  obtain ⟨main, inner, nextId, globals⟩ := t
  obtain rfl : inner = f :: fs := hi
  unfold Gives
  simp only [Scoping.defineLocal, Scoping.slot_apply, Scoping.bindHere, bind_apply, get_apply,
    ScopeTable.current, List.head?_cons, Option.getD_some]
  by_cases hlt : f.locals < Storage.slotLimit
  · simp only [if_pos hlt, modify_apply, pure_apply, ScopeTable.modifyCurrent, List.head?_cons,
      Option.getD_some]
    have hf := h.inner f (by simp)
    generalize hs : Symbol.mk .localSlot name _ _ f.depth f.locals = s
    have hst : s.storage = .localSlot := by rw [← hs]
    have hd : s.depth = f.depth := by rw [← hs]
    have hindex : s.index = f.locals := by rw [← hs]
    have hrow : (r s.storage s.depth).length = f.locals := by rw [hst, hd, hf.locals]
    have hlists : (r.add s).Lists s := lists_add (.inr (.inl hst))
    have hnew := add_self r s
    rw [hst, hd] at hnew
    refine ⟨⟨?_, hlists, ?_, rfl⟩, trivial, trivial⟩
    · refine h.addInner (.inl hst) hd (by omega) (by omega)
        (FunctionScope.depth_insert _ _) ⟨?_, ?_, ?_, ?_⟩
      · rw [FunctionScope.depth_insert]
        exact FunctionScope.Every.insert
          ⟨(hf.scopes.grow (grows_add r s)).root, (hf.scopes.grow (grows_add r s)).blocks⟩
          ⟨hlists, hd, .inl hst⟩
      · rw [FunctionScope.depth_insert, hnew, List.length_append, hf.locals]
        obtain ⟨depth, root, _ | ⟨c, cs⟩, locals, free⟩ := f <;> rfl
      · rw [FunctionScope.depth_insert, add_of_storage_ne (by simp [hst]), hf.free]
        obtain ⟨depth, root, _ | ⟨c, cs⟩, locals, free⟩ := f <;> rfl
      · intro o ho
        refine (hf.outer o ?_).mono (grows_add r s)
        obtain ⟨depth, root, _ | ⟨c, cs⟩, locals, free⟩ := f <;> exact ho
    · simp [FunctionScope.depth_insert]
  · simp only [if_neg hlt]

theorem ScopeTable.Rostered.defineGlobal (h : t.Rostered r) (hi : t.inner = []) (name : String) :
    Gives (Scoping.defineGlobal name) t
      (fun s t' => Supplies t r s t' (r.add s) ∧ s.storage = .globalSlot)
      (fun _ t' => t' = t) := by
  obtain ⟨main, inner, nextId, globals⟩ := t
  obtain rfl : inner = [] := hi
  unfold Gives
  simp only [Scoping.defineGlobal, Scoping.slot_apply, Scoping.bindHere, bind_apply, get_apply]
  by_cases hlt : globals < Storage.slotLimit
  · simp only [if_pos hlt, pure_apply, modify_apply]
    generalize hs : Symbol.mk .globalSlot name _ _ _ globals = s
    have hst : s.storage = .globalSlot := by rw [← hs]
    have hd : s.depth = 0 := by
      rw [← hs]
      exact h.main_depth
    have hadd := h.addGlobal hst hd (by rw [← hs]) hlt
    exact ⟨⟨hadd, lists_add (.inl hst), rfl, rfl⟩, trivial⟩
  · simp only [if_neg hlt]

theorem ScopeTable.Rostered.define (h : t.Rostered r) (name : String) :
    Gives (Scoping.define name) t
      (fun s t' => ∃ r', Supplies t r s t' r' ∧ (r' = r ∨ r' = r.add s ∧
        (s.storage = .globalSlot ∨ s.storage = .localSlot ∧ ∃ f ∈ t.inner, s.depth = f.depth)))
      (fun _ t' => t' = t) := by
  unfold Gives
  simp only [Scoping.define, bind_apply, get_apply]
  cases hs : (t.lookup? name).filter (Scoping.reusable t.current.depth) with
  | some s =>
    simp only [pure_apply]
    have hfound := (Option.filter_eq_some_iff.mp hs).1
    exact ⟨r, ⟨h, h.lists_of_lookup? hfound, rfl, rfl⟩, .inl rfl⟩
  | none =>
    cases hi : t.inner with
    | nil =>
      simp only [List.isEmpty_nil, if_true]
      exact (h.defineGlobal hi name).mono
        (fun s _ hs => ⟨r.add s, hs.1, .inr ⟨rfl, .inl hs.2⟩⟩) fun _ _ he => he
    | cons f fs =>
      simp only [List.isEmpty_cons, Bool.false_eq_true, if_false]
      exact (h.defineLocal hi name).mono
        (fun s _ hs => ⟨r.add s, hs.1, .inr ⟨rfl, .inr ⟨hs.2.1, f, by simp, hs.2.2⟩⟩⟩)
        fun _ _ he => he

theorem ScopeTable.Rostered.defineFree {f : FunctionScope} {fs : List FunctionScope}
    {outer : Symbol} (h : t.Rostered r) (hi : t.inner = f :: fs) (ho : r.Lists outer) :
    Gives (Scoping.defineFree outer) t
      (fun s t' => Supplies t r s t' (r.add s) ∧ s.storage = .captured ∧ s.depth = f.depth ∧
        s.name = outer.name)
      (fun _ t' => t' = t) := by
  obtain ⟨main, inner, nextId, globals⟩ := t
  obtain rfl : inner = f :: fs := hi
  unfold Gives
  simp only [Scoping.defineFree, Scoping.slot_apply, bind_apply, get_apply, ScopeTable.current,
    List.head?_cons, Option.getD_some]
  by_cases hlt : f.free.size < Storage.slotLimit
  · simp only [if_pos hlt, pure_apply, modify_apply]
    have hf := h.inner f (by simp)
    generalize hs : Symbol.mk .captured outer.name _ _ f.depth f.free.size = s
    have hst : s.storage = .captured := by rw [← hs]
    have hd : s.depth = f.depth := by rw [← hs]
    have hindex : s.index = f.free.size := by rw [← hs]
    have hrow : (r s.storage s.depth).length = f.free.size := by rw [hst, hd, hf.free]
    have hlists : (r.add s).Lists s := lists_add (.inr (.inr hst))
    have hscopes := hf.scopes.grow (grows_add r s)
    have hnew := add_self r s
    rw [hst, hd] at hnew
    refine ⟨⟨?_, hlists, rfl, rfl⟩, trivial, trivial, trivial⟩
    refine h.addInner (.inr hst) hd (by omega) (by omega) rfl ⟨?_, ?_, ?_, ?_⟩
    · exact ⟨hscopes.root.insert ⟨hlists, hd, .inr (.inl hst)⟩, hscopes.blocks⟩
    · change (r.add s .localSlot f.depth).length = f.locals
      rw [add_of_storage_ne (by simp [hst]), hf.locals]
    · change (r.add s .captured f.depth).length = (f.free.push outer).size
      rw [hnew, List.length_append, hf.free, Array.size_push, List.length_singleton]
    · intro o ho'
      rcases Array.mem_push.mp ho' with ho' | rfl
      · exact (hf.outer o ho').mono (grows_add r s)
      · exact ho.mono (grows_add r s)
  · simp only [if_neg hlt]

/-- What a resolved name is: it belongs to the body that asks, or to no body. -/
structure Resolved (t : ScopeTable) (name : String) (s : Symbol) : Prop where
  name_eq : s.name = name
  near : s.storage = .globalSlot ∨ s.storage = .builtin ∨ s.depth = t.current.depth

/-- What resolving a name leads to: a symbol that is visible, or a new capture. -/
def Resolves (t : ScopeTable) (r : Roster) (name : String) (s : Symbol) (t' : ScopeTable) : Prop :=
  Resolved t name s ∧ ∃ r', Supplies t r s t' r' ∧
    (r' = r ∨ r' = r.add s ∧ s.storage = .captured ∧ ∃ f ∈ t.inner, s.depth = f.depth)

theorem ScopeTable.Rostered.resolve (h : t.Rostered r) (name : String) :
    Gives (Scoping.resolve name) t (Resolves t r name) (fun _ t' => t' = t) := by
  unfold Gives
  simp only [Scoping.resolve, bind_apply, get_apply]
  cases hs : t.lookup? name with
  | none => simp [throw_apply]
  | some s =>
    obtain ⟨hname, hplace⟩ := h.lookup? hs
    have hfound (hnear : s.storage = .globalSlot ∨ s.storage = .builtin ∨
        s.depth = t.current.depth) : Resolves t r name s t :=
      ⟨⟨hname, hnear⟩, r, ⟨h, h.lists_of_lookup? hs, rfl, rfl⟩, .inl rfl⟩
    by_cases hd : s.depth = t.current.depth
    · cases hst : s.storage <;> simpa [hst, hd, pure_apply] using hfound (.inr (.inr hd))
    · cases hi : t.inner with
      | nil =>
        -- at the top level everything visible belongs to it
        exfalso
        rcases hplace with hmain | ⟨f, hf, -⟩
        · exact hd (by simp [hmain.depth, ScopeTable.current, hi, h.main_depth])
        · simp [hi] at hf
      | cons f fs =>
        have hcurrent : t.current = f := by simp [ScopeTable.current, hi]
        have hfree : Gives (Scoping.defineFree s) t (Resolves t r name) fun _ t' => t' = t := by
          refine (h.defineFree hi (h.lists_of_lookup? hs)).mono ?_ fun _ _ he => he
          rintro s' t' ⟨hsupplies, hst, hdepth, hname'⟩
          exact ⟨⟨hname'.trans hname, .inr (.inr (by rw [hdepth, hcurrent]))⟩, r.add s', hsupplies,
            .inr ⟨rfl, hst, f, by simp [hi], hdepth⟩⟩
        unfold Gives at hfree
        cases hst : s.storage with
        | globalSlot => simpa [hst, pure_apply] using hfound (.inl hst)
        | builtin => simpa [hst, pure_apply] using hfound (.inr (.inl hst))
        | localSlot => simpa [hst, hd] using hfree
        | captured => simpa [hst, hd] using hfree
        | self => simpa [hst, hd] using hfree

theorem ScopeTable.Rostered.defineBuiltin (h : t.Rostered r) (name : String) (index : Nat) :
    Gives (Scoping.defineBuiltin name index) t (fun s t' => Supplies t r s t' r)
      (fun _ t' => t' = t) := by
  unfold Gives
  simp only [Scoping.defineBuiltin, Scoping.slot_apply, bind_apply]
  by_cases hlt : index < Storage.slotLimit
  · simp only [if_pos hlt, pure_apply, get_apply, modify_apply]
    generalize hs : Symbol.mk .builtin name _ 0 0 index = s
    have hst : s.storage = .builtin := by rw [← hs]
    have hindex : s.index < Storage.slotLimit := by rwa [← hs]
    obtain ⟨hrostered, hlists⟩ := h.addBuiltin hst (by rw [← hs]) hindex
    exact ⟨hrostered, hlists, rfl, rfl⟩
  · simp only [if_neg hlt]

end Supplies

end StackScript
