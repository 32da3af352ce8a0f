import StackScript.Proofs.Effect
import StackScript.Proofs.Scope.Shows

/-! # Operations on scope tables

What each operation does to the lexical environment that a table shows. A definition takes the
variable that the environment declares, and looking a name up finds its place.
-/

namespace StackScript

namespace OpenScopes

def enterFunction (v : OpenScopes) : OpenScopes :=
  { v with inner := ⟨{}, 0, []⟩ :: v.inner }

def bindSlot (v : OpenScopes) (name : String) : OpenScopes :=
  (v.take (v.slots + 1)).modify (·.bind name (.slot v.slots))

def declare (v : OpenScopes) (name : String) : OpenScopes :=
  match v.env.reused? name with
  | some _ => v
  | none => v.bindSlot name

theorem env_declare (v : OpenScopes) (name : String) :
    (v.declare name).env = (v.env.declare v.slots name).2.1 := by
  unfold declare Lexical.declare
  split <;> simp_all [bindSlot]

theorem slots_declare (v : OpenScopes) (name : String) :
    (v.declare name).slots = (v.env.declare v.slots name).2.2 := by
  unfold declare Lexical.declare
  split <;> simp_all [bindSlot]

@[simp] theorem captured_declare (v : OpenScopes) (name : String) :
    (v.declare name).captured = v.captured := by
  unfold declare
  split <;> simp [bindSlot]

end OpenScopes

/-- The place that a symbol names. -/
def Symbol.place (s : Symbol) : Place := ⟨s.storage, s.index⟩

section Mono

variable {depth slots slots' : Nat} {captured captured' : List String} {outer : List OpenBody}
  {name : String} {s : Symbol}

theorem LocalOk.mono (h : LocalOk depth slots name s) (hn : slots ≤ slots') :
    LocalOk depth slots' name s :=
  { h with index_lt := Nat.lt_of_lt_of_le h.index_lt hn }

theorem RootOk.mono (h : RootOk depth slots captured outer name s) (hn : slots ≤ slots')
    (hc : captured <+: captured') : RootOk depth slots' captured' outer name s := by
  cases h with
  | slot h => exact .slot (h.mono hn)
  | self h₁ h₂ h₃ h₄ => exact .self h₁ h₂ h₃ h₄
  | captured h₁ h₂ h₃ h₄ h₅ => exact .captured h₁ h₂ h₃ (Lexical.idxOf?_of_extends hc h₄) h₅

theorem GlobalOk.mono (h : GlobalOk slots s) (hn : slots ≤ slots') : GlobalOk slots' s :=
  { h with index_lt := Nat.lt_of_lt_of_le h.index_lt hn }

theorem MainOk.mono (h : MainOk slots name s) (hn : slots ≤ slots') : MainOk slots' name s := by
  cases h with
  | slot h => exact .slot (h.mono hn)
  | builtin h₁ h₂ => exact .builtin h₁ h₂

theorem LocalOk.binding?_eq (h : LocalOk depth slots name s) :
    s.binding? = some (.slot s.index) := by
  simp [Symbol.binding?, h.storage]

theorem GlobalOk.binding?_eq (h : GlobalOk slots s) : s.binding? = some (.slot s.index) := by
  simp [Symbol.binding?, h.storage]

end Mono

section Blocks

variable {t : ScopeTable} {v : OpenScopes}

theorem ScopeTable.Shows.initial : ({} : ScopeTable).Shows {} where
  main := ⟨.empty 0 "main", .nil⟩
  inner := .nil
  globals := rfl
  globals_le := by decide
  fresh f hf := by simp at hf

theorem ScopeTable.Shows.enterFunction (h : t.Shows v) (name : Option String) :
    (t.enterFunction name).Shows v.enterFunction where
  main := h.main
  inner := by
    refine .cons ?_ (fun g hg => Nat.ne_of_lt (h.fresh g hg)) h.inner
    exact {
      scopes := ⟨.empty _ _, .nil⟩
      locals := rfl
      free := rfl
      bound := by simp
      enclosed := by simp
      slots_le := by decide
      captured_le := by decide
      nodup := .nil }
  globals := h.globals
  globals_le := h.globals_le
  fresh f hf := by
    rcases List.mem_cons.mp hf with rfl | hf
    · exact Nat.lt_succ_self _
    · exact Nat.lt_succ_of_lt (h.fresh f hf)

theorem ScopeTable.Shows.leaveFunction {b : OpenBody} {bs : List OpenBody}
    (h : t.Shows { v with inner := b :: bs }) :
    t.leaveFunction.1.locals = b.slots ∧
      t.leaveFunction.1.free.toList.map (·.name) = b.captured ∧
      (∀ name ∈ b.captured, boundIn bs name = true) ∧
      t.leaveFunction.2.Shows { v with inner := bs } := by
  obtain ⟨main, inner, nextId, globals⟩ := t
  obtain ⟨hm, hi, hg, hl, hf⟩ := h
  cases hi with
  | cons hb _ hi =>
    exact ⟨hb.locals, hb.free, hb.enclosed, hm, hi, hg, hl, fun f hm => hf f (List.mem_cons_of_mem _ hm)⟩

theorem ScopeTable.Shows.enterBlock (h : t.Shows v) (kind : BlockKind) :
    (t.enterBlock kind).Shows (v.modify (·.enterBlock)) := by
  obtain ⟨main, inner, nextId, globals⟩ := t
  obtain ⟨vmain, vglobals, vinner⟩ := v
  obtain ⟨hm, hi, hg, hl, hf⟩ := h
  cases hi with
  | nil => exact ⟨hm.enterBlock _ _, .nil, hg, hl, fun f hm => by cases hm⟩
  | @cons f fs b bs hb hd hi =>
    refine ⟨hm, .cons ?_ hd hi, hg, hl, ?_⟩
    · exact { hb with scopes := hb.scopes.enterBlock _ _ }
    · rintro g hg
      rcases List.mem_cons.mp hg with rfl | hg
      · exact Nat.lt_succ_of_lt (hf f List.mem_cons_self)
      · exact Nat.lt_succ_of_lt (hf g (List.mem_cons_of_mem _ hg))

theorem ScopeTable.Shows.leaveBlock (h : t.Shows v) :
    t.leaveBlock.Shows (v.modify (·.leaveBlock)) := by
  obtain ⟨main, inner, nextId, globals⟩ := t
  obtain ⟨vmain, vglobals, vinner⟩ := v
  obtain ⟨hm, hi, hg, hl, hf⟩ := h
  cases hi with
  | nil => exact ⟨hm.leaveBlock, .nil, hg, hl, fun f hm => by cases hm⟩
  | @cons f fs b bs hb hd hi =>
    refine ⟨hm, .cons ?_ hd hi, hg, hl, ?_⟩
    · exact { hb with scopes := hb.scopes.leaveBlock }
    · rintro g hg
      rcases List.mem_cons.mp hg with rfl | hg
      · exact hf f List.mem_cons_self
      · exact hf g (List.mem_cons_of_mem _ hg)

theorem ScopeTable.Shows.defineSelf (h : t.Shows v.enterFunction) (name : String) :
    (t.defineSelf name).2.Shows (v.enterFunction.modify (·.bind name .self)) := by
  obtain ⟨main, inner, nextId, globals⟩ := t
  obtain ⟨hm, hi, hg, hl, hf⟩ := h
  cases hi with
  | @cons f fs _ _ hb hd hi =>
    refine ⟨hm, .cons ?_ hd hi, hg, hl, ?_⟩
    · exact {
        scopes := ⟨hb.scopes.root.insert (s := ⟨.self, name, _, _, f.depth, 0⟩) rfl
          (.self rfl rfl rfl rfl), hb.scopes.blocks⟩
        locals := hb.locals
        free := hb.free
        bound := by simp
        enclosed := hb.enclosed
        slots_le := hb.slots_le
        captured_le := hb.captured_le
        nodup := hb.nodup }
    · rintro g hg
      rcases List.mem_cons.mp hg with rfl | hg
      · exact hf f List.mem_cons_self
      · exact hf g (List.mem_cons_of_mem _ hg)

end Blocks

theorem FunctionScope.depth_insert (f : FunctionScope) (s : Symbol) :
    (f.insert s).depth = f.depth := by
  obtain ⟨depth, root, _ | ⟨c, cs⟩, locals, free⟩ := f <;> rfl

section Define

variable {t : ScopeTable} {v : OpenScopes} {name : String}

theorem BodyShows.defineLocal {f : FunctionScope} {b : OpenBody} {outer : List OpenBody}
    {s : Symbol} (h : BodyShows f b outer) (hn : b.slots < Storage.slotLimit)
    (hs : LocalOk f.depth (b.slots + 1) name s) (hi : s.index = b.slots) :
    BodyShows (({ f with locals := f.locals + 1 } : FunctionScope).insert s)
      { b with names := b.names.bind name (.slot b.slots), slots := b.slots + 1 } outer := by
  obtain ⟨depth, root, blocks, locals, free⟩ := f
  have hle : b.slots ≤ b.slots + 1 := Nat.le_succ _
  have hscopes := h.scopes.mono (fun _ _ h => h.mono hle (List.prefix_refl _))
    (fun _ _ h => h.mono hle)
  have hbind : s.binding? = some (.slot b.slots) := hi ▸ hs.binding?_eq
  obtain rfl := hs.name_eq
  have hinsert := hscopes.insert hbind (.slot hs) hs
  cases blocks with
  | nil =>
    exact {
      scopes := ⟨hinsert.root, hinsert.blocks⟩
      locals := congrArg (· + 1) h.locals
      free := h.free
      bound := fun x hx => by
        simp only [FunctionScope.insert, Context.find?_insert]
        split
        · simp
        · exact h.bound x hx
      enclosed := h.enclosed
      slots_le := hn
      captured_le := h.captured_le
      nodup := h.nodup }
  | cons c cs =>
    exact {
      scopes := ⟨hinsert.root, hinsert.blocks⟩
      locals := congrArg (· + 1) h.locals
      free := h.free
      bound := h.bound
      enclosed := h.enclosed
      slots_le := hn
      captured_le := h.captured_le
      nodup := h.nodup }

theorem ScopeTable.Shows.defineLocal (h : t.Shows v) (hi : v.inner ≠ []) (name : String) :
    Gives (Scoping.defineLocal name) t
      (fun s t' => s.place = v.env.slot v.slots ∧ v.slots < Storage.slotLimit ∧
        t'.Shows (v.bindSlot name))
      (fun _ t' => t' = t ∧ Storage.slotLimit ≤ v.slots) := by
  obtain ⟨main, inner, nextId, globals⟩ := t
  obtain ⟨vmain, vglobals, vinner⟩ := v
  obtain ⟨hm, hin, hg, hl, hf⟩ := h
  cases hin with
  | nil => exact absurd rfl hi
  | @cons f fs b bs hb hd hin =>
    unfold Gives
    simp only [Scoping.defineLocal, Scoping.slot, Scoping.bindHere, bind_apply, get_apply,
      ScopeTable.current, List.head?_cons, Option.getD_some, hb.locals]
    by_cases hlt : b.slots < Storage.slotLimit
    · simp only [hlt, if_true, pure_apply, modify_apply]
      refine ⟨rfl, hlt, hm, .cons (hb.defineLocal hlt ⟨rfl, rfl, rfl, Nat.lt_succ_self _⟩ rfl) ?_ hin,
        hg, hl, ?_⟩
      · intro g hg
        rw [FunctionScope.depth_insert]
        exact hd g hg
      · intro g hg
        rcases List.mem_cons.mp hg with rfl | hg
        · rw [FunctionScope.depth_insert]
          exact hf f List.mem_cons_self
        · exact hf g (List.mem_cons_of_mem _ hg)
    · rw [if_neg hlt, throw_apply]
      exact ⟨rfl, Nat.le_of_not_lt hlt⟩

theorem ScopeTable.Shows.defineGlobal (h : t.Shows v) (hi : v.inner = []) (name : String) :
    Gives (Scoping.defineGlobal name) t
      (fun s t' => s.place = v.env.slot v.slots ∧ v.slots < Storage.slotLimit ∧
        t'.Shows (v.bindSlot name))
      (fun _ t' => t' = t ∧ Storage.slotLimit ≤ v.slots) := by
  obtain ⟨main, inner, nextId, globals⟩ := t
  obtain ⟨vmain, vglobals, vinner⟩ := v
  obtain ⟨hm, hin, hg, hl, hf⟩ := h
  obtain rfl : vinner = [] := hi
  cases hin
  obtain rfl : globals = vglobals := hg
  unfold Gives
  simp only [Scoping.defineGlobal, Scoping.slot, Scoping.bindHere, bind_apply, get_apply]
  by_cases hlt : globals < Storage.slotLimit
  · simp only [hlt, if_true, pure_apply, modify_apply]
    have hle : globals ≤ globals + 1 := Nat.le_succ _
    have hmain := hm.mono (fun _ _ h => h.mono hle) (fun _ _ h => h.mono hle)
    have hok (mangled : String) (context depth : Nat) :
        GlobalOk (globals + 1) ⟨.globalSlot, name, mangled, context, depth, globals⟩ :=
      ⟨rfl, Nat.lt_succ_self _⟩
    exact ⟨rfl, hlt, hmain.insert (hok _ _ _).binding?_eq (.slot (hok _ _ _)) (hok _ _ _), .nil, rfl,
      hlt, hf⟩
  · rw [if_neg hlt, throw_apply]
    exact ⟨rfl, Nat.le_of_not_lt hlt⟩

theorem BodyShows.lookup?_some {f : FunctionScope} {b : OpenBody} {outer : List OpenBody}
    {s : Symbol} (h : BodyShows f b outer) (hs : f.lookup? name = some s) :
    RootOk f.depth b.slots b.captured outer name s ∧ b.names.find? name = s.binding? := by
  have hb : ∀ name s, LocalOk f.depth b.slots name s → s.binding?.isSome := fun _ _ h => by
    simp [h.binding?_eq]
  refine ⟨?_, by simp [h.scopes.find?_eq hb, hs]⟩
  rcases h.scopes.lookup?_ok hb hs with h | h
  · exact .slot h
  · exact h

theorem BodyShows.lookup?_none {f : FunctionScope} {b : OpenBody} {outer : List OpenBody}
    (h : BodyShows f b outer) (hs : f.lookup? name = none) :
    b.names.find? name = none ∧ name ∉ b.captured := by
  have hb : ∀ name s, LocalOk f.depth b.slots name s → s.binding?.isSome := fun _ _ h => by
    simp [h.binding?_eq]
  exact ⟨by simp [h.scopes.find?_eq hb, hs],
    fun hc => h.bound name hc (FunctionScope.Shows.root_of_lookup?_none hs)⟩

/-- A name that a function body looks up in vain is bound by no body around. -/
theorem InnerShows.findSome?_none {fs : List FunctionScope} {bs : List OpenBody}
    (h : InnerShows fs bs) (hs : fs.findSome? (·.lookup? name) = none) :
    boundIn bs name = false := by
  induction h with
  | nil => rfl
  | cons hb _ _ ih =>
    rw [List.findSome?_cons] at hs
    split at hs
    · simp at hs
    · next hf =>
      simp only [boundIn, List.any_cons, (hb.lookup?_none hf).1, Option.isSome_none, Bool.false_or]
      exact ih hs

/-- What is found in the function bodies around is a local, a function or a captured name of one of
them, and one of them binds it. -/
theorem InnerShows.findSome?_some {fs : List FunctionScope} {bs : List OpenBody} {s : Symbol}
    (h : InnerShows fs bs) (hs : fs.findSome? (·.lookup? name) = some s) :
    boundIn bs name = true ∧ s.name = name ∧ (∃ f ∈ fs, s.depth = f.depth) ∧
      s.storage ≠ .globalSlot ∧ s.storage ≠ .builtin := by
  induction h with
  | nil => simp at hs
  | @cons f fs b bs hb _ _ ih =>
    rw [List.findSome?_cons] at hs
    split at hs
    · next s' hf =>
      obtain rfl : s' = s := by simpa using hs
      obtain ⟨hok, hfind⟩ := hb.lookup?_some hf
      simp only [boundIn, List.any_cons, Bool.or_eq_true]
      cases hok with
      | slot h =>
        refine ⟨.inl ?_, h.name_eq, ⟨f, List.mem_cons_self, h.depth_eq⟩, ?_, ?_⟩
        · rw [hfind, h.binding?_eq]; rfl
        · rw [h.storage]; decide
        · rw [h.storage]; decide
      | self h₁ h₂ h₃ h₄ =>
        refine ⟨.inl ?_, h₁, ⟨f, List.mem_cons_self, h₂⟩, ?_, ?_⟩
        · rw [hfind, Symbol.binding?, h₃]; rfl
        · rw [h₃]; decide
        · rw [h₃]; decide
      | captured h₁ h₂ h₃ h₄ h₅ =>
        refine ⟨.inr h₅, h₁, ⟨f, List.mem_cons_self, h₂⟩, ?_, ?_⟩
        · rw [h₃]; decide
        · rw [h₃]; decide
    · obtain ⟨hbound, hname, ⟨g, hg, hd⟩, hst⟩ := ih hs
      refine ⟨?_, hname, ⟨g, List.mem_cons_of_mem _ hg, hd⟩, hst⟩
      simp only [boundIn, List.any_cons, Bool.or_eq_true]
      exact .inr hbound

theorem Builtin.indexOf?_lt {i : Nat} (h : Builtin.indexOf? name = some i) :
    i < Builtin.all.length := by
  unfold Builtin.indexOf? at h
  exact (List.findIdx?_eq_some_iff_getElem.mp h).1

/-- What is found at the top level is the global or builtin that the name means outside of all
function bodies. -/
theorem ScopeTable.Shows.main_lookup?_some {s : Symbol} (h : t.Shows v)
    (hs : t.main.lookup? name = some s) :
    v.env.outside? name = some s.place ∧ s.index < Storage.slotLimit ∧
      (s.storage = .globalSlot ∨ s.storage = .builtin) := by
  have hb : ∀ (_ : String) s, GlobalOk v.globals s → s.binding?.isSome := fun _ _ h => by
    simp [h.binding?_eq]
  have hfind : v.main.find? name = s.binding? := by simp [h.main.find?_eq hb, hs]
  have hslot (hok : GlobalOk v.globals s) : v.env.outside? name = some s.place ∧
      s.index < Storage.slotLimit ∧ (s.storage = .globalSlot ∨ s.storage = .builtin) := by
    refine ⟨?_, Nat.lt_of_lt_of_le hok.index_lt h.globals_le, .inl hok.storage⟩
    rw [hok.binding?_eq] at hfind
    simp [Lexical.outside?, OpenScopes.env, hfind, Symbol.place, hok.storage]
  rcases h.main.lookup?_ok hb hs with hok | hok
  · exact hslot hok
  · cases hok with
    | slot hok => exact hslot hok
    | builtin hst hi =>
      have hn : v.main.find? name = none := by rw [hfind, Symbol.binding?, hst]
      refine ⟨?_, Nat.lt_trans (Builtin.indexOf?_lt hi) (by decide), .inr hst⟩
      simp [Lexical.outside?, OpenScopes.env, hn, hi, Symbol.place, hst]

theorem ScopeTable.Shows.main_lookup?_none (h : t.Shows v) (hs : t.main.lookup? name = none) :
    v.main.find? name = none := by
  have hb : ∀ (_ : String) s, GlobalOk v.globals s → s.binding?.isSome := fun _ _ h => by
    simp [h.binding?_eq]
  simp [h.main.find?_eq hb, hs]

theorem ScopeTable.Shows.slot_lt_globals {i : Nat} (h : t.Shows v)
    (hi : v.env.main.find? name = some (.slot i)) : i < v.globals := by
  have hb : ∀ (_ : String) s, GlobalOk v.globals s → s.binding?.isSome := fun _ _ h => by
    simp [h.binding?_eq]
  have hi : v.main.find? name = some (.slot i) := hi
  rw [h.main.find?_eq hb] at hi
  obtain ⟨s, hs, hx⟩ := Option.bind_eq_some_iff.mp hi
  have hslot (hok : GlobalOk v.globals s) : i < v.globals := by
    rw [hok.binding?_eq] at hx
    cases hx
    exact hok.index_lt
  rcases h.main.lookup?_ok hb hs with hok | hok
  · exact hslot hok
  · cases hok with
    | slot hok => exact hslot hok
    | builtin hst _ => simp [Symbol.binding?, hst] at hx

/-- Where a lookup in a scope table ends. -/
inductive ScopeTable.Located (t : ScopeTable) (v : OpenScopes) (name : String) :
    Option Symbol → Prop
  | here {s : Symbol} : v.env.place? v.captured name = some s.place →
      s.index < Storage.slotLimit → s.depth = t.current.depth →
      s.storage ≠ .globalSlot → s.storage ≠ .builtin → Located t v name (some s)
  /-- In a function body around, so that the innermost one has yet to capture it. -/
  | around {s : Symbol} {b : OpenBody} {bs : List OpenBody} : v.inner = b :: bs →
      b.names.find? name = none → name ∉ b.captured → boundIn bs name = true → s.name = name →
      s.depth ≠ t.current.depth → s.storage ≠ .globalSlot → s.storage ≠ .builtin →
      Located t v name (some s)
  | outside {s : Symbol} : v.env.place? v.captured name = some s.place →
      s.index < Storage.slotLimit → (s.storage = .globalSlot ∨ s.storage = .builtin) →
      Located t v name (some s)
  | nowhere : (∀ captured, v.env.place? captured name =
      (Builtin.indexOf? name).map fun i => ⟨.builtin, i⟩) → v.main.find? name = none →
      Located t v name none

theorem Lexical.place?_of_unbound {env : Lexical} {b : Body} {bs : List Body}
    (hi : env.inner = b :: bs) (hf : b.find? name = none)
    (hb : (bs.any fun b => (b.find? name).isSome) = false) (captured : List String) :
    env.place? captured name = env.outside? name := by
  simp only [Lexical.place?, hi, hf, hb, Bool.false_eq_true, if_false]

theorem ScopeTable.Shows.located (h : t.Shows v) (name : String) :
    t.Located v name (t.lookup? name) := by
  obtain ⟨main, inner, nextId, globals⟩ := t
  obtain ⟨vmain, vglobals, vinner⟩ := v
  have hin := h.inner
  simp only at hin
  have hsome {s : Symbol} (hs : main.lookup? name = some s) := h.main_lookup?_some hs
  have hnone (hs : main.lookup? name = none) : vmain.find? name = none := h.main_lookup?_none hs
  have hfar (hs : main.lookup? name = none) : (OpenScopes.env ⟨vmain, vglobals, vinner⟩).outside?
      name = (Builtin.indexOf? name).map fun i => ⟨.builtin, i⟩ := by
    simp [Lexical.outside?, OpenScopes.env, hnone hs]
  unfold ScopeTable.lookup?
  cases hin with
  | nil =>
    simp only [List.findSome?_nil, Option.none_or]
    cases hs : main.lookup? name with
    | some s =>
      obtain ⟨hp, hi, hst⟩ := hsome hs
      exact .outside hp hi hst
    | none => exact .nowhere (fun _ => hfar hs) (hnone hs)
  | @cons f fs b bs hb hd hin =>
    simp only [List.findSome?_cons]
    cases hf : f.lookup? name with
    | some s =>
      obtain ⟨hok, hfind⟩ := hb.lookup?_some hf
      simp only [Option.some_or]
      cases hok with
      | slot hok =>
        refine .here ?_ (Nat.lt_of_lt_of_le hok.index_lt hb.slots_le) hok.depth_eq ?_ ?_
        · rw [hok.binding?_eq] at hfind
          simp [Lexical.place?, OpenScopes.env, hfind, Symbol.place, hok.storage]
        · rw [hok.storage]; decide
        · rw [hok.storage]; decide
      | self h₁ h₂ h₃ h₄ =>
        refine .here ?_ (by rw [h₄]; decide) h₂ ?_ ?_
        · rw [Symbol.binding?, h₃] at hfind
          simp [Lexical.place?, OpenScopes.env, hfind, Symbol.place, h₃, h₄]
        · rw [h₃]; decide
        · rw [h₃]; decide
      | captured h₁ h₂ h₃ h₄ h₅ =>
        refine .here ?_ (Nat.lt_of_lt_of_le ?_ hb.captured_le) h₂ ?_ ?_
        · rw [Symbol.binding?, h₃] at hfind
          have h₅' : ((bs.map (·.names)).any fun b => (b.find? name).isSome) = true := by
            simpa [boundIn, List.any_map, Function.comp_def] using h₅
          simp only [Lexical.place?, OpenScopes.env, List.map_cons, hfind, h₅', if_true,
            OpenScopes.captured, h₄, Option.map_some, Symbol.place, h₃]
        · exact (List.findIdx?_eq_some_iff_getElem.mp h₄).1
        · rw [h₃]; decide
        · rw [h₃]; decide
    | none =>
      obtain ⟨hfind, hcap⟩ := hb.lookup?_none hf
      simp only
      cases hfs : fs.findSome? (·.lookup? name) with
      | some s =>
        obtain ⟨hbound, hname, ⟨g, hg, hdg⟩, hst, hst'⟩ := hin.findSome?_some hfs
        exact .around rfl hfind hcap hbound hname (hdg ▸ hd g hg) hst hst'
      | none =>
        have hbs : ((bs.map (·.names)).any fun b => (b.find? name).isSome) = false := by
          have := hin.findSome?_none hfs
          simpa [boundIn, List.any_map, Function.comp_def] using this
        have hplace := Lexical.place?_of_unbound
          (show (OpenScopes.env ⟨vmain, vglobals, b :: bs⟩).inner = _ from rfl) hfind hbs
        simp only [Option.none_or]
        cases hs : main.lookup? name with
        | some s =>
          obtain ⟨hp, hi, hst⟩ := hsome hs
          exact .outside ((hplace _).trans hp) hi hst
        | none => exact .nowhere (fun c => (hplace c).trans (hfar hs)) (hnone hs)

end Define

end StackScript
