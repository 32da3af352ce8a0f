import StackScript.Proofs.Scope.Operations

/-! # Defining and resolving names

A definition gives the variable that the lexical environment declares. Resolving a name gives the
place of its innermost binding, and captures it when that belongs to another function body.
-/

namespace StackScript

namespace Body

/-- The body without the names of its innermost scope. -/
def forget (b : Body) : Body :=
  match b with
  | ⟨_, []⟩ => ⟨[], []⟩
  | ⟨root, _ :: blocks⟩ => ⟨root, [] :: blocks⟩

@[simp] theorem forget_bind (b : Body) (name : String) (x : Binding) :
    (b.bind name x).forget = b.forget := by
  obtain ⟨root, _ | ⟨names, blocks⟩⟩ := b <;> rfl

theorem leaveBlock_of_forget {b b' : Body} (h : b'.forget = b.enterBlock.forget) :
    b'.leaveBlock = b := by
  obtain ⟨root, blocks⟩ := b
  obtain ⟨root', _ | ⟨names, blocks'⟩⟩ := b'
  · simp [forget, enterBlock] at h
  · simp only [forget, enterBlock, Body.mk.injEq, List.cons.injEq, true_and] at h
    simp [leaveBlock, h]

end Body

namespace Lexical

def forget (env : Lexical) : Lexical := env.modify (·.forget)

theorem forget_modify {f : Body → Body} (hf : ∀ b, (f b).forget = b.forget) (env : Lexical) :
    (env.modify f).forget = env.forget := by
  obtain ⟨main, _ | ⟨b, bs⟩⟩ := env <;> simp [forget, modify, hf]

theorem leaveBlock_of_forget {env env' : Lexical} (h : env'.forget = env.enterBlock.forget) :
    env'.leaveBlock = env := by
  obtain ⟨main, _ | ⟨b, bs⟩⟩ := env <;> obtain ⟨main', _ | ⟨b', bs'⟩⟩ := env'
  · simp only [forget, modify, enterBlock, Lexical.mk.injEq, and_true] at h
    simp [leaveBlock, modify, Body.leaveBlock_of_forget h]
  · simp [forget, modify, enterBlock] at h
  · simp [forget, modify, enterBlock] at h
  · simp only [forget, modify, enterBlock, Lexical.mk.injEq, List.cons.injEq] at h
    simp [leaveBlock, modify, Body.leaveBlock_of_forget h.2.1, h]

end Lexical

/-- Names keep their slots, and names that are added get slots from `taken` on. -/
structure Names.Grows (names : Names) (taken : Nat) (names' : Names) : Prop where
  kept : ∀ name i, names.lookup name = some (.slot i) → names'.lookup name = some (.slot i)
  added : ∀ name i, names'.lookup name = some (.slot i) →
    names.lookup name = some (.slot i) ∨ taken ≤ i

theorem Names.Grows.refl (names : Names) (taken : Nat) : Grows names taken names :=
  ⟨fun _ _ h => h, fun _ _ h => .inl h⟩

theorem Names.Grows.trans {names names₁ names₂ : Names} {taken taken₁ : Nat}
    (h₁ : Grows names taken names₁) (h₂ : Grows names₁ taken₁ names₂) (hle : taken ≤ taken₁) :
    Grows names taken names₂ where
  kept name i h := h₂.kept name i (h₁.kept name i h)
  added name i h := by
    rcases h₂.added name i h with h | h
    · exact h₁.added name i h
    · exact .inr (Nat.le_trans hle h)

theorem Names.Grows.cons {names : Names} {name : String}
    (h : ∀ i, names.lookup name ≠ some (.slot i)) (taken : Nat) :
    Grows names taken ((name, .slot taken) :: names) where
  kept other i ho := by
    have hne : (other == name) = false := by
      rw [beq_eq_false_iff_ne]
      rintro rfl
      exact h i ho
    rw [List.lookup_cons, hne]
    exact ho
  added other i ho := by
    rw [List.lookup_cons] at ho
    split at ho
    · cases ho
      exact .inr (Nat.le_refl _)
    · exact .inl ho

/-- Names are bound in the innermost scope, slots taken and names captured in the innermost body;
all else stays. Only a name that the body does not bind is captured. -/
structure OpenScopes.Extends (v v' : OpenScopes) : Prop where
  env : v'.env.forget = v.env.forget
  captured : v.captured <+: v'.captured
  bound : ∀ name, v.env.binds name = true → v'.env.binds name = true
  fresh : ∀ name ∈ v'.captured, name ∈ v.captured ∨ v.env.binds name = false
  slots : v.slots ≤ v'.slots
  outer : v'.inner.tail = v.inner.tail
  globals : v.inner ≠ [] → v'.globals = v.globals
  main : Names.Grows v.main.root v.globals v'.main.root

namespace OpenScopes.Extends

variable {v v₁ v₂ : OpenScopes}

theorem refl (v : OpenScopes) : v.Extends v :=
  ⟨rfl, List.prefix_refl _, fun _ h => h, fun _ h => .inl h, Nat.le_refl _, rfl, fun _ => rfl,
    .refl _ _⟩

theorem inner_ne_nil (h : v.Extends v₁) : v₁.inner ≠ [] ↔ v.inner ≠ [] := by
  have he := h.env
  obtain ⟨main, globals, _ | ⟨b, bs⟩⟩ := v <;> obtain ⟨main', globals', _ | ⟨b', bs'⟩⟩ := v₁ <;>
    simp_all [Lexical.forget, Lexical.modify, OpenScopes.env]

theorem globals_le (h : v.Extends v₁) : v.globals ≤ v₁.globals := by
  by_cases hi : v.inner = []
  · have hi' : v₁.inner = [] := Decidable.byContradiction fun hne => h.inner_ne_nil.mp hne hi
    have hs := h.slots
    simpa [OpenScopes.slots, hi, hi'] using hs
  · exact Nat.le_of_eq (h.globals hi).symm

theorem trans (h₁ : v.Extends v₁) (h₂ : v₁.Extends v₂) : v.Extends v₂ where
  env := h₂.env.trans h₁.env
  captured := h₁.captured.trans h₂.captured
  bound name h := h₂.bound name (h₁.bound name h)
  fresh name hname := by
    rcases h₂.fresh name hname with hname | hfree
    · exact h₁.fresh name hname
    · exact .inr (Bool.eq_false_iff.mpr fun hb => by simp [h₁.bound name hb] at hfree)
  slots := Nat.le_trans h₁.slots h₂.slots
  outer := h₂.outer.trans h₁.outer
  globals hi := (h₂.globals (h₁.inner_ne_nil.mpr hi)).trans (h₁.globals hi)
  main := h₁.main.trans h₂.main h₁.globals_le

theorem bindSlot (v : OpenScopes) (name : String)
    (hnew : v.inner = [] → ∀ i, v.main.find? name ≠ some (.slot i)) :
    v.Extends (v.bindSlot name) where
  env := by
    rw [OpenScopes.bindSlot, env_modify, env_take]
    exact Lexical.forget_modify (fun b => b.forget_bind _ _) _
  captured := by simp [OpenScopes.bindSlot]
  bound other h := by
    rw [OpenScopes.bindSlot, env_modify, env_take]
    exact Lexical.binds_bind h name _
  fresh other h := .inl (by simpa [OpenScopes.bindSlot] using h)
  slots := by simp [OpenScopes.bindSlot]
  outer := by obtain ⟨main, globals, _ | ⟨b, bs⟩⟩ := v <;> rfl
  globals hi := by
    obtain ⟨main, globals, _ | ⟨b, bs⟩⟩ := v
    · exact absurd rfl hi
    · rfl
  main := by
    obtain ⟨⟨root, _ | ⟨names, blocks⟩⟩, globals, _ | ⟨b, bs⟩⟩ := v
    · exact .cons (hnew rfl) globals
    all_goals exact .refl _ _

theorem declare (v : OpenScopes) (name : String) : v.Extends (v.declare name) := by
  unfold OpenScopes.declare
  split
  · exact refl v
  · next hnone =>
    refine bindSlot v name fun hi i hfind => ?_
    have hplace : v.env.place? [] name = some ⟨.globalSlot, i⟩ := by
      simp only [Lexical.place?, OpenScopes.env, hi, List.map_nil, Lexical.outside?, hfind]
    simp [Lexical.reused?, hplace, Storage.assignable] at hnone

theorem enterBody (v : OpenScopes) (names : Names) (taken : Nat) :
    v.enterFunction.Extends { v with inner := ⟨⟨names, []⟩, taken, []⟩ :: v.inner } where
  env := rfl
  captured := List.prefix_refl _
  bound _ h := by cases h
  fresh _ h := .inl h
  slots := Nat.zero_le _
  outer := rfl
  globals _ := rfl
  main := .refl _ _

theorem capture {name : String} (h : v.env.binds name = false) : v.Extends (v.capture name) := by
  obtain ⟨main, globals, _ | ⟨b, bs⟩⟩ := v
  · exact refl _
  · refine ⟨rfl, List.prefix_append _ _, fun _ h => h, fun other hmem => ?_, Nat.le_refl _, rfl,
      fun _ => rfl, .refl _ _⟩
    rcases List.mem_append.mp hmem with hmem | hmem
    · exact .inl hmem
    · exact .inr (List.mem_singleton.mp hmem ▸ h)

theorem leaveBlock (h : (v.modify (·.enterBlock)).Extends v₁) :
    v.Extends (v₁.modify (·.leaveBlock)) ∧ (v₁.modify (·.leaveBlock)).env = v.env := by
  have henv : (v₁.modify (·.leaveBlock)).env = v.env := by
    rw [env_modify]
    exact Lexical.leaveBlock_of_forget (by simpa [Lexical.enterBlock] using h.env)
  have hmain : (v₁.modify (·.leaveBlock)).main = v.main := congrArg Lexical.main henv
  refine ⟨⟨by rw [henv], by simpa using h.captured, fun name hb => henv ▸ hb, fun name hname => ?_,
    by simpa using h.slots, ?_, ?_, hmain ▸ .refl _ _⟩, henv⟩
  · have hfresh := h.fresh name (by simpa using hname)
    rw [env_modify, captured_modify] at hfresh
    exact hfresh.imp_right fun hfree => (Lexical.binds_enterBlock ..).symm.trans hfree
  · have ho := h.outer
    obtain ⟨main, globals, _ | ⟨b, bs⟩⟩ := v <;> obtain ⟨main', globals', _ | ⟨b', bs'⟩⟩ := v₁ <;>
      simp_all [OpenScopes.modify]
  · intro hi
    have hg := h.globals
    obtain ⟨main, globals, _ | ⟨b, bs⟩⟩ := v <;> obtain ⟨main', globals', _ | ⟨b', bs'⟩⟩ := v₁ <;>
      simp_all [OpenScopes.modify]

theorem leaveFunction {b : OpenBody} (h : ({ v with inner := b :: v.inner } : OpenScopes).Extends v₁) :
    ∃ b', v₁ = { v with inner := b' :: v.inner } := by
  obtain ⟨main, globals, inner⟩ := v
  obtain ⟨main', globals', inner'⟩ := v₁
  have hne := h.inner_ne_nil.mpr (List.cons_ne_nil _ _)
  obtain ⟨b', bs', rfl⟩ := List.exists_cons_of_ne_nil hne
  have hg : globals' = globals := h.globals (List.cons_ne_nil _ _)
  have ho : bs' = inner := h.outer
  have he := h.env
  simp only [Lexical.forget, Lexical.modify, OpenScopes.env, List.map_cons, Lexical.mk.injEq] at he
  exact ⟨b', by rw [hg, ho, he.1]⟩

end OpenScopes.Extends

section Resolve

variable {t : ScopeTable} {v : OpenScopes}

/-- Captured names cannot be assigned, so a `let` does not depend on what is captured. -/
theorem Lexical.reused?_eq (env : Lexical) (captured : List String) (name : String) :
    env.reused? name = (env.place? captured name).filter (·.storage.assignable) := by
  unfold Lexical.reused? Lexical.place?
  split
  · rfl
  · split
    · rfl
    · rfl
    · split
      · cases captured.idxOf? name <;> rfl
      · rfl

theorem ScopeTable.Shows.reusable (h : t.Shows v) (name : String) :
    ((t.lookup? name).filter (Scoping.reusable t.current.depth)).map Symbol.place =
      v.env.reused? name := by
  have hl := h.located name
  rw [Lexical.reused?_eq _ v.captured]
  cases hs : t.lookup? name with
  | none =>
    rw [hs] at hl
    cases hl with
    | nowhere hp _ =>
      rw [hp]
      cases Builtin.indexOf? name <;> rfl
  | some s =>
    rw [hs] at hl
    cases hl with
    | here hp _ hd hg hb =>
      rw [hp]
      cases hst : s.storage <;>
        simp_all [Option.filter, Scoping.reusable, Symbol.place, Storage.assignable]
    | @around _ b bs hi hf hc hbound _ hd hg hb =>
      have hp : v.env.place? v.captured name = none := by
        have hbs : ((bs.map (·.names)).any fun b => (b.find? name).isSome) = true := by
          simpa [boundIn, List.any_map, Function.comp_def] using hbound
        have hidx : b.captured.idxOf? name = none := by simpa using hc
        simp only [Lexical.place?, OpenScopes.env, hi, List.map_cons, hf, hbs, if_true,
          OpenScopes.captured, hidx, Option.map_none]
      rw [hp]
      cases hst : s.storage <;> simp_all [Option.filter, Scoping.reusable]
    | outside hp _ hst =>
      rw [hp]
      rcases hst with hst | hst <;>
        simp [Option.filter, Scoping.reusable, Symbol.place, Storage.assignable, hst]

theorem InnerShows.isEmpty_eq {fs : List FunctionScope} {bs : List OpenBody}
    (h : InnerShows fs bs) : fs.isEmpty = bs.isEmpty := by
  cases h <;> rfl

theorem ScopeTable.Shows.define (h : t.Shows v) (name : String) :
    Gives (Scoping.define name) t
      (fun s t' => s.place = (v.env.declare v.slots name).1 ∧ s.index < Storage.slotLimit ∧
        t'.Shows (v.declare name))
      (fun _ t' => t' = t ∧ v.env.reused? name = none ∧ Storage.slotLimit ≤ v.slots) := by
  have hr := h.reusable name
  have hl := h.located name
  unfold Gives
  simp only [Scoping.define, bind_apply, get_apply]
  cases hs : (t.lookup? name).filter (Scoping.reusable t.current.depth) with
  | some s =>
    rw [hs] at hr
    simp only [Option.map_some] at hr
    obtain ⟨hs', hu⟩ := Option.filter_eq_some_iff.mp hs
    rw [hs'] at hl
    simp only [pure_apply, Lexical.declare, OpenScopes.declare, ← hr]
    refine ⟨trivial, ?_, h⟩
    cases hl with
    | here _ hi _ _ _ => exact hi
    | outside _ hi _ => exact hi
    | around _ _ _ _ _ hd hg _ =>
      cases hst : s.storage <;> simp_all [Scoping.reusable]
  | none =>
    rw [hs] at hr
    simp only [Option.map_none] at hr
    have hfresh (x : Scoping Symbol)
        (hx : Gives x t (fun s t' => s.place = v.env.slot v.slots ∧
          v.slots < Storage.slotLimit ∧ t'.Shows (v.bindSlot name))
          (fun _ t' => t' = t ∧ Storage.slotLimit ≤ v.slots)) :
        Gives x t (fun s t' => s.place = (v.env.declare v.slots name).1 ∧
          s.index < Storage.slotLimit ∧ t'.Shows (v.declare name))
          (fun _ t' => t' = t ∧ v.env.reused? name = none ∧ Storage.slotLimit ≤ v.slots) := by
      refine hx.mono (fun s t' hs => ?_) fun _ _ h => ⟨h.1, hr.symm, h.2⟩
      have hi : s.index = v.slots := congrArg Place.index hs.1
      simp only [Lexical.declare, OpenScopes.declare, ← hr]
      exact ⟨hs.1, hi ▸ hs.2.1, hs.2.2⟩
    simp only [h.inner.isEmpty_eq]
    by_cases hi : v.inner = []
    · simp only [hi, List.isEmpty_nil, if_true]
      exact hfresh _ (h.defineGlobal hi name)
    · simp only [List.isEmpty_eq_false_iff.mpr hi, Bool.false_eq_true, if_false]
      exact hfresh _ (h.defineLocal hi name)

theorem idxOf?_append_self {xs : List String} {x : String} (h : x ∉ xs) :
    (xs ++ [x]).idxOf? x = some xs.length := by
  induction xs with
  | nil => simp
  | cons y ys ih =>
    simp only [List.mem_cons, not_or] at h
    simp [List.idxOf?_cons, ih h.2, Ne.symm h.1]

theorem ScopeTable.Shows.defineFree {b : OpenBody} {bs : List OpenBody} {outer : Symbol}
    {name : String} (h : t.Shows v) (hi : v.inner = b :: bs) (hf : b.names.find? name = none)
    (hc : name ∉ b.captured) (hb : boundIn bs name = true) (ho : outer.name = name) :
    Gives (Scoping.defineFree outer) t
      (fun s t' => v.env.place? (v.capture name).captured name = some s.place ∧
        s.index < Storage.slotLimit ∧ t'.Shows (v.capture name))
      (fun _ t' => t' = t ∧ Storage.slotLimit ≤ v.captured.length) := by
  obtain ⟨main, inner, nextId, globals⟩ := t
  obtain ⟨vmain, vglobals, vinner⟩ := v
  obtain rfl : vinner = b :: bs := hi
  obtain ⟨hm, hin, hg, hl, hfr⟩ := h
  cases hin with
  | @cons f fs _ _ hbody hd hin =>
    have hsize : f.free.size = b.captured.length := by
      rw [← hbody.free, List.length_map, Array.length_toList]
    unfold Gives
    simp only [Scoping.defineFree, Scoping.slot, bind_apply, get_apply, ScopeTable.current,
      List.head?_cons, Option.getD_some, hsize]
    by_cases hlt : b.captured.length < Storage.slotLimit
    · simp only [hlt, if_true, pure_apply, modify_apply]
      have hidx := idxOf?_append_self hc
      have hbs : ((bs.map (·.names)).any fun b => (b.find? name).isSome) = true := by
        simpa [boundIn, List.any_map, Function.comp_def] using hb
      refine ⟨?_, trivial, hm, .cons ?_ hd hin, hg, hl, ?_⟩
      · simp only [Lexical.place?, OpenScopes.env, List.map_cons, hf, hbs, if_true,
          OpenScopes.capture, OpenScopes.captured, hidx, Option.map_some, Symbol.place]
      · have hscopes := hbody.scopes.mono
          (fun _ _ h => h.mono (Nat.le_refl _) (List.prefix_append b.captured [name]))
          (fun _ _ h => h)
        have hroot : b.names.root.lookup name = none := by
          unfold Body.find? at hf
          exact (Option.or_eq_none_iff.mp hf).2
        exact {
          scopes := ⟨hscopes.root.insertHidden rfl (by rw [ho]; exact hroot)
            (.captured rfl rfl rfl (by rw [ho]; exact hidx) (by rw [ho]; exact hb)),
            hscopes.blocks⟩
          locals := hbody.locals
          free := by
            simp only [FunctionScope.capture, Array.toList_push, List.map_append, List.map_cons,
              List.map_nil, hbody.free, ho]
          bound := fun x hx => by
            simp only [FunctionScope.capture, Context.find?_insert, ho]
            rcases List.mem_append.mp hx with hx | hx
            · split
              · simp
              · exact hbody.bound x hx
            · simp [List.mem_singleton.mp hx]
          enclosed := fun x hx => by
            rcases List.mem_append.mp hx with hx | hx
            · exact hbody.enclosed x hx
            · exact List.mem_singleton.mp hx ▸ hb
          slots_le := hbody.slots_le
          captured_le := by simpa using Nat.succ_le_of_lt hlt
          nodup := List.nodup_append.mpr ⟨hbody.nodup, List.pairwise_singleton _ _, fun x hx y hy e =>
            hc (List.mem_singleton.mp hy ▸ e ▸ hx)⟩ }
      · rintro g hg
        rcases List.mem_cons.mp hg with rfl | hg
        · exact hfr f List.mem_cons_self
        · exact hfr g (List.mem_cons_of_mem _ hg)
    · rw [if_neg hlt, throw_apply]
      exact ⟨rfl, Nat.le_of_not_lt hlt⟩

/-- The innermost binding of the name is in a function body around the innermost one. -/
def OpenScopes.Reaches (v : OpenScopes) (name : String) : Prop :=
  ∃ b bs, v.inner = b :: bs ∧ b.names.find? name = none ∧ boundIn bs name = true

/-- A name is found at its place. One that belongs to a function body around is captured first, unless
it was before. -/
def OpenScopes.Finds (v : OpenScopes) (name : String) (s : Symbol) (t : ScopeTable) : Prop :=
  ∃ v', v.Extends v' ∧ v'.env = v.env ∧ v'.slots = v.slots ∧ t.Shows v' ∧
    v.env.place? v'.captured name = some s.place ∧ s.index < Storage.slotLimit ∧
    (v'.captured = v.captured ∨ v'.captured = v.captured ++ [name] ∧ v.Reaches name)

/-- No more names can be captured. -/
structure OpenScopes.Full (v : OpenScopes) (name : String) : Prop where
  reaches : v.Reaches name
  new : name ∉ v.captured
  length : Storage.slotLimit ≤ v.captured.length

/-- Resolving a name gives the place of its innermost binding. It fails if there is none, or if no more
names can be captured. -/
theorem ScopeTable.Shows.resolve (h : t.Shows v) (name : String) :
    Gives (Scoping.resolve name) t (v.Finds name)
      (fun e t' => t' = t ∧ (t.lookup? name = none ∧ e = .unresolved name ∨ v.Full name)) := by
  have hl := h.located name
  unfold Gives
  simp only [Scoping.resolve, bind_apply, get_apply]
  cases hs : t.lookup? name with
  | none => simp [throw_apply]
  | some s =>
    rw [hs] at hl
    have hkeep (hp : v.env.place? v.captured name = some s.place)
        (hi : s.index < Storage.slotLimit) : v.Finds name s t :=
      ⟨v, .refl v, rfl, rfl, h, hp, hi, .inl rfl⟩
    cases hl with
    | here hp hi hd hg hb =>
      cases hst : s.storage <;> simp_all [pure_apply]
    | outside hp hi hst =>
      rcases hst with hst | hst <;> simpa [hst, pure_apply] using hkeep hp hi
    | @around _ b bs hi hf hc hbound hname hd hg hb =>
      have hreaches : v.Reaches name := ⟨b, bs, hi, hf, hbound⟩
      have hcaptured : v.captured = b.captured := by rw [OpenScopes.captured, hi]
      have hfree : Gives (Scoping.defineFree s) t (v.Finds name) (fun _ t' => t' = t ∧ v.Full name) := by
        refine (h.defineFree hi hf hc hbound hname).mono ?_ ?_
        · rintro s t' ⟨hp, hindex, ht⟩
          have hinner : v.inner ≠ [] := hi ▸ List.cons_ne_nil b bs
          exact ⟨v.capture name, .capture (by simp [Lexical.binds, OpenScopes.env, hi, hf]), by simp,
            by simp, ht, hp, hindex, .inr ⟨OpenScopes.captured_capture hinner name, hreaches⟩⟩
        · rintro _ t' ⟨rfl, hfull⟩
          exact ⟨rfl, hreaches, hcaptured ▸ hc, hfull⟩
      cases hst : s.storage <;> simp_all [Gives]

theorem ScopeTable.Shows.defineBuiltin {name : String} {index : Nat} (h : t.Shows v)
    (hs : t.lookup? name = none) (hi : Builtin.indexOf? name = some index) :
    Gives (Scoping.defineBuiltin name index) t
      (fun s t' => t'.Shows v ∧ v.env.place? v.captured name = some s.place ∧
        s.index < Storage.slotLimit)
      (fun _ _ => False) := by
  have hl := h.located name
  rw [hs] at hl
  cases hl with
  | nowhere hp hf =>
    have hlt : index < Storage.slotLimit := Nat.lt_trans (Builtin.indexOf?_lt hi) (by decide)
    have hroot : v.main.root.lookup name = none := by
      unfold Body.find? at hf
      exact (Option.or_eq_none_iff.mp hf).2
    unfold Gives
    simp only [Scoping.defineBuiltin, Scoping.slot, bind_apply, hlt, if_true, pure_apply, get_apply,
      modify_apply]
    refine ⟨⟨⟨h.main.root.insertHidden rfl hroot (.builtin rfl hi), h.main.blocks⟩, h.inner,
      h.globals, h.globals_le, h.fresh⟩, ?_, trivial⟩
    simp [hp, hi, Symbol.place]

end Resolve

end StackScript
