import StackScript.Proofs.Scope.Aliasing

/-! # Captured symbols

A closure is made after its body has ended, by resolving the names that the body captured once more.
They still stand for the captured symbols: while a body is open, the scopes around it change only by
builtins, and a builtin is bound only where its name was bound nowhere.
-/

namespace StackScript

namespace FunctionScope

variable {f f' f'' : FunctionScope} {s o : Symbol} {name : String} {outer : String → Option Symbol}

/-- The captured symbols of a function body, where `outer` looks a name up around the body. -/
structure Captures (f : FunctionScope) (outer : String → Option Symbol) : Prop where
  distinct : (f.free.toList.map (·.name)).Nodup
  indexed : ∀ (name : String) (s : Symbol), f.root.find? name = some s →
    s.storage = .captured → ∃ o : Symbol, f.free[s.index]? = some o ∧ o.name = s.name
  found : ∀ o ∈ f.free, outer o.name = some o
  /-- What is captured is bound in the body, so it is not captured again. -/
  bound : ∀ o ∈ f.free, (f.root.find? o.name).isSome

/-- A change to a body that captures nothing and hides no name of its outermost context. -/
structure Rebinds (f f' : FunctionScope) : Prop where
  free : f'.free = f.free
  captured : ∀ (name : String) (s : Symbol), f'.root.find? name = some s →
    s.storage = .captured → f.root.find? name = some s
  bound : ∀ name : String, (f.root.find? name).isSome → (f'.root.find? name).isSome

namespace Rebinds

theorem of_root (hfree : f'.free = f.free) (hroot : f'.root = f.root) : f.Rebinds f' :=
  ⟨hfree, fun _ _ hs _ => hroot ▸ hs, fun _ hs => hroot ▸ hs⟩

theorem trans (h : f.Rebinds f') (h' : f'.Rebinds f'') : f.Rebinds f'' where
  free := h'.free.trans h.free
  captured name s hs hst := h.captured name s (h'.captured name s hs hst) hst
  bound name hs := h'.bound name (h.bound name hs)

theorem insertRoot (f : FunctionScope) (hs : s.storage ≠ .captured) :
    f.Rebinds (f.insertRoot s) where
  free := rfl
  captured name s' hs' hst := by
    simp only [FunctionScope.insertRoot, Context.find?_insert] at hs'
    split at hs'
    · obtain rfl := Option.some.inj hs'
      exact absurd hst hs
    · exact hs'
  bound name hname := by
    simp only [FunctionScope.insertRoot, Context.find?_insert]
    split
    · rfl
    · exact hname

theorem insert (f : FunctionScope) (hs : s.storage ≠ .captured) : f.Rebinds (f.insert s) := by
  obtain ⟨depth, root, _ | ⟨c, cs⟩, locals, free⟩ := f
  · exact insertRoot _ hs
  · exact of_root rfl rfl

end Rebinds

theorem lookup?_insertRoot_self (h : f.lookup? s.name = none) :
    (f.insertRoot s).lookup? s.name = some s := by
  obtain ⟨hblocks, -⟩ := Option.or_eq_none_iff.mp h
  simp [lookup?, insertRoot, Context.find?_insert, hblocks]

theorem lookup?_insertRoot_of_ne (h : s.name ≠ name) :
    (f.insertRoot s).lookup? name = f.lookup? name := by
  simp [lookup?, insertRoot, Context.find?_insert, h]

theorem lookup?_capture (s o : Symbol) :
    (f.capture s o).lookup? name = (f.insertRoot s).lookup? name :=
  rfl

namespace Captures

theorem empty (hroot : f.root.symbols = ∅) (hfree : f.free = #[]) : f.Captures outer where
  distinct := by simp [hfree]
  indexed := by simp [Context.find?, hroot]
  found := by simp [hfree]
  bound := by simp [hfree]

theorem mono {outer' : String → Option Symbol} (h : f.Captures outer)
    (ho : ∀ name o, outer name = some o → outer' name = some o) : f.Captures outer' :=
  { h with found := fun o hmem => ho _ o (h.found o hmem) }

theorem rebind (h : f.Captures outer) (hf : f.Rebinds f') : f'.Captures outer where
  distinct := hf.free ▸ h.distinct
  indexed name s hs hst := hf.free ▸ h.indexed name s (hf.captured name s hs hst) hst
  found := hf.free ▸ h.found
  bound o ho := hf.bound o.name (h.bound o (hf.free ▸ ho))

theorem capture (h : f.Captures outer) (hnew : f.lookup? o.name = none)
    (ho : outer o.name = some o) (hname : s.name = o.name) (hindex : s.index = f.free.size) :
    (f.capture s o).Captures outer where
  distinct := by
    have hfresh : ∀ o' ∈ f.free.toList, o'.name ≠ o.name := by
      intro o' ho' heq
      have hbound := h.bound o' (Array.mem_toList_iff.mp ho')
      rw [heq, Shows.root_of_lookup?_none hnew] at hbound
      cases hbound
    have hdistinct := h.distinct
    simp only [FunctionScope.capture, Array.toList_push, List.map_append, List.map_cons,
      List.map_nil]
    refine List.nodup_append.mpr ⟨hdistinct, by simp, ?_⟩
    intro n hn m hm
    obtain ⟨o', ho', rfl⟩ := List.mem_map.mp hn
    obtain rfl : m = o.name := by simpa using hm
    exact hfresh o' ho'
  indexed name s' hs' hst := by
    simp only [FunctionScope.capture, Context.find?_insert] at hs' ⊢
    split at hs'
    · obtain rfl := Option.some.inj hs'
      exact ⟨o, by simp [hindex], hname.symm⟩
    · obtain ⟨o', ho', hname'⟩ := h.indexed name s' hs' hst
      refine ⟨o', ?_, hname'⟩
      obtain ⟨hlt, -⟩ := Array.getElem?_eq_some_iff.mp ho'
      rw [Array.getElem?_push, if_neg (Nat.ne_of_lt hlt)]
      exact ho'
  found o' ho' := by
    rcases Array.mem_push.mp ho' with ho' | rfl
    · exact h.found o' ho'
    · exact ho
  bound o' ho' := by
    simp only [FunctionScope.capture, Context.find?_insert]
    split
    · rfl
    · next hne =>
      rcases Array.mem_push.mp ho' with ho' | rfl
      · exact h.bound o' ho'
      · simp [hname] at hne

end Captures

end FunctionScope

namespace ScopeTable

variable {t t' : ScopeTable} {r : Roster} {name : String} {f : FunctionScope}
  {fs : List FunctionScope}

/-- The scopes around a function body, `fs` the bodies among them. -/
def around (t : ScopeTable) (fs : List FunctionScope) : ScopeTable := { t with inner := fs }

theorem lookup?_cons (hi : t.inner = f :: fs) (name : String) :
    t.lookup? name = (f.lookup? name).or ((t.around fs).lookup? name) := by
  simp only [lookup?, hi, around, List.findSome?_cons]
  cases f.lookup? name <;> rfl

/-- What one operation does to a table. -/
inductive Moves (t : ScopeTable) : ScopeTable → Prop
  | unchanged : t.Moves t
  | opened {f : FunctionScope} (nextId : Nat) : f.root.symbols = ∅ → f.free = #[] →
      t.Moves { t with inner := f :: t.inner, nextId := nextId }
  | closed {f : FunctionScope} {fs : List FunctionScope} : t.inner = f :: fs →
      t.Moves { t with inner := fs }
  | rebound {f f' : FunctionScope} {fs : List FunctionScope} (nextId : Nat) : t.inner = f :: fs →
      f.Rebinds f' → t.Moves { t with inner := f' :: fs, nextId := nextId }
  | captured {f : FunctionScope} {fs : List FunctionScope} {s o : Symbol} : t.inner = f :: fs →
      f.lookup? o.name = none → (t.around fs).lookup? o.name = some o → s.name = o.name →
      s.index = f.free.size → t.Moves { t with inner := f.capture s o :: fs }
  | top {main : FunctionScope} (nextId globals : Nat) : t.inner = [] → main.free = t.main.free →
      t.Moves ⟨main, [], nextId, globals⟩
  | builtin {s : Symbol} : t.lookup? s.name = none →
      t.Moves { t with main := t.main.insertRoot s }

namespace Moves

theorem modifyCurrent {g : FunctionScope → FunctionScope} (t : ScopeTable) (nextId : Nat)
    (hg : ∀ f : FunctionScope, f.Rebinds (g f)) :
    t.Moves (({ t with nextId := nextId } : ScopeTable).modifyCurrent g) := by
  obtain ⟨main, _ | ⟨f, fs⟩, _, globals⟩ := t
  · exact .top nextId globals rfl (hg main).free
  · exact .rebound nextId rfl (hg f)

theorem insertLocal (t : ScopeTable) {s : Symbol} (hs : s.storage = .localSlot) :
    t.Moves ((t.modifyCurrent fun f => { f with locals := f.locals + 1 }).modifyCurrent
      (·.insert s)) := by
  have hst : s.storage ≠ .captured := by simp [hs]
  have hg (f : FunctionScope) :
      f.Rebinds (({ f with locals := f.locals + 1 } : FunctionScope).insert s) := by
    have hlocals : f.Rebinds { f with locals := f.locals + 1 } := .of_root rfl rfl
    exact hlocals.trans (.insert _ hst)
  have heq :
      (t.modifyCurrent fun f => { f with locals := f.locals + 1 }).modifyCurrent (·.insert s) =
        t.modifyCurrent fun f => ({ f with locals := f.locals + 1 } : FunctionScope).insert s := by
    obtain ⟨main, _ | ⟨f, fs⟩, nextId, globals⟩ := t <;> rfl
  rw [heq]
  exact modifyCurrent t t.nextId hg

theorem defineLocal (t : ScopeTable) (name : String) : t.Moves (Scoping.defineLocal name t).2 := by
  simp only [Scoping.defineLocal, Scoping.slot_apply, Scoping.bindHere, bind_apply, get_apply]
  by_cases hlt : t.current.locals < Storage.slotLimit
  · simp only [if_pos hlt]
    exact insertLocal t rfl
  · simp only [if_neg hlt]
    exact .unchanged

theorem defineGlobal (hi : t.inner = []) (name : String) :
    t.Moves (Scoping.defineGlobal name t).2 := by
  simp only [Scoping.defineGlobal, Scoping.slot_apply, Scoping.bindHere, bind_apply, get_apply]
  by_cases hlt : t.globals < Storage.slotLimit
  · simp only [if_pos hlt]
    obtain ⟨main, inner, nextId, globals⟩ := t
    obtain rfl : inner = [] := hi
    refine .top _ _ rfl (FunctionScope.Rebinds.insert main ?_).free
    simp
  · simp only [if_neg hlt]
    exact .unchanged

theorem define (t : ScopeTable) (name : String) : t.Moves (Scoping.define name t).2 := by
  simp only [Scoping.define, bind_apply, get_apply]
  cases (t.lookup? name).filter (Scoping.reusable t.current.depth) with
  | some s => exact .unchanged
  | none =>
    cases hi : t.inner with
    | nil => exact defineGlobal hi name
    | cons f fs => exact defineLocal t name

end Moves

/-! ## Resolving a name -/

theorem resolve_of_lookup? {s : Symbol} (hs : t.lookup? name = some s) :
    Scoping.resolve name t =
      if s.storage = .globalSlot ∨ s.storage = .builtin ∨ s.depth = t.current.depth then (.ok s, t)
      else Scoping.defineFree s t := by
  simp only [Scoping.resolve, bind_apply, get_apply, hs]
  by_cases hd : s.depth = t.current.depth <;> cases s.storage <;> simp [hd, pure_apply]

def freeSymbol (t : ScopeTable) (o : Symbol) : Symbol :=
  ⟨.captured, o.name, joined [t.rootPath, o.name], t.current.root.id, t.current.depth,
    t.current.free.size⟩

theorem defineFree_apply (o : Symbol) : Scoping.defineFree o t =
    if t.current.free.size < Storage.slotLimit then
      (.ok (t.freeSymbol o), t.modifyCurrent (·.capture (t.freeSymbol o) o))
    else (.error (.indexOverflow .captured o.name t.current.free.size), t) := by
  simp only [Scoping.defineFree, Scoping.slot_apply, bind_apply, get_apply]
  by_cases hlt : t.current.free.size < Storage.slotLimit
  · simp only [if_pos hlt]
    rfl
  · simp only [if_neg hlt]

theorem lookup?_of_unresolved (h : (Scoping.resolve name t).1 = .error (.unresolved name)) :
    t.lookup? name = none := by
  cases hs : t.lookup? name with
  | none => rfl
  | some s =>
    rw [resolve_of_lookup? hs, defineFree_apply] at h
    split_ifs at h
    cases h

/-- Resolving a name changes nothing, or captures a symbol that the innermost body does not bind. -/
theorem Rostered.resolve_cases (h : t.Rostered r) (name : String) :
    (Scoping.resolve name t).2 = t ∨ ∃ f fs o, t.inner = f :: fs ∧ f.lookup? name = none ∧
      (t.around fs).lookup? name = some o ∧ o.name = name ∧ Scoping.resolve name t =
        (.ok (t.freeSymbol o), { t with inner := f.capture (t.freeSymbol o) o :: fs }) := by
  cases hs : t.lookup? name with
  | none =>
    left
    simp [Scoping.resolve, bind_apply, get_apply, hs, throw_apply]
  | some o =>
    obtain ⟨hname, hplace⟩ := h.lookup? hs
    rw [resolve_of_lookup? hs, defineFree_apply]
    split_ifs with hnear hlt
    · exact .inl rfl
    · right
      obtain ⟨main, _ | ⟨f, fs⟩, nextId, globals⟩ := t
      · -- at the top level everything visible belongs to it
        exfalso
        rcases hplace with hmain | ⟨f, hf, -⟩
        · exact hnear (.inr (.inr (hmain.depth.trans h.main_depth.symm)))
        · simp at hf
      · have hnone : f.lookup? name = none := by
          cases hf : f.lookup? name with
          | none => rfl
          | some s =>
            exfalso
            rw [lookup?_cons rfl name, hf, Option.some_or] at hs
            obtain rfl := Option.some.inj hs
            have hbody := ((h.inner f List.mem_cons_self).scopes.lookup? hf).2
            exact hnear (.inr (.inr hbody.depth_eq))
        rw [lookup?_cons rfl name, hnone, Option.none_or] at hs
        exact ⟨f, fs, o, rfl, hnone, hs, hname, rfl⟩
    · exact .inl rfl

theorem Rostered.resolve_moves (h : t.Rostered r) (name : String) :
    t.Moves (Scoping.resolve name t).2 := by
  rcases h.resolve_cases name with heq | ⟨f, fs, o, hi, hnew, ho, rfl, heq⟩
  · rw [heq]
    exact .unchanged
  · rw [heq]
    refine .captured hi hnew ho rfl ?_
    simp [freeSymbol, current, hi]

/-- What was resolved once is found the next time. -/
theorem Rostered.resolve_again (h : t.Rostered r) (name : String) :
    Scoping.resolve name (Scoping.resolve name t).2 = Scoping.resolve name t := by
  rcases h.resolve_cases name with heq | ⟨f, fs, o, hi, hnew, -, rfl, heq⟩
  · rw [heq]
  · rw [heq]
    have hs : ({ t with inner := f.capture (t.freeSymbol o) o :: fs } : ScopeTable).lookup? o.name =
        some (t.freeSymbol o) := by
      rw [lookup?_cons rfl, FunctionScope.lookup?_capture]
      have hfound : (f.insertRoot (t.freeSymbol o)).lookup? o.name = some (t.freeSymbol o) :=
        FunctionScope.lookup?_insertRoot_self hnew
      rw [hfound, Option.some_or]
    rw [resolve_of_lookup? hs, if_pos]
    right; right
    simp [freeSymbol, current, hi, FunctionScope.capture]

theorem defineBuiltin_apply (index : Nat) : Scoping.defineBuiltin name index t =
    if index < Storage.slotLimit then
      let s : Symbol := ⟨.builtin, name, joined [t.main.root.name, name], 0, 0, index⟩
      (.ok s, { t with main := t.main.insertRoot s })
    else (.error (.indexOverflow .builtin name index), t) := by
  simp only [Scoping.defineBuiltin, Scoping.slot_apply, bind_apply]
  by_cases hlt : index < Storage.slotLimit
  · simp only [if_pos hlt]
    rfl
  · simp only [if_neg hlt]

theorem defineBuiltin_moves (index : Nat) (h : t.lookup? name = none) :
    t.Moves (Scoping.defineBuiltin name index t).2 := by
  rw [defineBuiltin_apply]
  split_ifs
  · exact .builtin h
  · exact .unchanged

theorem resolve_builtin {index : Nat} {s : Symbol} (h : t.lookup? name = none)
    (hs : Scoping.defineBuiltin name index t = (.ok s, t')) :
    Scoping.resolve name t' = (.ok s, t') := by
  rw [defineBuiltin_apply] at hs
  split_ifs at hs
  · cases hs
    obtain ⟨hinner, hmain⟩ := Option.or_eq_none_iff.mp h
    refine (resolve_of_lookup? ?_).trans (if_pos (.inr (.inl rfl)))
    unfold lookup?
    rw [hinner, Option.none_or]
    exact FunctionScope.lookup?_insertRoot_self hmain
  · cases hs

/-! ## Operations one after the other -/

/-- The captured symbols of a table: at the top level none, and those of a function body are what
their names stand for around it. -/
structure Captures (t : ScopeTable) : Prop where
  top : t.main.free = #[]
  bodies : ∀ nested f fs, t.inner = nested ++ f :: fs → f.Captures (t.around fs).lookup?

namespace Captures

theorem initial : ({} : ScopeTable).Captures where
  top := rfl
  bodies nested f fs h := by simp at h

theorem replace (h : t.Captures) (hmain : t'.main = t.main) (hi : t'.inner = f :: fs)
    (hsuffix : fs <:+ t.inner) (hf : f.Captures (t.around fs).lookup?) : t'.Captures where
  top := hmain ▸ h.top
  bodies nested g gs hg := by
    have hlookup (gs : List FunctionScope) : (t'.around gs).lookup? = (t.around gs).lookup? := by
      funext name
      simp [lookup?, around, hmain]
    rw [hlookup]
    rw [hi] at hg
    rcases List.cons_eq_append_iff.mp hg with ⟨rfl, hcons⟩ | ⟨nested', rfl, rfl⟩
    · obtain ⟨rfl, rfl⟩ := List.cons.inj hcons
      exact hf
    · obtain ⟨before, hbefore⟩ := hsuffix
      exact h.bodies (before ++ nested') g gs (by simp [← hbefore])

theorem move (h : t.Captures) (ht : t.Moves t') : t'.Captures := by
  cases ht with
  | unchanged => exact h
  | opened nextId hroot hfree => exact h.replace rfl rfl (List.suffix_refl _) (.empty hroot hfree)
  | @closed f fs hi =>
    refine ⟨h.top, fun nested g gs hg => h.bodies (f :: nested) g gs ?_⟩
    rw [hi, List.cons_append]
    exact congrArg _ hg
  | rebound nextId hi hf =>
    exact h.replace rfl rfl ⟨[_], hi.symm⟩ ((h.bodies [] _ _ hi).rebind hf)
  | captured hi hnew ho hname hindex =>
    exact h.replace rfl rfl ⟨[_], hi.symm⟩ ((h.bodies [] _ _ hi).capture hnew ho hname hindex)
  | top nextId globals hi hfree => exact ⟨hfree.trans h.top, fun nested f fs hf => by simp at hf⟩
  | @builtin s hnew =>
    refine ⟨h.top, fun nested f fs hi => (h.bodies nested f fs hi).mono fun name o ho => ?_⟩
    -- a name that is bound around the body is not the builtin's
    have hname : s.name ≠ name := by
      rintro rfl
      obtain ⟨hinner, hmain⟩ := Option.or_eq_none_iff.mp hnew
      have hfs : fs.findSome? (·.lookup? s.name) = none := by
        rw [List.findSome?_eq_none_iff] at hinner ⊢
        intro g hg
        refine hinner g ?_
        rw [show t.inner = nested ++ f :: fs from hi]
        simp [hg]
      simp [lookup?, around, hfs, hmain] at ho
    unfold lookup? at ho ⊢
    simpa only [around, FunctionScope.lookup?_insertRoot_of_ne hname] using ho

end Captures

theorem Rostered.apply_moves (h : t.Rostered r) (op : Op) (hop : op.Allowed t) :
    t.Moves (op.apply t).2 := by
  have hresult (x : Except SymbolError Symbol × ScopeTable) : (Answer.ofResult x).2 = x.2 := by
    rcases x with ⟨e | s, t'⟩ <;> rfl
  cases op with
  | enterFunction name => exact .opened _ rfl rfl
  | leaveFunction =>
    obtain ⟨main, _ | ⟨f, fs⟩, nextId, globals⟩ := t
    · exact .unchanged
    · exact .closed rfl
  | enterBlock kind => exact .modifyCurrent t _ fun f => .of_root rfl rfl
  | leaveBlock => exact .modifyCurrent t t.nextId fun f => .of_root rfl rfl
  | self name => exact .modifyCurrent t t.nextId fun f => .insertRoot f (by simp)
  | define name =>
    simp only [Op.apply, hresult]
    exact .define t name
  | parameter name =>
    simp only [Op.apply, hresult]
    exact .defineLocal t name
  | resolve name =>
    simp only [Op.apply, hresult]
    exact h.resolve_moves name
  | builtin name index =>
    simp only [Op.apply, hresult]
    exact defineBuiltin_moves index (lookup?_of_unresolved hop)

theorem Reached.captures {history : History} (h : Reached t history) : t.Captures := by
  induction h with
  | start => exact .initial
  | step op ht hop ih =>
    obtain ⟨r, hr⟩ := ht.recorded
    exact ih.move (hr.rostered.apply_moves op hop)

/-- The captured symbols of a table, and what resolving a name does to it. -/
structure Recaptures (t : ScopeTable) : Prop where
  captures : t.Captures
  /-- A function body that is left hands over its captured symbols, and the scopes it leaves find
them. -/
  left : ∀ f fs, t.inner = f :: fs → t.leaveFunction.1.free = f.free ∧
    ∀ o ∈ t.leaveFunction.1.free, t.leaveFunction.2.lookup? o.name = some o
  again : ∀ name, Scoping.resolve name (Scoping.resolve name t).2 = Scoping.resolve name t
  builtin : ∀ name index s t', Op.Allowed (.builtin name index) t →
    Scoping.defineBuiltin name index t = (.ok s, t') → Scoping.resolve name t' = (.ok s, t')

/-- Whatever the operations that led to a table, the symbols that its bodies captured are what their
names stand for around them. -/
theorem Reached.recaptures {history : History} (h : Reached t history) : t.Recaptures where
  captures := h.captures
  left f fs hi := by
    have hleave : t.leaveFunction = (⟨f.locals, f.free⟩, t.around fs) := by
      simp [leaveFunction, hi, around]
    rw [hleave]
    exact ⟨rfl, (h.captures.bodies [] f fs hi).found⟩
  again name := by
    obtain ⟨r, hr⟩ := h.recorded
    exact hr.rostered.resolve_again name
  builtin name index s t' hop hs := resolve_builtin (lookup?_of_unresolved hop) hs

/-- A function in a function captures the name of the outer one. -/
theorem recaptures_outer_name : ∃ t history, Reached t history ∧ t.Recaptures ∧
    t.inner.map (·.free.toList.map (·.name)) = [["f"], []] ∧
    history.map (·.1) = [.enterFunction (some "f"), .self "f", .enterFunction none, .resolve "f",
      .enterBlock .cond] := by
  have h₁ := (Reached.start.step (.enterFunction (some "f")) (by decide)).step (.self "f") trivial
  have h₂ := (h₁.step (.enterFunction none) (by decide)).step (.resolve "f") trivial
  have h₃ := h₂.step (.enterBlock .cond) (by decide +kernel)
  exact ⟨_, _, h₃, h₃.recaptures, by decide +kernel, rfl⟩

end ScopeTable

end StackScript
