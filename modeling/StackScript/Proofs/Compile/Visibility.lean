import StackScript.Proofs.Compile.Operands
import StackScript.Proofs.Compile.Validity

/-! # Visible names and scopes

Where a name is bound follows from the environment that the scopes of the compiler show. Every step
that binds a name, or that enters a block or a function, does the same to both.
-/

namespace StackScript

/-- The class of the storage of a name by where it is bound; what is not bound can be a builtin. -/
def Origin.storage : Option Origin → Storage
  | some .topLevel => .globalSlot
  | some .sameBody => .localSlot
  | some .outerBody => .captured
  | some .itself => .self
  | none => .builtin

namespace Lexical

variable {env : Lexical} {name : String}

def topLevel? (env : Lexical) (name : String) : Option Origin :=
  match env.main.find? name with
  | some (.slot _) => some .topLevel
  | _ => none

/-- Where the innermost binding of a name is. -/
def origin? (env : Lexical) (name : String) : Option Origin :=
  match env.inner with
  | [] => env.topLevel? name
  | body :: outer =>
    match body.find? name with
    | some (.slot _) => some .sameBody
    | some .self => some .itself
    | none =>
      if outer.any fun b => (b.find? name).isSome then some .outerBody else env.topLevel? name

theorem origin?_bind (env : Lexical) (name other : String) (index : Nat) :
    (env.modify (·.bind name (.slot index))).origin? other =
      if other = name then some (if env.inner.isEmpty then .topLevel else .sameBody)
      else env.origin? other := by
  by_cases h : other = name
  · obtain ⟨main, _ | ⟨b, bs⟩⟩ := env <;>
      simp [modify, origin?, topLevel?, Body.find?_bind, h]
  · obtain ⟨main, _ | ⟨b, bs⟩⟩ := env <;>
      simp [modify, origin?, topLevel?, Body.find?_bind, h]

theorem origin?_bindSelf (env : Lexical) (h : env.inner ≠ []) (name other : String) :
    (env.modify (·.bind name .self)).origin? other =
      if other = name then some .itself else env.origin? other := by
  obtain ⟨main, _ | ⟨b, bs⟩⟩ := env
  · exact absurd rfl h
  · by_cases h : other = name <;> simp [modify, origin?, topLevel?, Body.find?_bind, h]

theorem storage_of_outside? {p : Place} (h : env.outside? name = some p) :
    p.storage = Origin.storage (env.topLevel? name) ∧
      (env.topLevel? name = none → (Builtin.indexOf? name).isSome) := by
  unfold outside? at h
  unfold topLevel?
  cases hm : env.main.find? name with
  | none =>
    rw [hm] at h
    obtain ⟨i, hi, rfl⟩ := Option.map_eq_some_iff.mp h
    exact ⟨rfl, fun _ => by simp [hi]⟩
  | some x =>
    rw [hm] at h
    cases x with
    | slot i =>
      cases h
      exact ⟨rfl, nofun⟩
    | self => cases h

theorem storage_of_place? {captured : List String} {p : Place}
    (h : env.place? captured name = some p) :
    p.storage = Origin.storage (env.origin? name) ∧
      (env.origin? name = none → (Builtin.indexOf? name).isSome) := by
  obtain ⟨main, _ | ⟨b, bs⟩⟩ := env
  · exact storage_of_outside? h
  · unfold place? at h
    unfold origin?
    dsimp only at h ⊢
    cases hb : b.find? name with
    | some x =>
      rw [hb] at h
      cases x <;> cases h <;> exact ⟨rfl, nofun⟩
    | none =>
      rw [hb] at h
      dsimp only at h ⊢
      split at h
      · next hany =>
        obtain ⟨i, -, rfl⟩ := Option.map_eq_some_iff.mp h
        rw [if_pos hany]
        exact ⟨rfl, nofun⟩
      · next hany =>
        rw [if_neg hany]
        exact storage_of_outside? h

theorem exists_outside? {o : Origin} (h : env.topLevel? name = some o) :
    ∃ p, env.outside? name = some p := by
  unfold topLevel? at h
  split at h
  · next i hm => exact ⟨⟨.globalSlot, i⟩, by simp [outside?, hm]⟩
  · cases h

theorem exists_place? {o : Origin} (h : env.origin? name = some o) :
    ∃ p, env.place? [name] name = some p := by
  obtain ⟨main, _ | ⟨b, bs⟩⟩ := env
  · exact exists_outside? h
  · unfold origin? at h
    unfold place?
    dsimp only at h ⊢
    cases hb : b.find? name with
    | some x => cases x <;> exact ⟨_, rfl⟩
    | none =>
      rw [hb] at h
      dsimp only at h ⊢
      split at h
      · next hany =>
        rw [if_pos hany]
        exact ⟨⟨.captured, 0⟩, by simp [List.idxOf?_cons]⟩
      · next hany =>
        rw [if_neg hany]
        exact exists_outside? h

theorem origin?_of_place? (h : ∀ captured, env.place? captured name =
    (Builtin.indexOf? name).map fun i => ⟨.builtin, i⟩) : env.origin? name = none := by
  cases ho : env.origin? name with
  | none => rfl
  | some o =>
    obtain ⟨p, hp⟩ := exists_place? ho
    have hstorage := (storage_of_place? hp).1
    rw [h] at hp
    obtain ⟨i, -, rfl⟩ := Option.map_eq_some_iff.mp hp
    rw [ho] at hstorage
    cases o <;> cases hstorage

theorem origin?_of_enclosed (h : env.enclosed name = true) : (env.origin? name).isSome = true := by
  obtain ⟨main, _ | ⟨b, bs⟩⟩ := env
  · cases h
  · simp only [enclosed, List.any_cons, Bool.or_eq_true] at h
    unfold origin?
    dsimp only
    cases hb : b.find? name with
    | some x => cases x <;> rfl
    | none =>
      rw [hb] at h
      rw [if_pos (h.resolve_left (by simp))]
      rfl

end Lexical

/-- The names that are visible are those that the environment binds. -/
structure Visible.Agrees (γ : Visible) (env : Lexical) : Prop where
  inFunction : γ.inFunction = !env.inner.isEmpty
  origin : ∀ name, γ.origin name = env.origin? name

namespace Visible.Agrees

variable {γ : Visible} {env : Lexical} {v : OpenScopes} {name : String}

theorem initial : Visible.Agrees {} {} := ⟨rfl, fun _ => rfl⟩

theorem bindSlot (h : γ.Agrees v.env) (name : String) :
    (γ.bind name (if γ.inFunction then .sameBody else .topLevel)).Agrees (v.bindSlot name).env where
  inFunction := by
    rw [OpenScopes.bindSlot, OpenScopes.env_modify, OpenScopes.env_take]
    have hin := h.inFunction
    obtain ⟨main, globals, _ | ⟨b, bs⟩⟩ := v <;> exact hin
  origin other := by
    rw [OpenScopes.bindSlot, OpenScopes.env_modify, OpenScopes.env_take, Lexical.origin?_bind,
      ← h.origin other]
    simp only [Visible.bind, h.inFunction]
    cases v.env.inner.isEmpty <;> rfl

theorem assigns_eq (h : γ.Agrees env) (name : String) :
    γ.assigns name = (env.reused? name).isSome := by
  rw [Visible.assigns, h.origin, Lexical.reused?_eq env [name]]
  cases hp : env.place? [name] name with
  | none =>
    cases ho : env.origin? name with
    | none => rfl
    | some o =>
      obtain ⟨p, hp'⟩ := Lexical.exists_place? ho
      rw [hp] at hp'
      cases hp'
  | some p =>
    have hstorage := (Lexical.storage_of_place? hp).1
    generalize env.origin? name = origin at hstorage ⊢
    rcases origin with _ | _ | _ | _ | _ <;>
      simp [Option.filter, hstorage, Origin.storage, Storage.assignable]

theorem declare (h : γ.Agrees v.env) (name : String) :
    (γ.declare name).Agrees (v.declare name).env := by
  unfold Visible.declare OpenScopes.declare
  rw [h.assigns_eq name]
  cases v.env.reused? name with
  | some p => exact h
  | none => exact h.bindSlot name

theorem enterBlock (h : γ.Agrees v.env) : γ.Agrees (v.modify (·.enterBlock)).env where
  inFunction := by
    have hin := h.inFunction
    obtain ⟨main, globals, _ | ⟨b, bs⟩⟩ := v <;> exact hin
  origin name := by
    rw [h.origin]
    obtain ⟨main, globals, _ | ⟨b, bs⟩⟩ := v <;>
      simp [OpenScopes.env, OpenScopes.modify, Lexical.origin?, Lexical.topLevel?,
        Body.find?_enterBlock]

theorem enclose (h : γ.Agrees v.env) : γ.enclose.Agrees v.enterFunction.env where
  inFunction := rfl
  origin name := by
    simp only [Visible.enclose, h.origin]
    have htop :
        ((v.env.topLevel? name).map fun o => if o = .topLevel then .topLevel else .outerBody) =
          v.env.topLevel? name := by
      unfold Lexical.topLevel?
      split <;> rfl
    obtain ⟨main, globals, _ | ⟨b, bs⟩⟩ := v
    · exact htop
    · have hempty : ({} : Body).find? name = none := rfl
      simp only [OpenScopes.env, OpenScopes.enterFunction, Lexical.origin?, List.map_cons, hempty,
        List.any_cons]
      cases hb : b.names.find? name with
      | some x => cases x <;> rfl
      | none =>
        cases (bs.map (·.names)).any fun b => (b.find? name).isSome with
        | true => rfl
        | false => exact htop

theorem bindSelf (h : γ.Agrees v.enterFunction.env) (name : String) :
    (γ.bind name .itself).Agrees (v.enterFunction.modify (·.bind name .self)).env where
  inFunction := h.inFunction
  origin other := by
    have hinner : v.enterFunction.env.inner ≠ [] := List.cons_ne_nil _ _
    rw [OpenScopes.env_modify, Lexical.origin?_bindSelf _ hinner, ← h.origin other]
    rfl

theorem resolves_of_enclosed (h : γ.Agrees env) (hn : env.enclosed name = true) :
    γ.resolves name = true := by
  rw [Visible.resolves, h.origin, Lexical.origin?_of_enclosed hn, Bool.true_or]

end Visible.Agrees

end StackScript
