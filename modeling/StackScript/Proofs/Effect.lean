/-! # Steps with a state and an error

Compiling, scoping and running are steps that change a state and may fail. `Gives` says what a step
leads to from a given state, with its result or with its error.
-/

namespace StackScript

variable {ε σ α β : Type}

theorem eq_ok_of_toOption {r : Except ε α} {a : α} (h : r.toOption = some a) : r = .ok a := by
  cases r with
  | error e => cases h
  | ok a' => exact congrArg _ (Option.some.inj h)

theorem bind_apply (x : ExceptT ε (StateM σ) α) (f : α → ExceptT ε (StateM σ) β) (s : σ) :
    (x >>= f) s = match x s with
      | (.ok a, s') => f a s'
      | (.error e, s') => (.error e, s') := by
  change (match x s with | (r, s') => ExceptT.bindCont f r s') = _
  rcases x s with ⟨_ | _, _⟩ <;> rfl

theorem bind_eq_ok {x : ExceptT ε (StateM σ) α} {f : α → ExceptT ε (StateM σ) β} {s s' : σ} {b : β} :
    (x >>= f) s = (.ok b, s') ↔ ∃ a s₁, x s = (.ok a, s₁) ∧ f a s₁ = (.ok b, s') := by
  rw [bind_apply]
  constructor
  · intro h
    rcases hx : x s with ⟨e | a, s₁⟩ <;> rw [hx] at h
    · cases h
    · exact ⟨a, s₁, rfl, h⟩
  · rintro ⟨a, s₁, hx, h⟩
    rw [hx]
    exact h

theorem pure_apply (a : α) (s : σ) : (pure a : ExceptT ε (StateM σ) α) s = (.ok a, s) := rfl

theorem throw_apply (e : ε) (s : σ) : (throw e : ExceptT ε (StateM σ) α) s = (.error e, s) := rfl

theorem get_apply (s : σ) : (get : ExceptT ε (StateM σ) σ) s = (.ok s, s) := rfl

theorem modify_apply (f : σ → σ) (s : σ) :
    (modify f : ExceptT ε (StateM σ) PUnit) s = (.ok ⟨⟩, f s) := rfl

theorem modifyGet_apply (f : σ → α × σ) (s : σ) :
    (modifyGet f : ExceptT ε (StateM σ) α) s = (.ok (f s).1, (f s).2) := rfl

theorem map_apply (f : α → β) (x : ExceptT ε (StateM σ) α) (s : σ) :
    (f <$> x) s = match x s with
      | (.ok a, s') => (.ok (f a), s')
      | (.error e, s') => (.error e, s') := by
  rcases hx : x s with ⟨_ | _, _⟩ <;>
    simp only [Functor.map, ExceptT.map, ExceptT.mk, bind, StateT.bind, hx] <;> rfl

theorem discard_apply (x : ExceptT ε (StateM σ) α) (s : σ) :
    (discard x) s = match x s with
      | (.ok _, s') => (.ok ⟨⟩, s')
      | (.error e, s') => (.error e, s') :=
  map_apply _ x s

/-- From `s` the step ends with a result in `Q` or with an error in `E`. -/
def Gives (x : ExceptT ε (StateM σ) α) (s : σ) (Q : α → σ → Prop) (E : ε → σ → Prop) : Prop :=
  match x s with
  | (.ok a, s') => Q a s'
  | (.error e, s') => E e s'

namespace Gives

variable {x : ExceptT ε (StateM σ) α} {f : α → ExceptT ε (StateM σ) β} {s : σ}
  {Q Q' : α → σ → Prop} {R : β → σ → Prop} {E F : ε → σ → Prop}

theorem bind (h : Gives x s Q F) (hE : ∀ e s', F e s' → E e s')
    (hf : ∀ a s', Q a s' → Gives (f a) s' R E) : Gives (x >>= f) s R E := by
  unfold Gives at h ⊢
  rw [bind_apply]
  rcases hx : x s with ⟨e | a, s'⟩ <;> rw [hx] at h
  · exact hE e s' h
  · exact hf a s' h

theorem reading {a : α} (hx : x s = (.ok a, s)) (h : Gives (f a) s R E) :
    Gives (x >>= f) s R E := by
  unfold Gives
  rw [bind_apply, hx]
  exact h

theorem mono (h : Gives x s Q E) (hQ : ∀ a s', Q a s' → Q' a s')
    (hE : ∀ e s', E e s' → F e s') : Gives x s Q' F := by
  unfold Gives at h ⊢
  rcases hx : x s with ⟨e | a, s'⟩ <;> rw [hx] at h
  · exact hE e s' h
  · exact hQ a s' h

theorem any (x : ExceptT ε (StateM σ) α) (s : σ) : Gives x s (fun _ _ => True) fun _ _ => True := by
  unfold Gives
  rcases x s with ⟨_ | _, _⟩ <;> trivial

theorem throw {e : ε} (h : E e s) : Gives (throw e) s Q E := h

theorem discard {Q : PUnit → σ → Prop} (h : Gives x s (fun _ s' => Q ⟨⟩ s') E) :
    Gives (discard x) s Q E := by
  unfold Gives at h ⊢
  rw [discard_apply]
  rcases hx : x s with ⟨e | a, s'⟩ <;> rw [hx] at h <;> exact h

theorem map (h : Gives x s Q E) (g : α → β) :
    Gives (g <$> x) s (fun b s' => ∃ a, b = g a ∧ Q a s') E := by
  unfold Gives at h ⊢
  rw [map_apply]
  rcases hx : x s with ⟨e | a, s'⟩ <;> rw [hx] at h
  · exact h
  · exact ⟨a, rfl, h⟩

theorem discarded (h : Gives x s Q E) : Gives (Functor.discard x) s (fun _ s' => ∃ a, Q a s') E :=
  discard (h.mono (fun a _ ha => ⟨a, ha⟩) fun _ _ he => he)

theorem of_ok {a : α} {s' : σ} (h : Gives x s Q E) (hx : x s = (.ok a, s')) : Q a s' := by
  unfold Gives at h; rwa [hx] at h

theorem of_error {e : ε} {s' : σ} (h : Gives x s Q E) (hx : x s = (.error e, s')) : E e s' := by
  unfold Gives at h; rwa [hx] at h

end Gives

section Keeps

variable {I : σ → Prop} {x : ExceptT ε (StateM σ) α} {f : α → ExceptT ε (StateM σ) β}

/-- A step keeps an invariant, also when it fails. -/
def Keeps (I : σ → Prop) (x : ExceptT ε (StateM σ) α) : Prop :=
  ∀ s, I s → Gives x s (fun _ s' => I s') (fun _ s' => I s')

namespace Keeps

theorem bind (h : Keeps I x) (hf : ∀ a, Keeps I (f a)) : Keeps I (x >>= f) :=
  fun s hs => (h s hs).bind (fun _ _ he => he) fun a s' hs' => hf a s' hs'

theorem pure (a : α) : Keeps I (pure a : ExceptT ε (StateM σ) α) := fun _ hs => hs

theorem throw (e : ε) : Keeps I (throw e : ExceptT ε (StateM σ) α) := fun _ hs => hs

theorem get : Keeps I (get : ExceptT ε (StateM σ) σ) := fun _ hs => hs

theorem modify {g : σ → σ} (h : ∀ s, I s → I (g s)) :
    Keeps I (modify g : ExceptT ε (StateM σ) PUnit) := h

theorem discard (h : Keeps I x) : Keeps I (discard x) := fun s hs => (h s hs).discard

theorem ite {c : Prop} [Decidable c] {y : ExceptT ε (StateM σ) α} (h : Keeps I x) (h' : Keeps I y) :
    Keeps I (if c then x else y) := by
  split
  · exact h
  · exact h'

end Keeps

end Keeps

end StackScript
