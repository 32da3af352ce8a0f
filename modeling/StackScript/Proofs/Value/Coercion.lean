import StackScript.Value.Coercion

/-! # Coercion is symmetric

Which operand is promoted depends on the ranks alone, and not on which of the two stands on the
left. Operands that have been brought to one kind stay as they are.
-/

namespace StackScript

variable {a b x y : Value} {k target : Kind} {l r n : Nat}

theorem Kind.rank?_inj (hk : k.rank? = some n) (ht : target.rank? = some n) : k = target := by
  cases k <;> cases hk <;> cases target <;> first | rfl | cases ht

namespace Value

theorem exists_promote? (ha : a.kind.rank? = some l) (ht : target.rank? = some r) (h : l < r) :
    ∃ x, a.promote? target = some x := by
  cases a <;> cases ha <;> cases target <;> cases ht <;>
    first | exact ⟨_, rfl⟩ | exact absurd h (by decide)

theorem kind_promote? (h : a.promote? target = some x) : x.kind = target := by
  unfold promote? at h
  split at h <;> cases h <;> rfl

/-- The pair is `a` and `b` brought to one kind: they have one already, or one of them is promoted to
the kind of the other, which ranks higher. -/
inductive Unified (a b : Value) : Value → Value → Prop
  | kept : a.kind = b.kind → Unified a b a b
  | left {l r : Nat} {x : Value} : a.kind.rank? = some l → b.kind.rank? = some r → l < r →
      a.promote? b.kind = some x → Unified a b x b
  | right {l r : Nat} {y : Value} : a.kind.rank? = some l → b.kind.rank? = some r → r < l →
      b.promote? a.kind = some y → Unified a b a y

/-- The kinds differ, and one of them never coerces. -/
def Incompatible (a b : Value) : Prop :=
  a.kind ≠ b.kind ∧ (a.kind.rank? = none ∨ b.kind.rank? = none)

theorem Incompatible.symm (h : a.Incompatible b) : b.Incompatible a := ⟨h.1.symm, h.2.symm⟩

theorem unified_or_incompatible (a b : Value) : (∃ x y, a.Unified b x y) ∨ a.Incompatible b := by
  by_cases hkind : a.kind = b.kind
  · exact .inl ⟨a, b, .kept hkind⟩
  · cases ha : a.kind.rank? with
    | none => exact .inr ⟨hkind, .inl ha⟩
    | some l =>
      cases hb : b.kind.rank? with
      | none => exact .inr ⟨hkind, .inr hb⟩
      | some r =>
        rcases Nat.lt_trichotomy l r with hlt | rfl | hgt
        · obtain ⟨x, hx⟩ := exists_promote? ha hb hlt
          exact .inl ⟨x, b, .left ha hb hlt hx⟩
        · exact absurd (Kind.rank?_inj ha hb) hkind
        · obtain ⟨y, hy⟩ := exists_promote? hb ha hgt
          exact .inl ⟨a, y, .right ha hb hgt hy⟩

namespace Unified

theorem symm (h : a.Unified b x y) : b.Unified a y x := by
  cases h with
  | kept hkind => exact .kept hkind.symm
  | left ha hb hlt hx => exact .right hb ha hlt hx
  | right ha hb hgt hy => exact .left hb ha hgt hy

theorem kind_eq (h : a.Unified b x y) : x.kind = y.kind := by
  cases h with
  | kept hkind => exact hkind
  | left _ _ _ hx => exact kind_promote? hx
  | right _ _ _ hy => exact (kind_promote? hy).symm

theorem untouched (h : a.Unified b x y) (hkind : a.kind = b.kind) : x = a ∧ y = b := by
  cases h with
  | kept => exact ⟨rfl, rfl⟩
  | left ha hb hlt _ =>
    rw [hkind, hb] at ha
    cases ha
    exact absurd hlt (Nat.lt_irrefl _)
  | right ha hb hgt _ =>
    rw [hkind, hb] at ha
    cases ha
    exact absurd hgt (Nat.lt_irrefl _)

theorem rank?_eq (h : a.Unified b x y) (hkind : a.kind ≠ b.kind) : ∃ l r,
    a.kind.rank? = some l ∧ b.kind.rank? = some r ∧ x.kind.rank? = some (max l r) := by
  cases h with
  | kept h => exact absurd h hkind
  | left ha hb hlt hx =>
    refine ⟨_, _, ha, hb, ?_⟩
    rw [kind_promote? hx, hb, Nat.max_eq_right (Nat.le_of_lt hlt)]
  | right ha hb hgt hy =>
    refine ⟨_, _, ha, hb, ?_⟩
    rw [ha, Nat.max_eq_left (Nat.le_of_lt hgt)]

theorem coerce?_eq (h : a.Unified b x y) : a.coerce? b = some (x, y) := by
  by_cases hkind : a.kind = b.kind
  · obtain ⟨rfl, rfl⟩ := h.untouched hkind
    exact if_pos hkind
  · rw [coerce?, if_neg hkind]
    cases h with
    | kept h => exact absurd h hkind
    | left ha hb hlt hx => simp only [ha, hb, if_pos hlt, hx, Option.map_some]
    | right ha hb hgt hy => simp only [ha, hb, if_neg (Nat.lt_asymm hgt), hy, Option.map_some]

end Unified

theorem Incompatible.coerce?_eq (h : a.Incompatible b) : a.coerce? b = none := by
  obtain ⟨hkind, ha | hb⟩ := h
  · rw [coerce?, if_neg hkind, ha]
  · rw [coerce?, if_neg hkind, hb]
    cases a.kind.rank? <;> rfl

theorem coerce?_eq_some_iff : a.coerce? b = some (x, y) ↔ a.Unified b x y := by
  refine ⟨fun h => ?_, Unified.coerce?_eq⟩
  rcases unified_or_incompatible a b with ⟨x', y', hpair⟩ | hnone
  · rw [hpair.coerce?_eq] at h
    cases h
    exact hpair
  · rw [hnone.coerce?_eq] at h
    cases h

theorem coerce?_eq_none_iff : a.coerce? b = none ↔ a.Incompatible b := by
  refine ⟨fun h => ?_, Incompatible.coerce?_eq⟩
  rcases unified_or_incompatible a b with ⟨x', y', hpair⟩ | hnone
  · rw [hpair.coerce?_eq] at h
    cases h
  · exact hnone

theorem coerce?_swap (a b : Value) : b.coerce? a = (a.coerce? b).map Prod.swap := by
  rcases unified_or_incompatible a b with ⟨x, y, hpair⟩ | hnone
  · rw [hpair.coerce?_eq, hpair.symm.coerce?_eq, Option.map_some, Prod.swap_prod_mk]
  · rw [hnone.coerce?_eq, hnone.symm.coerce?_eq, Option.map_none]

/-- What is true of the pair that coercion makes of `a` and `b`. -/
structure Coerced (a b x y : Value) : Prop where
  kind : x.kind = y.kind
  untouched : a.kind = b.kind → x = a ∧ y = b
  higher : a.kind ≠ b.kind → ∃ l r,
    a.kind.rank? = some l ∧ b.kind.rank? = some r ∧ x.kind.rank? = some (max l r)
  again : x.coerce? y = some (x, y)
  swapped : b.coerce? a = some (y, x)

theorem coerced (h : a.coerce? b = some (x, y)) : a.Coerced b x y :=
  have hpair := coerce?_eq_some_iff.mp h
  ⟨hpair.kind_eq, hpair.untouched, hpair.rank?_eq, if_pos hpair.kind_eq, hpair.symm.coerce?_eq⟩

end Value

end StackScript
