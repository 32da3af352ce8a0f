import StackScript.Proofs.Decimal.Order
import StackScript.Proofs.Value.Coercion
import StackScript.Proofs.Value.Hashes

/-! # Comparison is symmetric

Equality does not depend on the order of its operands, however they are nested, and each comparison
with its operands swapped is the opposite one. What can be compared one way can be compared the other
way.
-/

namespace StackScript

namespace Key

theorem equals_comm (j k : Key) : j.equals k = k.equals j := by
  cases j <;> cases k <;> first | exact BEq.comm | rfl

theorem order_beq_comm (j k : Key) : (j.order k == .eq) = (k.order j == .eq) := by
  rw [Bool.eq_iff_iff, beq_iff_eq, beq_iff_eq]
  exact ⟨order_eq_symm, order_eq_symm⟩

end Key

namespace Value

mutual

theorem equals_comm : (a b : Value) → a.equals b = b.equals a
  | .null, b | .bool _, b | .int _, b | .decimal _, b | .str _, b | .function _, b
  | .builtin _, b => by cases b <;> first | exact BEq.comm | rfl
  | .error s p, b => by
    cases b with
    | error t q => rw [equals, equals, BEq.comm (a := s), BEq.comm (a := p)]
    | _ => rfl
  | .array s as, b => by
    cases b with
    | array t bs => rw [equals, equals, itemsEqual_comm as bs, BEq.comm]
    | _ => rfl
  | .hash s as, b => by
    cases b with
    | hash t bs => rw [equals, equals, entriesEqual_comm as bs, BEq.comm]
    | _ => rfl
  | .closure s f as, b => by
    cases b with
    | closure t g bs =>
      rw [equals, equals, itemsEqual_comm as bs, BEq.comm (a := s), BEq.comm (a := f)]
    | _ => rfl

theorem itemsEqual_comm : (as bs : List Value) → itemsEqual as bs = itemsEqual bs as
  | [], bs => by cases bs <;> rfl
  | a :: as, bs => by
    cases bs with
    | nil => rfl
    | cons b bs => rw [itemsEqual, itemsEqual, equals_comm a b, itemsEqual_comm as bs]

theorem entriesEqual_comm : (as bs : List (Key × Value)) → entriesEqual as bs = entriesEqual bs as
  | [], bs => by cases bs <;> rfl
  | (j, a) :: as, bs => by
    cases bs with
    | nil => rfl
    | cons e bs =>
      obtain ⟨k, b⟩ := e
      rw [entriesEqual, entriesEqual, Key.order_beq_comm, Key.equals_comm j k, equals_comm a b,
        entriesEqual_comm as bs]

end

end Value

namespace Operator

variable {a b x y : Value} {op turned : Operator}

theorem text_order_swap (s t : String) :
    (if s < t then Ordering.lt else if s = t then .eq else .gt).swap =
      if t < s then Ordering.lt else if t = s then .eq else .gt := by
  rcases Std.lt_trichotomy s t with h | rfl | h
  · have hne : t ≠ s := fun he => String.lt_irrefl s (he ▸ h)
    simp [h, hne, String.lt_asymm h]
  · simp
  · have hne : s ≠ t := fun he => String.lt_irrefl t (he ▸ h)
    simp [h, hne, String.lt_asymm h]

theorem order?_swap (x y : Value) :
    (order? x y).map (Option.map Ordering.swap) = order? y x := by
  cases x with
  | int m =>
    cases y with
    | int n => exact congrArg (some ∘ some) Std.OrientedOrd.eq_swap.symm
    | _ => rfl
  | decimal u =>
    cases y with
    | decimal v => exact congrArg some (Decimal.order?_swap u v)
    | _ => rfl
  | str s =>
    cases y with
    | str t => exact congrArg (some ∘ some) (text_order_swap s t)
    | _ => rfl
  | _ => cases y <;> rfl

def comparisons : List Operator := [greater, greaterEqual, less, lessEqual]

/-- What a comparison says of two operands, if they can be compared. -/
def verdict? (op : Operator) (a b : Value) : Option Bool :=
  (a.coerce? b).bind fun p => (order? p.1 p.2).map (Option.any op.accepts)

theorem apply_comparison (h : op ∈ comparisons) (a b : Value) : op.apply a b =
    match op.verdict? a b with
    | some r => .ok (.bool r)
    | none => .error (.unsupportedOperands op a.kind b.kind) := by
  simp only [comparisons, List.mem_cons, List.not_mem_nil, or_false] at h
  rcases h with rfl | rfl | rfl | rfl
  all_goals
    unfold apply verdict?
    cases a.coerce? b with
    | none => rfl
    | some p =>
      simp only [applySame, Option.bind_some]
      cases order? p.1 p.2 <;> rfl

/-- Two comparisons that say the same when the operands of one are swapped. -/
inductive Turns : Operator → Operator → Prop
  | greater : Turns .greater .less
  | greaterEqual : Turns .greaterEqual .lessEqual

theorem Turns.accepts (h : Turns op turned) (o : Ordering) :
    turned.accepts o.swap = op.accepts o := by
  cases h <;> cases o <;> rfl

theorem Turns.verdict?_eq (h : Turns op turned) (a b : Value) :
    turned.verdict? b a = op.verdict? a b := by
  rw [verdict?, verdict?, Value.coerce?_swap a b, Option.bind_map]
  congr 1
  funext p
  rw [Function.comp_apply, Prod.fst_swap, Prod.snd_swap, ← order?_swap p.1 p.2, Option.map_map]
  congr 1
  funext o
  cases o with
  | none => rfl
  | some o => exact h.accepts o

theorem Turns.mem (h : Turns op turned) : op ∈ comparisons ∧ turned ∈ comparisons := by
  cases h <;> decide

/-- Operands are equal when they can be brought to one kind and are equal then. -/
def coercedEqual (a b : Value) : Bool := (a.coerce? b).any fun p => p.1.equals p.2

theorem coercedEqual_comm (a b : Value) : coercedEqual b a = coercedEqual a b := by
  rw [coercedEqual, coercedEqual, Value.coerce?_swap a b]
  cases a.coerce? b with
  | none => rfl
  | some p => exact Value.equals_comm p.2 p.1

theorem apply_equal (a b : Value) : equal.apply a b = .ok (.bool (coercedEqual a b)) := by
  unfold apply coercedEqual
  cases a.coerce? b <;> rfl

theorem apply_notEqual (a b : Value) : notEqual.apply a b = .ok (.bool !coercedEqual a b) := by
  unfold apply coercedEqual
  cases a.coerce? b <;> rfl

/-- The comparison `op` of `a` and `b` and the comparison `turned` of `b` and `a` give one verdict, or
both fail with the kinds of their operands. -/
inductive Mirrored (op turned : Operator) (a b : Value) : Prop
  | gives {r : Bool} : op.apply a b = .ok (.bool r) → turned.apply b a = .ok (.bool r) →
      Mirrored op turned a b
  | fails : op.apply a b = .error (.unsupportedOperands op a.kind b.kind) →
      turned.apply b a = .error (.unsupportedOperands turned b.kind a.kind) →
      Mirrored op turned a b

theorem Turns.mirrored (h : Turns op turned) (a b : Value) : Mirrored op turned a b := by
  obtain ⟨hop, hturned⟩ := h.mem
  have hleft := apply_comparison hop a b
  have hright := apply_comparison hturned b a
  rw [h.verdict?_eq] at hright
  cases hv : op.verdict? a b with
  | some r =>
    rw [hv] at hleft hright
    exact .gives hleft hright
  | none =>
    rw [hv] at hleft hright
    exact .fails hleft hright

end Operator

/-- What does not depend on which of two operands stands on the left. -/
structure Value.Symmetric (a b : Value) : Prop where
  coerced : ∀ {x y}, a.coerce? b = some (x, y) → a.Coerced b x y
  refused : a.coerce? b = none ↔ b.coerce? a = none
  incompatible : a.coerce? b = none ↔ a.Incompatible b
  equal : ∃ r, Operator.equal.apply a b = .ok (.bool r) ∧ Operator.equal.apply b a = .ok (.bool r) ∧
    Operator.notEqual.apply a b = .ok (.bool !r) ∧ Operator.notEqual.apply b a = .ok (.bool !r)
  greater : Operator.Mirrored .greater .less a b
  greaterEqual : Operator.Mirrored .greaterEqual .lessEqual a b

/-- Coercion, equality and the order do not depend on which of two operands stands on the left. -/
theorem compares_symmetrically (a b : Value) : a.Symmetric b where
  coerced := Value.coerced
  refused := by rw [Value.coerce?_swap a b, Option.map_eq_none_iff]
  incompatible := Value.coerce?_eq_none_iff
  equal := by
    refine ⟨_, Operator.apply_equal a b, ?_, Operator.apply_notEqual a b, ?_⟩
    · rw [Operator.apply_equal, Operator.coercedEqual_comm]
    · rw [Operator.apply_notEqual, Operator.coercedEqual_comm]
  greater := Operator.Turns.greater.mirrored a b
  greaterEqual := Operator.Turns.greaterEqual.mirrored a b

end StackScript
