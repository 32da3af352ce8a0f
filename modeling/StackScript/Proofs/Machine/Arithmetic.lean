import Mathlib.Data.Int.Bitwise
import StackScript.Machine.Operate

/-! # Integer arithmetic

A sum, a difference, a product or a negation is the exact one, or an overflow when no 64-bit integer is
the exact one. Division truncates, and the bitwise operators act on the two's complement of their
operands. A bool next to an integer counts as one or as zero.
-/

namespace StackScript

section Range

variable {n : Int} {r : Int64}

/-- The integers that have a 64-bit two's complement. -/
def InRange (n : Int) : Prop := -2 ^ 63 ≤ n ∧ n < 2 ^ 63

theorem inRange_toInt (r : Int64) : InRange r.toInt := ⟨r.le_toInt, r.toInt_lt⟩

theorem int64?_eq_some_iff : int64? n = some r ↔ r.toInt = n := by
  rw [int64?, Int64.toInt_minValue, Int64.toInt_maxValue]
  constructor
  · intro h
    split at h
    · next hrange =>
      cases h
      exact Int64.toInt_ofInt_of_le hrange.1 (by omega)
    · cases h
  · rintro rfl
    obtain ⟨hlow, hhigh⟩ := inRange_toInt r
    rw [if_pos ⟨hlow, by omega⟩, Int64.ofInt_toInt]

theorem int64?_eq_none_iff : int64? n = none ↔ ¬InRange n := by
  rw [int64?, Int64.toInt_minValue, Int64.toInt_maxValue, ite_eq_right_iff, InRange]
  constructor
  · intro h hrange
    cases h ⟨hrange.1, by omega⟩
  · exact fun h hrange => (h ⟨hrange.1, by omega⟩).elim

namespace Operator

variable {op : Operator} {e : Fault}

theorem checked_eq_ok_iff : op.checked n = .ok r ↔ r.toInt = n := by
  rw [← int64?_eq_some_iff, checked]
  cases int64? n <;> simp

theorem checked_eq_error_iff :
    op.checked n = .error e ↔ e = .integerOverflow op.symbol ∧ ¬InRange n := by
  rw [← int64?_eq_none_iff, checked]
  cases int64? n <;> simp [eq_comm]

theorem checked_of_inRange (op : Operator) (h : InRange n) :
    ∃ r, op.checked n = .ok r ∧ r.toInt = n := by
  cases hn : op.checked n with
  | ok r => exact ⟨r, rfl, checked_eq_ok_iff.mp hn⟩
  | error e => exact ((checked_eq_error_iff.mp hn).2 h).elim

end Operator

end Range

section Division

variable {a b : Int64}

theorem toInt_ne_zero (hb : b ≠ 0) : b.toInt ≠ 0 := fun h => hb (Int64.toInt_inj.mp h)

theorem natAbs_tmod_lt {x y : Int} (hy : y ≠ 0) : (x.tmod y).natAbs < y.natAbs := by
  rw [Int.natAbs_tmod]
  exact Nat.mod_lt _ (Int.natAbs_pos.mpr hy)

theorem inRange_tmod (hb : b ≠ 0) : InRange (a.toInt.tmod b.toInt) := by
  have hlt := natAbs_tmod_lt (x := a.toInt) (toInt_ne_zero hb)
  obtain ⟨hlow, hhigh⟩ := inRange_toInt b
  constructor <;> omega

/-- The one quotient of 64-bit integers that is none. -/
theorem inRange_tdiv_iff (hb : b ≠ 0) :
    InRange (a.toInt.tdiv b.toInt) ↔ ¬(a = .minValue ∧ b = -1) := by
  constructor
  · rintro ⟨-, hlt⟩ ⟨rfl, rfl⟩
    revert hlt
    decide
  · intro hmin
    obtain ⟨hlow, hhigh⟩ := inRange_toInt a
    have hle : (a.toInt.tdiv b.toInt).natAbs = a.toInt.natAbs / b.toInt.natAbs := Int.natAbs_tdiv ..
    by_cases hone : b.toInt = -1
    · have ha : a.toInt ≠ -2 ^ 63 := fun ha => hmin
        ⟨Int64.toInt_inj.mp (ha.trans Int64.toInt_minValue.symm), Int64.toInt_inj.mp hone⟩
      rw [hone, Int.tdiv_neg, Int.tdiv_one]
      exact ⟨by omega, by omega⟩
    · by_cases htwo : b.toInt = 1
      · rw [htwo, Int.tdiv_one]
        exact inRange_toInt a
      · -- A divisor of two or more halves the dividend.
        have hzero := toInt_ne_zero hb
        have hhalf : a.toInt.natAbs / b.toInt.natAbs ≤ a.toInt.natAbs / 2 :=
          Nat.div_le_div_left (by omega) (by decide)
        exact ⟨by omega, by omega⟩

/-- A remainder is zero or has the sign of the dividend. -/
theorem sign_tmod_cases (x y : Int) : x.tmod y = 0 ∨ (x.tmod y).sign = x.sign := by
  rw [← Int.sign_eq_zero_iff_zero, Int.sign_tmod]
  split
  · exact .inl rfl
  · exact .inr rfl

end Division

section Bits

variable {a b : Int64} {i : Nat}

/-- The bits of a word go on with its sign. -/
theorem testBit_toInt {w : Nat} (x : BitVec w) (i : Nat) :
    x.toInt.testBit i = if i < w then x.getLsbD i else x.msb := by
  rw [BitVec.toInt_eq_msb_cond]
  split
  · next hneg =>
    have hsize := x.isLt
    have hnot : (x.toNat : Int) - (2 ^ w : Nat) = Int.negSucc (~~~x).toNat := by
      rw [BitVec.toNat_not, Int.negSucc_eq]
      omega
    have hbit : (~~~x).toNat.testBit i = (~~~x).getLsbD i := rfl
    rw [hnot, Int.testBit, hbit, BitVec.getLsbD_not]
    split <;> simp_all
  · next hpos =>
    have hbit : (x.toNat : Int).testBit i = x.getLsbD i := rfl
    rw [hbit]
    split
    · rfl
    · next hi => rw [BitVec.getLsbD_of_ge x i (Nat.not_lt.mp hi), Bool.eq_false_of_not_eq_true hpos]

theorem testBit_and : (a &&& b).toInt.testBit i = (a.toInt.testBit i && b.toInt.testBit i) := by
  simp only [← Int64.toInt_toBitVec, Int64.toBitVec_and, testBit_toInt, BitVec.getLsbD_and,
    BitVec.msb_and]
  split <;> rfl

theorem testBit_or : (a ||| b).toInt.testBit i = (a.toInt.testBit i || b.toInt.testBit i) := by
  simp only [← Int64.toInt_toBitVec, Int64.toBitVec_or, testBit_toInt, BitVec.getLsbD_or,
    BitVec.msb_or]
  split <;> rfl

theorem testBit_xor : (a ^^^ b).toInt.testBit i = (a.toInt.testBit i ^^ b.toInt.testBit i) := by
  simp only [← Int64.toInt_toBitVec, Int64.toBitVec_xor, testBit_toInt, BitVec.getLsbD_xor,
    BitVec.msb_xor]
  split <;> rfl

theorem testBit_not : (~~~a).toInt.testBit i = !a.toInt.testBit i := by
  simp only [← Int64.toInt_toBitVec, Int64.toBitVec_not, testBit_toInt]
  split <;> simp_all

end Bits

/-- The value counts as the integer: it is that integer, or a bool that stands for one or zero. -/
inductive Value.CountsAs : Value → Int64 → Prop
  | int (n : Int64) : CountsAs (.int n) n
  | bool (b : Bool) : CountsAs (.bool b) (if b then 1 else 0)

/-- Operands that integer arithmetic is done on. A bool is one only next to an integer. -/
structure IntegerOperands (x y : Value) (a b : Int64) : Prop where
  left : x.CountsAs a
  right : y.CountsAs b
  int : x.kind = .int ∨ y.kind = .int

structure Exactly (outcome : Except Fault Value) (op : String) (n : Int) : Prop where
  returns : ∀ v, outcome = .ok v ↔ ∃ r : Int64, v = .int r ∧ r.toInt = n
  fails : ∀ e, outcome = .error e ↔ e = .integerOverflow op ∧ ¬InRange n

/-- The outcomes are the quotient and the remainder of `a` by `b`. -/
structure Divides (div mod : Except Fault Value) (a b : Int64) : Prop where
  byZero : (div = .error .divisionByZero ↔ b = 0) ∧ (mod = .error .divisionByZero ↔ b = 0)
  overflow : (div = .error (.integerOverflow "/") ↔ a = .minValue ∧ b = -1) ∧
    (mod = .error (.integerOverflow "%") ↔ a = .minValue ∧ b = -1)
  otherwise : b ≠ 0 → ¬(a = .minValue ∧ b = -1) → ∃ q r : Int64,
    div = .ok (.int q) ∧ mod = .ok (.int r) ∧ a.toInt = q.toInt * b.toInt + r.toInt ∧
      r.toInt.natAbs < b.toInt.natAbs ∧ (r = 0 ∨ r.toInt.sign = a.toInt.sign)

/-- The outcome is the integer with these bits, however far its two's complement is written out. -/
def Bitwise (outcome : Except Fault Value) (bit : Nat → Bool) : Prop :=
  ∃ r : Int64, outcome = .ok (.int r) ∧ ∀ i, r.toInt.testBit i = bit i

section Outcomes

variable {op : Operator} {x y : Value} {a b r : Int64} {n : Int} {e : Fault} {v : Value}
  {result : Except Fault Int64}

theorem IntegerOperands.coerce? (h : IntegerOperands x y a b) :
    x.coerce? y = some (.int a, .int b) := by
  obtain ⟨hx, hy, hint⟩ := h
  cases hx with
  | int => cases hy <;> rfl
  | bool =>
    cases hy with
    | int => rfl
    | bool => rcases hint with hint | hint <;> cases hint

theorem IntegerOperands.apply (h : IntegerOperands x y a b) (hop : op.onInts a b = some result) :
    op.apply x y = result.map .int := by
  unfold Operator.apply
  rw [h.coerce?]
  cases op <;> cases hop <;> rfl

theorem IntegerOperands.apply_error (h : IntegerOperands x y a b)
    (hop : op.onInts a b = some (.error e)) : op.apply x y = .error e := h.apply hop

theorem map_int_eq_ok_iff : result.map Value.int = .ok v ↔ ∃ r, v = .int r ∧ result = .ok r := by
  cases result <;> simp [Except.map, eq_comm]

theorem map_int_eq_error_iff : result.map Value.int = .error e ↔ result = .error e := by
  cases result <;> simp [Except.map]

theorem IntegerOperands.exactly (h : IntegerOperands x y a b)
    (hop : op.onInts a b = some (op.checked n)) : Exactly (op.apply x y) op.symbol n where
  returns v := by simp only [h.apply hop, map_int_eq_ok_iff, Operator.checked_eq_ok_iff]
  fails e := by rw [h.apply hop, map_int_eq_error_iff, Operator.checked_eq_error_iff]

theorem IntegerOperands.bitwise {bit : Nat → Bool} (h : IntegerOperands x y a b)
    (hop : op.onInts a b = some (.ok r)) (hr : ∀ i, r.toInt.testBit i = bit i) :
    Bitwise (op.apply x y) bit :=
  ⟨r, h.apply hop, hr⟩

theorem neg_exactly (a : Int64) : Exactly (UnaryOp.neg.apply (.int a)) "-" (-a.toInt) where
  returns v := by
    simp only [← int64?_eq_some_iff, UnaryOp.apply]
    cases int64? (-a.toInt) <;> simp [eq_comm]
  fails e := by
    rw [← int64?_eq_none_iff, UnaryOp.apply]
    cases int64? (-a.toInt) <;> simp [UnaryOp.symbol, eq_comm]

theorem IntegerOperands.div_eq (h : IntegerOperands x y a b) (hb : b ≠ 0) :
    Operator.div.apply x y = (Operator.div.checked (a.toInt.tdiv b.toInt)).map .int := by
  apply h.apply
  simp only [Operator.onInts, if_neg (toInt_ne_zero hb)]

/-- A remainder overflows when its quotient does. -/
theorem IntegerOperands.mod_eq (h : IntegerOperands x y a b) (hb : b ≠ 0) :
    Operator.mod.apply x y = (Operator.mod.checked (a.toInt.tdiv b.toInt) >>= fun _ =>
      Operator.mod.checked (a.toInt.tmod b.toInt)).map .int := by
  apply h.apply
  simp only [Operator.onInts, if_neg (toInt_ne_zero hb)]

theorem IntegerOperands.divides_zero (h : IntegerOperands x y a 0) :
    Divides (Operator.div.apply x y) (Operator.mod.apply x y) a 0 := by
  have hdiv : Operator.div.apply x y = .error .divisionByZero := h.apply_error rfl
  have hmod : Operator.mod.apply x y = .error .divisionByZero := h.apply_error rfl
  rw [hdiv, hmod]
  constructor
  case byZero => simp
  case overflow => simp
  case otherwise => exact fun hne => (hne rfl).elim

theorem IntegerOperands.divides_overflow (h : IntegerOperands x y a b) (hb : b ≠ 0)
    (hmin : a = .minValue ∧ b = -1) :
    Divides (Operator.div.apply x y) (Operator.mod.apply x y) a b := by
  have hover (op : Operator) : op.checked (a.toInt.tdiv b.toInt) =
      .error (.integerOverflow op.symbol) :=
    Operator.checked_eq_error_iff.mpr ⟨rfl, fun hrange => (inRange_tdiv_iff hb).mp hrange hmin⟩
  rw [h.div_eq hb, h.mod_eq hb, hover, hover]
  constructor
  case byZero => simp [hb, Except.map, bind, Except.bind]
  case overflow => simp [hmin, Except.map, bind, Except.bind, Operator.symbol]
  case otherwise => exact fun _ hne => (hne hmin).elim

theorem IntegerOperands.divides_exactly (h : IntegerOperands x y a b) (hb : b ≠ 0)
    (hmin : ¬(a = .minValue ∧ b = -1)) :
    Divides (Operator.div.apply x y) (Operator.mod.apply x y) a b := by
  have hrange := (inRange_tdiv_iff hb).mpr hmin
  obtain ⟨q, hq, hquotient⟩ := Operator.checked_of_inRange .div hrange
  obtain ⟨p, hp, -⟩ := Operator.checked_of_inRange .mod hrange
  obtain ⟨r, hr, hremainder⟩ := Operator.checked_of_inRange .mod (inRange_tmod (a := a) hb)
  rw [h.div_eq hb, h.mod_eq hb, hq, hp]
  constructor
  case byZero => simp [hb, hr, Except.map, bind, Except.bind]
  case overflow => simp [hmin, hr, Except.map, bind, Except.bind]
  case otherwise =>
    intro _ _
    refine ⟨q, r, rfl, congrArg (Except.map Value.int) hr, ?_, ?_, ?_⟩
    · rw [hquotient, hremainder, Int.tdiv_mul_add_tmod]
    · rw [hremainder]
      exact natAbs_tmod_lt (toInt_ne_zero hb)
    · rw [hremainder, ← Int64.toInt_inj, hremainder]
      exact sign_tmod_cases _ _

theorem IntegerOperands.divides (h : IntegerOperands x y a b) :
    Divides (Operator.div.apply x y) (Operator.mod.apply x y) a b := by
  by_cases hb : b = 0
  · subst hb
    exact h.divides_zero
  · by_cases hmin : a = .minValue ∧ b = -1
    · exact h.divides_overflow hb hmin
    · exact h.divides_exactly hb hmin

end Outcomes

/-- What the operators give on operands that count as `a` and `b`. -/
structure ExactArithmetic (x y : Value) (a b : Int64) : Prop where
  add : Exactly (Operator.add.apply x y) "+" (a.toInt + b.toInt)
  sub : Exactly (Operator.sub.apply x y) "-" (a.toInt - b.toInt)
  mul : Exactly (Operator.mul.apply x y) "*" (a.toInt * b.toInt)
  neg : Exactly (UnaryOp.neg.apply (.int a)) "-" (-a.toInt)
  divides : Divides (Operator.div.apply x y) (Operator.mod.apply x y) a b
  bitAnd : Bitwise (Operator.bitAnd.apply x y) fun i => a.toInt.testBit i && b.toInt.testBit i
  bitOr : Bitwise (Operator.bitOr.apply x y) fun i => a.toInt.testBit i || b.toInt.testBit i
  bitXor : Bitwise (Operator.bitXor.apply x y) fun i => a.toInt.testBit i ^^ b.toInt.testBit i
  bitNot : Bitwise (UnaryOp.bitNot.apply (.int a)) fun i => !a.toInt.testBit i

/-- Integer arithmetic is exact, or it fails. -/
theorem exact_or_fault {x y : Value} {a b : Int64} (h : IntegerOperands x y a b) :
    ExactArithmetic x y a b where
  add := h.exactly rfl
  sub := h.exactly rfl
  mul := h.exactly rfl
  neg := neg_exactly a
  divides := h.divides
  bitAnd := h.bitwise rfl fun _ => testBit_and
  bitOr := h.bitwise rfl fun _ => testBit_or
  bitXor := h.bitwise rfl fun _ => testBit_xor
  bitNot := ⟨~~~a, rfl, fun _ => testBit_not⟩

/-- True counts as one, and the smallest integer is none less than it. -/
theorem exact_or_fault_true_minValue :
    IntegerOperands (.bool true) (.int .minValue) 1 .minValue ∧
      ExactArithmetic (.bool true) (.int .minValue) 1 .minValue :=
  ⟨⟨.bool true, .int _, .inr rfl⟩, exact_or_fault ⟨.bool true, .int _, .inr rfl⟩⟩

end StackScript
