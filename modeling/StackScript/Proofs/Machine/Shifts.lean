import Mathlib.Data.Int.ModEq
import StackScript.Proofs.Machine.Arithmetic

/-! # Shifts

An integer is shifted by none to 63 bits; any other number of bits is an overflow. A shift to the
right rounds down. A shift to the left gives the low 64 bits of the exact product, and that is the
product only where it is in range: bits that are shifted out are lost, and nothing reports it.
-/

namespace StackScript

/-- An integer can be shifted by `b` bits. -/
def ShiftsBy (b : Int64) : Prop := 0 ≤ b.toInt ∧ b.toInt < 64

section Words

variable {a b : Int64}

/-- The two's complement of a number that is not negative is the number. -/
theorem ShiftsBy.toNat_toBitVec (h : ShiftsBy b) : b.toBitVec.toNat = b.toInt.toNat := by
  have hsign := BitVec.toInt_eq_toNat_cond b.toBitVec
  rw [Int64.toInt_toBitVec] at hsign
  have hsize := b.toBitVec.isLt
  split at hsign
  · omega
  · have hpos := h.1
    omega

/-- Words are shifted by a number modulo their width, which changes nothing below the width. -/
theorem ShiftsBy.toNat_smod (h : ShiftsBy b) : (b.toBitVec.smod 64).toNat = b.toInt.toNat := by
  have hsmod : (b.toBitVec.smod 64).toInt = b.toBitVec.toInt := by
    rw [BitVec.toInt_smod, Int64.toInt_toBitVec]
    exact Int.fmod_eq_of_lt h.1 h.2
  rw [BitVec.toInt_inj.mp hsmod, h.toNat_toBitVec]

theorem toInt_shiftRight (h : ShiftsBy b) : (a >>> b).toInt = a.toInt / 2 ^ b.toInt.toNat := by
  rw [← Int64.toInt_toBitVec, Int64.toBitVec_shiftRight, BitVec.toInt_sshiftRight', h.toNat_smod,
    Int64.toInt_toBitVec, Int.shiftRight_eq_div_pow, Nat.cast_pow, Nat.cast_ofNat]

theorem toInt_shiftLeft (h : ShiftsBy b) :
    (a <<< b).toInt = (a.toInt * 2 ^ b.toInt.toNat).bmod (2 ^ 64) := by
  rw [← Int64.toInt_toBitVec, Int64.toBitVec_shiftLeft, BitVec.shiftLeft_eq', h.toNat_smod,
    BitVec.toInt_shiftLeft, Nat.shiftLeft_eq, Nat.cast_mul, ← Int64.toInt_toBitVec a,
    BitVec.toInt_eq_toNat_bmod, Int.bmod_mul_bmod, Nat.cast_pow, Nat.cast_ofNat]

theorem InRange.bmod_eq {n : Int} (h : InRange n) : n.bmod (2 ^ 64) = n := by
  obtain ⟨hlow, hhigh⟩ := h
  exact Int.bmod_eq_of_le (by omega) (by omega)

end Words

/-- The outcome is the 64-bit integer with the low bits of `n`, which is `n` itself only where `n` is
in range. -/
def LowBits (outcome : Except Fault Value) (n : Int) : Prop :=
  ∃ r : Int64, outcome = .ok (.int r) ∧ r.toInt ≡ n [ZMOD 2 ^ 64] ∧ (r.toInt = n ↔ InRange n)

structure Shifts (a b : Int64) : Prop where
  /-- Division of integers rounds down when the divisor is positive. -/
  right : ShiftsBy b → ∃ r : Int64, Operator.shiftRight.apply (.int a) (.int b) = .ok (.int r) ∧
    r.toInt = a.toInt / 2 ^ b.toInt.toNat
  left : ShiftsBy b →
    LowBits (Operator.shiftLeft.apply (.int a) (.int b)) (a.toInt * 2 ^ b.toInt.toNat)
  otherwise : ¬ShiftsBy b →
    Operator.shiftRight.apply (.int a) (.int b) = .error (.integerOverflow ">>") ∧
      Operator.shiftLeft.apply (.int a) (.int b) = .error (.integerOverflow "<<")

/-- A shift to the right is exact, and one to the left keeps what fits. -/
theorem shift_keeps_low_bits (a b : Int64) : Shifts a b := by
  have hints : IntegerOperands (.int a) (.int b) a b := ⟨.int a, .int b, .inl rfl⟩
  constructor
  case right =>
    intro hb
    have hshifted : Operator.shiftRight.onInts a b = some (.ok (a >>> b)) :=
      congrArg some (if_pos hb)
    exact ⟨a >>> b, hints.apply hshifted, toInt_shiftRight hb⟩
  case left =>
    intro hb
    have hshifted : Operator.shiftLeft.onInts a b = some (.ok (a <<< b)) :=
      congrArg some (if_pos hb)
    have hbits := toInt_shiftLeft (a := a) hb
    refine ⟨a <<< b, hints.apply hshifted, ?_, ?_⟩
    · rw [hbits]
      exact Int.bmod_emod
    · exact ⟨fun h => h ▸ inRange_toInt _, fun h => hbits.trans h.bmod_eq⟩
  case otherwise =>
    intro hb
    constructor
    · exact hints.apply_error (congrArg some (if_neg hb))
    · exact hints.apply_error (congrArg some (if_neg hb))

/-- The one significant bit of four goes out on the left. -/
example : Operator.shiftLeft.apply (.int 4) (.int 62) = .ok (.int 0) := rfl

end StackScript
