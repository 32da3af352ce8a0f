import StackScript.Proofs.Code.Assembly
import StackScript.Proofs.Code.SpanMap
import StackScript.Proofs.Effect
import StackScript.Compile.Unit

/-! # Editing a code unit

Instructions are emitted, dropped again, turned into others and pointed to their targets. Whatever the
order, the unit finds the span of each instruction that is left at every byte of it, as long as offsets
fit in a span map.
-/

namespace StackScript

inductive Edit
  | emit (op : Opcode) (operands : List Nat) (span : Span)
  | removeLast
  | returnLast
  | patchJump (position target : Nat)

structure Placed where
  position : Nat
  length : Nat
  span : Span
deriving DecidableEq, Repr

def Placed.stop (p : Placed) : Nat := p.position + p.length

/-- The unit after a change, and the instruction that the change emitted. What cannot be done leaves the
unit as it was. -/
def Edit.apply (u : CodeUnit) : Edit → Option Placed × CodeUnit
  | emit op operands span =>
    match CodeUnit.emit op operands span u with
    | (.ok position, u) => (some ⟨position, op.length, span⟩, u)
    | (.error _, u) => (none, u)
  | removeLast => (none, u.removeLast)
  | returnLast => (none, u.returnLast)
  | patchJump position target => (none, (CodeUnit.patchJump position target u).2)

/-- A unit, and the instructions that have been emitted to it and are still there, the last one first. -/
structure Draft where
  unit : CodeUnit := {}
  placed : List Placed := []

def Draft.edit (d : Draft) (e : Edit) : Draft :=
  let (emitted, unit) := e.apply d.unit
  ⟨unit, (emitted.toList ++ d.placed).filter (·.stop ≤ unit.code.size)⟩

/-- The drafts that changes lead to while the code is not too long for a span map. -/
inductive Drafted : Draft → Prop
  | start : Drafted {}
  | edit {d : Draft} (h : Drafted d) (e : Edit) (hsize : (d.edit e).unit.code.size < 1 <<< 32) :
      Drafted (d.edit e)

/-- The instructions, the last one first, stand one behind the other up to `size`. -/
def Filled : List Placed → (size : Nat) → Prop
  | [], size => size = 0
  | p :: ps, size => p.stop = size ∧ Filled ps p.position

section Filled

variable {p q : Placed} {ps : List Placed} {size : Nat}

theorem Filled.stop_le (h : Filled ps size) (hp : p ∈ ps) : p.stop ≤ size := by
  induction ps generalizing size with
  | nil => cases hp
  | cons q ps ih =>
    obtain ⟨rfl, hps⟩ := h
    rcases List.mem_cons.mp hp with rfl | hp
    · exact Nat.le_refl _
    · exact Nat.le_trans (ih hps hp) (Nat.le_add_right ..)

theorem Filled.filter_self (h : Filled ps size) : ps.filter (·.stop ≤ size) = ps :=
  List.filter_eq_self.mpr fun _ hp => decide_eq_true (h.stop_le hp)

theorem Filled.filter_last (h : Filled (p :: ps) size) (hp : 0 < p.length) :
    (p :: ps).filter (·.stop ≤ p.position) = ps := by
  have hstop : ¬p.stop ≤ p.position := by
    unfold Placed.stop
    omega
  rw [List.filter_cons_of_neg (by simpa using hstop)]
  exact h.2.filter_self

end Filled

/-- Each instruction that is left is found, and the unit knows where the last ones begin. -/
structure Draft.Consistent (d : Draft) : Prop where
  fits : d.unit.code.size ≤ Span.maxOffset
  filled : Filled d.placed d.unit.code.size
  nonempty : ∀ p ∈ d.placed, 0 < p.length
  spans : d.unit.spans.Ascending d.unit.code.size
  found : ∀ p ∈ d.placed, ∀ i < p.length, d.unit.spans.spanAt? (p.position + i) = some p.span
  last : ∀ n, d.unit.last.map (·.position) = some n → ∃ p ps, d.placed = p :: ps ∧ p.position = n
  previous : ∀ n, d.unit.previous.map (·.position) = some n →
    ∃ p q ps, d.placed = p :: q :: ps ∧ q.position = n

namespace Draft.Consistent

variable {d : Draft} {u : CodeUnit} {op : Opcode} {bytes : List UInt8} {span : Span}

theorem start : Consistent {} where
  fits := Nat.zero_le _
  filled := rfl
  nonempty := by simp
  spans := .empty _
  found := by simp
  last := by simp
  previous := by simp

theorem append (h : d.Consistent) (hbytes : bytes.length = op.length)
    (hsize : (d.unit.append op bytes span).code.size < 1 <<< 32) :
    Consistent ⟨d.unit.append op bytes span, ⟨d.unit.code.size, op.length, span⟩ :: d.placed⟩ := by
  have hcode : (d.unit.append op bytes span).code.size = d.unit.code.size + op.length := by
    simp [CodeUnit.append, hbytes]
  have hmax : d.unit.code.size + op.length ≤ Span.maxOffset := Nat.le_of_lt_succ (hcode ▸ hsize)
  have hlength := op.length_pos
  constructor
  case fits => exact Nat.le_of_lt_succ hsize
  case filled => exact ⟨hcode.symm, h.filled⟩
  case nonempty => exact List.forall_mem_cons.mpr ⟨hlength, h.nonempty⟩
  case spans =>
    rw [hcode]
    exact h.spans.push (by omega) hmax
  case found =>
    intro p hp i hi
    rcases List.mem_cons.mp hp with rfl | hp
    · dsimp only at hi ⊢
      exact SpanMap.spanAt?_push_of_le h.spans.below (Nat.le_add_right ..) (by omega)
    · have hstop := h.filled.stop_le hp
      unfold Placed.stop at hstop
      dsimp only [CodeUnit.append]
      rw [SpanMap.spanAt?_push_of_lt (by omega)]
      exact h.found p hp i hi
  case last =>
    intro n hn
    exact ⟨_, _, rfl, by simpa [CodeUnit.append] using hn⟩
  case previous =>
    intro n hn
    obtain ⟨q, ps, hq, rfl⟩ := h.last n hn
    exact ⟨_, q, ps, by rw [hq], rfl⟩

theorem rewrite (h : d.Consistent) (hsize : u.code.size = d.unit.code.size)
    (hspans : u.spans = d.unit.spans)
    (hlast : u.last.map (·.position) = d.unit.last.map (·.position))
    (hprevious : u.previous = d.unit.previous) : Consistent ⟨u, d.placed⟩ where
  fits := hsize ▸ h.fits
  filled := hsize ▸ h.filled
  nonempty := h.nonempty
  spans := by
    dsimp only
    rw [hspans, hsize]
    exact h.spans
  found := hspans ▸ h.found
  last := hlast ▸ h.last
  previous := hprevious ▸ h.previous

theorem found_truncate (h : d.Consistent) {p : Placed} {ps : List Placed} (hplaced : d.placed = p :: ps) :
    ∀ q ∈ ps, ∀ i < q.length,
      (d.unit.spans.truncate p.position).spanAt? (q.position + i) = some q.span := by
  intro q hq i hi
  have hfits := h.fits
  have hfilled := h.filled
  rw [hplaced] at hfilled
  have hstop : q.stop ≤ p.position := hfilled.2.stop_le hq
  have hsize : p.stop = d.unit.code.size := hfilled.1
  unfold Placed.stop at hstop hsize
  rw [SpanMap.spanAt?_truncate_of_lt (by omega)]
  exact h.found q (by simp [hplaced, hq]) i hi

theorem removeLast (h : d.Consistent) : Consistent (d.edit .removeLast) := by
  change Consistent ⟨d.unit.removeLast, d.placed.filter (·.stop ≤ d.unit.removeLast.code.size)⟩
  cases hlast : d.unit.last with
  | none =>
    have hsame : d.unit.removeLast = d.unit := by simp [CodeUnit.removeLast, hlast]
    rw [hsame, h.filled.filter_self]
    exact h
  | some e =>
    obtain ⟨p, ps, hplaced, hp⟩ := h.last e.position (by rw [hlast, Option.map_some])
    have hfilled : Filled (p :: ps) d.unit.code.size := hplaced ▸ h.filled
    have hnonempty : ∀ q ∈ p :: ps, 0 < q.length := hplaced ▸ h.nonempty
    have hle : p.position ≤ d.unit.code.size := hfilled.1 ▸ Nat.le_add_right ..
    have hrem : d.unit.removeLast = { d.unit with
        code := d.unit.code.shrink p.position
        spans := d.unit.spans.truncate p.position
        last := d.unit.previous
        previous := none } := by
      simp [CodeUnit.removeLast, hlast, hp]
    have hcode : d.unit.removeLast.code.size = p.position := by
      rw [hrem, Array.size_shrink]
      exact Nat.min_eq_left hle
    rw [hplaced, hcode, hfilled.filter_last (hnonempty p (by simp))]
    constructor
    case fits => exact hcode ▸ Nat.le_trans hle h.fits
    case filled => exact hcode ▸ hfilled.2
    case nonempty => exact fun q hq => hnonempty q (by simp [hq])
    case spans =>
      rw [hcode, hrem]
      exact h.spans.truncate
    case found =>
      rw [hrem]
      exact h.found_truncate hplaced
    case last =>
      intro n hn
      rw [hrem] at hn
      obtain ⟨q, r, qs, hq, hr⟩ := h.previous n hn
      rw [hplaced] at hq
      obtain ⟨rfl, rfl⟩ := List.cons.inj hq
      exact ⟨r, qs, rfl, hr⟩
    case previous =>
      intro n hn
      rw [hrem] at hn
      cases hn

theorem kept {e : Edit} {emitted : Option Placed} (happly : e.apply d.unit = (emitted, u))
    (h : Consistent ⟨u, emitted.toList ++ d.placed⟩) : (d.edit e).Consistent := by
  have hedit : d.edit e = ⟨u, (emitted.toList ++ d.placed).filter (·.stop ≤ u.code.size)⟩ := by
    rw [Draft.edit, happly]
  rw [hedit, h.filled.filter_self]
  exact h

theorem returnLast (h : d.Consistent) : (d.edit .returnLast).Consistent := by
  refine kept rfl (h.rewrite ?_ ?_ ?_ ?_)
  all_goals
    unfold CodeUnit.returnLast
    split <;> simp_all

theorem patchJump (h : d.Consistent) (position target : Nat) :
    (d.edit (.patchJump position target)).Consistent := by
  have hunit : (CodeUnit.patchJump position target d.unit).2 = d.unit ∨
      (CodeUnit.patchJump position target d.unit).2 =
        { d.unit with code := CodeUnit.setOperand d.unit.code (position + 1) target } := by
    unfold CodeUnit.patchJump
    split
    · rw [bind_apply, get_apply]
      dsimp only
      split
      · exact .inr rfl
      · exact .inl rfl
    · exact .inl rfl
  refine kept rfl (h.rewrite ?_ ?_ ?_ ?_)
  all_goals
    rcases hunit with hunit | hunit <;> rw [hunit]
  simp [CodeUnit.setOperand]

theorem emit (h : d.Consistent) (op : Opcode) (operands : List Nat) (span : Span)
    (hsize : (d.edit (.emit op operands span)).unit.code.size < 1 <<< 32) :
    (d.edit (.emit op operands span)).Consistent := by
  cases hencode : Instruction.encode ⟨op, operands⟩ with
  | error e =>
    have hemit : CodeUnit.emit op operands span d.unit = (.error (.ofEncodeError e), d.unit) := by
      rw [CodeUnit.emit, hencode]
      rfl
    exact kept (by rw [Edit.apply, hemit]) h
  | ok bytes =>
    have hemit : CodeUnit.emit op operands span d.unit =
        (.ok d.unit.code.size, d.unit.append op bytes span) := by
      rw [CodeUnit.emit, hencode]
      rfl
    have hfits := Instruction.fits_of_encode hencode
    have hbytes : bytes.length = op.length := by
      rw [Instruction.encode_of_fits hfits] at hencode
      rw [← Except.ok.inj hencode, Instruction.length_bytes hfits]
    have happly : Edit.apply d.unit (.emit op operands span) =
        (some ⟨d.unit.code.size, op.length, span⟩, d.unit.append op bytes span) := by
      rw [Edit.apply, hemit]
    have hunit : (d.edit (.emit op operands span)).unit = d.unit.append op bytes span :=
      congrArg Prod.snd happly
    exact kept happly (h.append hbytes (hunit ▸ hsize))

end Draft.Consistent

theorem Draft.Consistent.edit {d : Draft} (h : d.Consistent) (e : Edit)
    (hsize : (d.edit e).unit.code.size < 1 <<< 32) : (d.edit e).Consistent := by
  cases e with
  | emit op operands span => exact h.emit op operands span hsize
  | removeLast => exact h.removeLast
  | returnLast => exact h.returnLast
  | patchJump position target => exact h.patchJump position target

theorem Drafted.consistent {d : Draft} (h : Drafted d) : d.Consistent := by
  induction h with
  | start => exact .start
  | edit _ e hsize ih => exact ih.edit e hsize

/-- Editing keeps the spans. The entries grow and stay within the code, the instructions that are left
fill it, and each is found at every one of its bytes. -/
theorem Drafted.keeps_spans {d : Draft} (h : Drafted d) :
    (d.unit.spans.entries.map (·.1)).Pairwise (· < ·) ∧
      (∀ e ∈ d.unit.spans.entries, e.1 < d.unit.code.size) ∧
      Filled d.placed d.unit.code.size ∧
      ∀ p ∈ d.placed, ∀ i < p.length, d.unit.spans.spanAt? (p.position + i) = some p.span :=
  ⟨h.consistent.spans.increasing,
    fun e he => h.consistent.spans.before e (List.mem_reverse.mp he),
    h.consistent.filled, h.consistent.found⟩

/-- A jump shares the entry of the instruction before it, is dropped and emitted again with a span of its
own, and is pointed to its target. -/
theorem Drafted.keeps_spans_jump :
    let d := ((((({} : Draft).edit (.emit .true [] ⟨0, 4⟩)).edit
      (.emit .jumpIfFalse [CodeUnit.placeholder] ⟨0, 4⟩)).edit .removeLast).edit
      (.emit .jumpIfFalse [CodeUnit.placeholder] ⟨0, 9⟩)).edit (.patchJump 1 4)
    Drafted d ∧ (d.unit.spans.entries.map (·.1)).Pairwise (· < ·) ∧
      (∀ e ∈ d.unit.spans.entries, e.1 < d.unit.code.size) ∧
      Filled d.placed d.unit.code.size ∧
      ∀ p ∈ d.placed, ∀ i < p.length, d.unit.spans.spanAt? (p.position + i) = some p.span := by
  intro d
  have hd : Drafted d := by
    refine .edit (.edit (.edit (.edit (.edit .start _ ?_) _ ?_) _ ?_) _ ?_) _ ?_ <;> decide +kernel
  exact ⟨hd, hd.keeps_spans⟩

end StackScript
