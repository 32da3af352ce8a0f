import StackScript.Proofs.Code.SpanMap
import StackScript.Proofs.Compile.Layout
import StackScript.Proofs.Effect

/-! # Code units and listings

A code unit writes a listing when its bytes are those of the listing. Jumps are written before their
targets are known, so the unit goes with the targets patched so far: in the bytes, the other jumps
have the placeholder.
-/

namespace StackScript

/-- Items stand one behind the other, from `start` up to `stop`. -/
def Tiled : Nat → List Item → Nat → Prop
  | start, [], stop => start = stop
  | start, i :: is, stop => i.offset = start ∧ Tiled (start + i.op.length) is stop

section Tiled

variable {start mid stop : Nat} {i : Item} {is js : List Item}

theorem tiled_append : Tiled start (is ++ js) stop ↔
    ∃ mid, Tiled start is mid ∧ Tiled mid js stop := by
  induction is generalizing start with
  | nil => simp [Tiled]
  | cons i is ih => simp [Tiled, ih, and_assoc]

theorem Tiled.le (h : Tiled start is stop) : start ≤ stop := by
  induction is generalizing start with
  | nil => exact Nat.le_of_eq h
  | cons i is ih =>
    have := ih h.2
    omega

theorem Tiled.unique {stop' : Nat} (h : Tiled start is stop) (h' : Tiled start is stop') :
    stop = stop' := by
  induction is generalizing start with
  | nil => exact h.symm.trans h'
  | cons i is ih => exact ih h.2 h'.2

theorem Tiled.bounds (h : Tiled start is stop) (hi : i ∈ is) :
    start ≤ i.offset ∧ i.offset + i.op.length ≤ stop := by
  induction is generalizing start with
  | nil => simp at hi
  | cons j is ih =>
    obtain ⟨rfl, hrest⟩ := h
    rcases List.mem_cons.mp hi with rfl | hi
    · exact ⟨Nat.le_refl _, hrest.le⟩
    · have := ih hrest hi
      omega

theorem Tiled.offset_lt (h : Tiled start is stop) (hi : i ∈ is) : i.offset < stop := by
  have := (h.bounds hi).2
  have := i.op.length_pos
  omega

theorem Tiled.offset_ne {j : Item} (h : Tiled start (is ++ i :: js) stop) (hj : j ∈ is ∨ j ∈ js) :
    j.offset ≠ i.offset := by
  obtain ⟨mid, h₁, h₂⟩ := tiled_append.mp h
  have := i.op.length_pos
  have := j.op.length_pos
  rcases hj with hj | hj
  · have := h₁.bounds hj
    have := h₂.1
    omega
  · have := h₂.2.bounds hj
    have := h₂.1
    omega

theorem Tiled.length_assemble (h : Tiled start is stop) (hf : ∀ i ∈ is, i.Fits) :
    start + (assemble (is.map (·.toInstruction))).length = stop := by
  induction is generalizing start with
  | nil => exact h
  | cons i is ih =>
    have hrest := ih h.2 fun j hj => hf j (by simp [hj])
    rw [List.map_cons, assemble_cons, List.length_append,
      Instruction.length_bytes (hf i (by simp)), ← hrest]
    omega

end Tiled

def Opcode.isJump (op : Opcode) : Bool := op = .jump || op = .jumpIfFalse

theorem Opcode.isJump_iff {op : Opcode} : op.isJump ↔ op = .jump ∨ op = .jumpIfFalse := by
  simp [isJump]

theorem Opcode.operandCount_of_isJump {op : Opcode} (h : op.isJump) : op.operandCount = 1 := by
  rcases isJump_iff.mp h with rfl | rfl <;> rfl

theorem Opcode.length_of_isJump {op : Opcode} (h : op.isJump) : op.length = 3 := by
  rcases isJump_iff.mp h with rfl | rfl <;> rfl

/-- The targets of the jumps that have been patched, by the offset of the jump. -/
abbrev Targets := Nat → Option Nat

namespace Targets

/-- The operand of every jump. -/
def operand (σ : Targets) (offset : Nat) : Nat := (σ offset).getD CodeUnit.placeholder

def set (σ : Targets) (offset target : Nat) : Targets :=
  fun p => if p = offset then some target else σ p

@[simp] theorem set_self (σ : Targets) (p t : Nat) : σ.set p t p = some t := if_pos rfl

theorem set_of_ne (σ : Targets) {p q : Nat} (t : Nat) (h : q ≠ p) : σ.set p t q = σ q := if_neg h

end Targets

namespace Item

def aim (τ : Nat → Nat) (i : Item) : Item :=
  if i.op.isJump then { i with operands := [τ i.offset] } else i

variable {τ τ' : Nat → Nat} {i : Item}

@[simp] theorem op_aim : (i.aim τ).op = i.op := by unfold aim; split <;> rfl

@[simp] theorem offset_aim : (i.aim τ).offset = i.offset := by unfold aim; split <;> rfl

@[simp] theorem span_aim : (i.aim τ).span = i.span := by unfold aim; split <;> rfl

theorem aim_of_not_isJump (h : i.op.isJump = false) : i.aim τ = i := by
  unfold aim; rw [h]; rfl

theorem aim_of_isJump (h : i.op.isJump = true) : i.aim τ = { i with operands := [τ i.offset] } :=
  if_pos h

theorem aim_congr (h : i.op.isJump = true → τ i.offset = τ' i.offset) : i.aim τ = i.aim τ' := by
  cases hj : i.op.isJump with
  | false => rw [aim_of_not_isJump hj, aim_of_not_isJump hj]
  | true => rw [aim_of_isJump hj, aim_of_isJump hj, h hj]

def emitted (i : Item) : Emitted := ⟨i.op, i.offset⟩

end Item

def aimed (τ : Nat → Nat) (is : List Item) : List Item := is.map (·.aim τ)

@[simp] theorem aimed_nil (τ : Nat → Nat) : aimed τ [] = [] := rfl

@[simp] theorem aimed_append (τ : Nat → Nat) (is js : List Item) :
    aimed τ (is ++ js) = aimed τ is ++ aimed τ js := List.map_append

@[simp] theorem aimed_cons (τ : Nat → Nat) (i : Item) (is : List Item) :
    aimed τ (i :: is) = i.aim τ :: aimed τ is := rfl

@[simp] theorem aimed_singleton (τ : Nat → Nat) (i : Item) : aimed τ [i] = [i.aim τ] := rfl

theorem aimed_congr {τ τ' : Nat → Nat} {is : List Item}
    (h : ∀ i ∈ is, i.op.isJump = true → τ i.offset = τ' i.offset) : aimed τ is = aimed τ' is :=
  List.map_congr_left fun i hi => Item.aim_congr (h i hi)

theorem Tiled.aimed {start stop : Nat} {is : List Item} (h : Tiled start is stop) (τ : Nat → Nat) :
    Tiled start (aimed τ is) stop := by
  induction is generalizing start with
  | nil => exact h
  | cons i is ih => exact ⟨by simpa using h.1, by rw [Item.op_aim]; exact ih h.2⟩

namespace SpanMap.Locates

variable {m : SpanMap} {is : List Item} {i : Item} {start size : Nat}

theorem push (h : m.Locates is) (hm : m.Below size) (ht : Tiled start is size) (ho : i.offset = size) :
    (m.push size i.span).Locates (is ++ [i]) := by
  intro j hj hmax
  rcases List.mem_append.mp hj with hj | hj
  · have hlt := ht.offset_lt hj
    rw [spanAt?_push_of_lt (by omega)]
    exact h j hj hmax
  · obtain rfl := List.mem_singleton.mp hj
    rw [ho] at hmax ⊢
    exact spanAt?_push_self hm (Nat.le_of_lt hmax)

theorem truncate (h : m.Locates (is ++ [i])) (ht : Tiled start is size) :
    (m.truncate size).Locates is := by
  intro j hj hmax
  have hlt := ht.offset_lt hj
  rw [spanAt?_truncate_of_lt (by omega)]
  exact h j (List.mem_append_left _ hj) hmax

theorem aimed (h : m.Locates is) (τ : Nat → Nat) : m.Locates (aimed τ is) := by
  intro j hj hmax
  obtain ⟨k, hk, rfl⟩ := List.mem_map.mp hj
  rw [Item.offset_aim] at hmax ⊢
  rw [Item.span_aim]
  exact h k hk hmax

end SpanMap.Locates

namespace CodeUnit

/-- The unit has written the listing `items`, of which the targets `σ` are patched. -/
structure Writes (u : CodeUnit) (items : List Item) (σ : Targets) : Prop where
  code : u.code.toList = assemble ((aimed σ.operand items).map (·.toInstruction))
  tiled : Tiled 0 items u.code.size
  fits : ∀ i ∈ items, (i.aim σ.operand).Fits
  last : u.last = items.getLast?.map Item.emitted
  /-- Only jumps are patched. -/
  jumps : ∀ p t, σ p = some t → ∃ i ∈ items, i.op.isJump = true ∧ i.offset = p
  spans : u.spans.Locates items
  entries : u.spans.Below u.code.size

/-- The unit knows the instruction before the last one. -/
def Recalls (u : CodeUnit) (items : List Item) : Prop :=
  u.previous = items.dropLast.getLast?.map Item.emitted

variable {u u' : CodeUnit} {items : List Item} {σ σ' : Targets} {i : Item}

theorem Writes.empty : Writes {} [] fun _ => none where
  code := rfl
  tiled := rfl
  fits i hi := by simp at hi
  last := rfl
  jumps p t h := by simp at h
  spans i hi := by simp at hi
  entries e he := by simp at he

theorem Writes.congr (h : u.Writes items σ) (hcode : u'.code = u.code) (hspans : u'.spans = u.spans)
    (hlast : u'.last = u.last) : u'.Writes items σ := by
  obtain ⟨code, spans, last, previous, loops, held⟩ := u
  obtain ⟨code', spans', last', previous', loops', held'⟩ := u'
  subst hcode hspans hlast
  exact ⟨h.code, h.tiled, h.fits, h.last, h.jumps, h.spans, h.entries⟩

theorem Writes.lt_size (h : u.Writes items σ) (hi : i ∈ items) :
    i.offset + i.op.length ≤ u.code.size := (h.tiled.bounds hi).2

theorem Writes.unpatched (h : u.Writes items σ) {p : Nat} (hp : u.code.size ≤ p) : σ p = none := by
  cases hσ : σ p with
  | none => rfl
  | some t =>
    obtain ⟨i, hi, -, rfl⟩ := h.jumps p t hσ
    have := h.lt_size hi
    have := i.op.length_pos
    omega

/-- An item that fits goes behind the listing. Its target, if it is a jump, may be patched at once. -/
theorem Writes.append (h : u.Writes items σ) (hσ : ∀ p < u.code.size, σ' p = σ p)
    (hj : ∀ p t, u.code.size ≤ p → σ' p = some t → i.op.isJump = true ∧ i.offset = p)
    (ho : i.offset = u.code.size) (hf : (i.aim σ'.operand).Fits) :
    (u.append i.op (i.aim σ'.operand).bytes i.span).Writes (items ++ [i]) σ' := by
  have haim : aimed σ'.operand items = aimed σ.operand items := by
    refine aimed_congr fun j hj _ => ?_
    have hlt := h.lt_size hj
    have hpos := j.op.length_pos
    simp only [Targets.operand, hσ j.offset (by omega)]
  have hsize : (u.append i.op (i.aim σ'.operand).bytes i.span).code.size =
      u.code.size + i.op.length := by
    simp [CodeUnit.append, Instruction.length_bytes hf]
  refine ⟨?_, ?_, ?_, ?_, ?_, ?_, ?_⟩
  · simp [CodeUnit.append, h.code, haim]
  · rw [hsize, tiled_append]
    exact ⟨_, h.tiled, ho, rfl⟩
  · intro j hj
    rcases List.mem_append.mp hj with hj | hj
    · have hsame : j.aim σ'.operand = j.aim σ.operand := by
        refine Item.aim_congr fun _ => ?_
        have hlt := h.lt_size hj
        have hpos := j.op.length_pos
        simp only [Targets.operand, hσ j.offset (by omega)]
      rw [hsame]
      exact h.fits j hj
    · obtain rfl := List.mem_singleton.mp hj
      exact hf
  · simp [CodeUnit.append, Item.emitted, ho]
  · intro p t hp
    by_cases hlt : p < u.code.size
    · rw [hσ p hlt] at hp
      obtain ⟨j, hj, hjump, rfl⟩ := h.jumps p t hp
      exact ⟨j, by simp [hj], hjump, rfl⟩
    · obtain ⟨hjump, rfl⟩ := hj p t (Nat.le_of_not_lt hlt) hp
      exact ⟨i, by simp, hjump, rfl⟩
  · exact h.spans.push h.entries h.tiled ho
  · rw [hsize]
    exact (h.entries.mono (Nat.le_add_right ..)).push (Nat.le_add_right ..)

/-- What has happened to a unit to which an item was added. -/
structure Appended (u : CodeUnit) (items : List Item) (σ : Targets) (i : Item) (u' : CodeUnit) :
    Prop where
  writes : u'.Writes (items ++ [i]) σ
  recalls : u'.Recalls (items ++ [i])
  size : u'.code.size = u.code.size + i.op.length
  loops : u'.loops = u.loops
  held : u'.held = u.held

theorem Writes.emit_aimed (h : u.Writes items σ) (hσ : ∀ p < u.code.size, σ' p = σ p)
    (hj : ∀ p t, u.code.size ≤ p → σ' p = some t → i.op.isJump = true ∧ i.offset = p)
    (ho : i.offset = u.code.size) (hc : (i.aim σ'.operand).operands.length = i.op.operandCount) :
    Gives (CodeUnit.emit i.op (i.aim σ'.operand).operands i.span) u
      (fun position u' => position = u.code.size ∧ u.Appended items σ' i u')
      (fun e u' => u' = u ∧ ∃ n, e = .operandTooLarge i.op n) := by
  unfold CodeUnit.emit
  have hi : (⟨i.op, (i.aim σ'.operand).operands⟩ : Instruction) =
      (i.aim σ'.operand).toInstruction := by
    rw [← Item.op_aim (τ := σ'.operand)]
  rw [hi]
  cases he : (i.aim σ'.operand).toInstruction.encode with
  | error e =>
    refine ⟨rfl, ?_⟩
    simp only [Instruction.encode, Item.op_aim, hc, if_true] at he
    cases hr : Instruction.encodeOperands i.op (i.aim σ'.operand).operands with
    | ok bs => simp [hr, Except.map] at he
    | error e' =>
      obtain ⟨n, rfl⟩ := Instruction.encodeOperands_error hr
      simp only [hr, Except.map, Except.error.injEq] at he
      exact ⟨n, by rw [← he]; rfl⟩
  | ok bytes =>
    have hf : (i.aim σ'.operand).Fits := Instruction.fits_of_encode he
    have hb : bytes = (i.aim σ'.operand).bytes := by
      rw [Instruction.encode_of_fits hf] at he
      exact (Except.ok.inj he).symm
    have hw := h.append hσ hj ho hf
    have hsize : (u.append i.op bytes i.span).code.size = u.code.size + i.op.length := by
      obtain ⟨mid, h₁, h₂⟩ := tiled_append.mp hw.tiled
      rw [hb, ← h₂.2, ← h₂.1, ho]
    rw [← hb] at hw
    exact ⟨rfl, hw, by simp [Recalls, CodeUnit.append, h.last], hsize, rfl, rfl⟩

theorem Writes.emit (h : u.Writes items σ) (hn : i.op.isJump = false) (ho : i.offset = u.code.size)
    (hc : i.operands.length = i.op.operandCount) :
    Gives (CodeUnit.emit i.op i.operands i.span) u
      (fun position u' => position = u.code.size ∧ u.Appended items σ i u')
      (fun e u' => u' = u ∧ ∃ n, e = .operandTooLarge i.op n) := by
  have hop : (i.aim σ.operand).operands = i.operands := by rw [Item.aim_of_not_isJump hn]
  have := h.emit_aimed (fun p _ => rfl)
    (fun p t hp ht => by rw [h.unpatched hp] at ht; cases ht) ho (hop ▸ hc)
  rwa [hop] at this

theorem Writes.emitJump (h : u.Writes items σ) (hj : i.op.isJump = true)
    (ho : i.offset = u.code.size) :
    Gives (CodeUnit.emit i.op [placeholder] i.span) u
      (fun position u' => position = u.code.size ∧ u.Appended items σ i u')
      (fun e u' => u' = u ∧ ∃ n, e = .operandTooLarge i.op n) := by
  have hop : (i.aim σ.operand).operands = [placeholder] := by
    rw [Item.aim_of_isJump hj]
    simp [Targets.operand, h.unpatched (Nat.le_of_eq ho.symm)]
  have hc : (i.aim σ.operand).operands.length = i.op.operandCount := by
    rw [hop, Opcode.operandCount_of_isJump hj, List.length_singleton]
  have := h.emit_aimed (fun p _ => rfl)
    (fun p t hp ht => by rw [h.unpatched hp] at ht; cases ht) ho hc
  rwa [hop] at this

theorem Writes.emitJumpTo (h : u.Writes items σ) (hj : i.op.isJump = true)
    (ho : i.offset = u.code.size) (target : Nat) :
    Gives (CodeUnit.emit i.op [target] i.span) u
      (fun position u' => position = u.code.size ∧ u.Appended items (σ.set i.offset target) i u')
      (fun e u' => u' = u ∧ ∃ n, e = .operandTooLarge i.op n) := by
  have hop : (i.aim (σ.set i.offset target).operand).operands = [target] := by
    rw [Item.aim_of_isJump hj]
    simp [Targets.operand]
  have hc : (i.aim (σ.set i.offset target).operand).operands.length = i.op.operandCount := by
    rw [hop, Opcode.operandCount_of_isJump hj, List.length_singleton]
  have := h.emit_aimed (fun p hp => σ.set_of_ne target (by omega))
    (fun p t hp ht => ⟨hj, Decidable.byContradiction fun hne => by
      rw [σ.set_of_ne target fun e => hne e.symm, h.unpatched hp] at ht
      cases ht⟩) ho hc
  rwa [hop] at this

theorem Writes.code_concat (h : u.Writes (items ++ [i]) σ) :
    Tiled 0 items i.offset ∧ (assemble ((aimed σ.operand items).map (·.toInstruction))).length =
      i.offset := by
  obtain ⟨mid, h₁, rfl, -⟩ := tiled_append.mp h.tiled
  have hlen := (h₁.aimed σ.operand).length_assemble fun j hj => by
    obtain ⟨k, hk, rfl⟩ := List.mem_map.mp hj
    exact h.fits k (by simp [hk])
  exact ⟨h₁, by simpa using hlen⟩

theorem Writes.removeLast (h : u.Writes (items ++ [i]) σ) (hr : u.Recalls (items ++ [i]))
    (hn : i.op.isJump = false) : u.removeLast.Writes items σ ∧
      u.removeLast.code.size = i.offset ∧ u.removeLast.loops = u.loops ∧
      u.removeLast.held = u.held := by
  obtain ⟨htiled, hlen⟩ := h.code_concat
  have hlast : u.last = some i.emitted := by simpa using h.last
  have hrem : u.removeLast = { u with
      code := u.code.shrink i.offset
      spans := u.spans.truncate i.offset
      last := u.previous
      previous := none } := by
    simp [CodeUnit.removeLast, hlast, Item.emitted]
  have hcode : u.removeLast.code.toList =
      assemble ((aimed σ.operand items).map (·.toInstruction)) := by
    rw [hrem]
    simp [h.code, ← hlen]
  have hsize : u.removeLast.code.size = i.offset := by
    rw [← hlen, ← hcode, Array.length_toList]
  refine ⟨⟨hcode, by rwa [hsize], fun j hj => h.fits j (by simp [hj]), ?_, ?_, ?_, ?_⟩, hsize, ?_, ?_⟩
  · rw [hrem]
    simpa [Recalls] using hr
  · intro p t hp
    obtain ⟨j, hj, hjump, rfl⟩ := h.jumps p t hp
    rcases List.mem_append.mp hj with hj | hj
    · exact ⟨j, hj, hjump, rfl⟩
    · rw [List.mem_singleton.mp hj, hn] at hjump
      cases hjump
  · rw [hrem]
    exact h.spans.truncate htiled
  · rw [hsize, hrem]
    exact .truncate
  · rw [hrem]
  · rw [hrem]

theorem Writes.returnLast (h : u.Writes (items ++ [i]) σ) (hi : i.toInstruction = ⟨.pop, []⟩) :
    u.returnLast.Writes (items ++ [{ i with toInstruction := ⟨.retValue, []⟩ }]) σ ∧
      u.returnLast.code.size = u.code.size := by
  obtain ⟨instr, offset, span, height, loaded, literal⟩ := i
  obtain rfl : instr = ⟨.pop, []⟩ := hi
  obtain ⟨htiled, hlen⟩ := h.code_concat
  have hlast : u.last = some ⟨.pop, offset⟩ := by simpa [Item.emitted] using h.last
  have hret : u.returnLast = { u with
      code := u.code.setIfInBounds offset Opcode.retValue.byte
      last := some ⟨.retValue, offset⟩ } := by
    simp [CodeUnit.returnLast, hlast]
  have hcode : u.code.toList = assemble ((aimed σ.operand items).map (·.toInstruction)) ++
      [Opcode.pop.byte] := by
    rw [h.code]
    simp [Item.aim_of_not_isJump, Opcode.isJump, Instruction.bytes]
  have hsize : u.returnLast.code.size = u.code.size := by rw [hret]; simp
  refine ⟨⟨?_, ?_, ?_, ?_, ?_, ?_, ?_⟩, hsize⟩
  · simp only at hlen
    rw [hret]
    simp [hcode, ← hlen, Item.aim_of_not_isJump, Opcode.isJump, Instruction.bytes]
  · obtain ⟨mid, h₁, h₂⟩ := tiled_append.mp h.tiled
    rw [hsize, tiled_append]
    exact ⟨mid, h₁, h₂⟩
  · intro j hj
    rcases List.mem_append.mp hj with hj | hj
    · exact h.fits j (by simp [hj])
    · rw [List.mem_singleton.mp hj, Item.aim_of_not_isJump rfl]
      exact ⟨rfl, by simp⟩
  · rw [hret]
    simp [Item.emitted]
  · intro p t hp
    obtain ⟨j, hj, hjump, rfl⟩ := h.jumps p t hp
    rcases List.mem_append.mp hj with hj | hj
    · exact ⟨j, by simp [hj], hjump, rfl⟩
    · rw [List.mem_singleton.mp hj] at hjump
      cases hjump
  · rw [hret]
    intro j hj
    rcases List.mem_append.mp hj with hj | hj
    · exact h.spans j (by simp [hj])
    · obtain rfl := List.mem_singleton.mp hj
      exact h.spans ⟨⟨.pop, []⟩, offset, span, height, loaded, literal⟩ (by simp)
  · rw [hsize, hret]
    exact h.entries

theorem setOperand_toList {code : Code} {before after : List UInt8} {b : UInt8} (m n : Nat)
    (h : code.toList = before ++ b :: (Instruction.operandBytes m ++ after)) :
    (setOperand code (before.length + 1) n).toList =
      before ++ b :: (Instruction.operandBytes n ++ after) := by
  simp only [Instruction.operandBytes, List.cons_append, List.nil_append] at h ⊢
  rw [setOperand, Array.toList_setIfInBounds, Array.toList_setIfInBounds, h]
  simp [Nat.add_assoc]

theorem Writes.patchJump (h : u.Writes items σ) (hi : i ∈ items) (hj : i.op.isJump = true)
    (target : Nat) :
    Gives (CodeUnit.patchJump i.offset target) u
      (fun _ u' => u'.Writes items (σ.set i.offset target) ∧ u' = { u with code := u'.code } ∧
        u'.code.size = u.code.size)
      (fun e u' => u' = u ∧ e = .jumpOutOfRange target) := by
  unfold CodeUnit.patchJump
  rcases Decidable.em (target < 65536) with ht | ht
  case inr =>
    rw [if_neg ht]
    exact ⟨rfl, rfl⟩
  have hroom : i.offset + 3 ≤ u.code.size := by
    have := h.lt_size hi
    rwa [Opcode.length_of_isJump hj] at this
  rw [if_pos ht]
  refine Gives.reading (a := u) rfl ?_
  rw [if_pos hroom]
  obtain ⟨before, after, rfl⟩ := List.append_of_mem hi
  have hsame {j : Item} (hmem : j ∈ before ∨ j ∈ after) :
      j.aim (σ.set i.offset target).operand = j.aim σ.operand :=
    Item.aim_congr fun _ => by
      simp only [Targets.operand, σ.set_of_ne target (h.tiled.offset_ne hmem)]
  have hmap {is : List Item} (his : ∀ j ∈ is, j ∈ before ∨ j ∈ after) :
      aimed (σ.set i.offset target).operand is = aimed σ.operand is :=
    List.map_congr_left fun j hj => hsame (his j hj)
  obtain ⟨mid, h₁, h₂⟩ := tiled_append.mp h.tiled
  obtain rfl : i.offset = mid := h₂.1
  have hb : (assemble ((aimed σ.operand before).map (·.toInstruction))).length = i.offset := by
    have hlen := (h₁.aimed σ.operand).length_assemble fun j hj => by
      obtain ⟨k, hk, rfl⟩ := List.mem_map.mp hj
      exact h.fits k (by simp [hk])
    simpa using hlen
  have hcode := h.code
  simp only [aimed_append, aimed_cons, List.map_cons, Item.aim_of_isJump hj, List.map_append,
    assemble_append, assemble_cons, Instruction.bytes, List.flatMap_cons, List.flatMap_nil,
    List.append_nil, List.cons_append] at hcode
  have hset := setOperand_toList _ target hcode
  rw [hb] at hset
  have hsize : (setOperand u.code (i.offset + 1) target).size = u.code.size := by
    simp [setOperand]
  refine ⟨⟨?_, ?_, ?_, h.last, ?_, h.spans, ?_⟩, rfl, hsize⟩
  · change (setOperand u.code (i.offset + 1) target).toList = _
    rw [hset, aimed_append, aimed_cons, hmap fun j hj => .inl hj, hmap fun j hj => .inr hj]
    simp [Item.aim_of_isJump hj, Targets.operand, Instruction.bytes, assemble_cons]
  · change Tiled 0 _ (setOperand u.code (i.offset + 1) target).size
    rw [hsize]
    exact h.tiled
  · intro j hmem
    rcases List.mem_append.mp hmem with hb | hb
    · rw [hsame (.inl hb)]
      exact h.fits j hmem
    rcases List.mem_cons.mp hb with rfl | hb
    · rw [Item.aim_of_isJump hj]
      exact ⟨by simp [Opcode.operandCount_of_isJump hj], by simpa [Targets.operand] using ht⟩
    · rw [hsame (.inr hb)]
      exact h.fits j hmem
  · intro p t hp
    by_cases hpi : p = i.offset
    · exact ⟨i, hi, hj, hpi.symm⟩
    · rw [σ.set_of_ne target hpi] at hp
      exact h.jumps p t hp
  · change u.spans.Below (setOperand u.code (i.offset + 1) target).size
    rw [hsize]
    exact h.entries

end CodeUnit

end StackScript
