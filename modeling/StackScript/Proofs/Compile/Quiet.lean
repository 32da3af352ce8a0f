import StackScript.Proofs.Compile.Limits
import StackScript.Proofs.Compile.WellFormed

/-! # Writing code

Most steps of the compiler only write to the code unit. They leave the scopes as they are, they take no
more constants and bytes than their size says, and they do not fail while there is room for these: what
is wrong with a program is found by other steps.
-/

namespace StackScript

/-- The second code unit is the first one, written further. -/
inductive CodeUnit.Evolves (u : CodeUnit) : CodeUnit → Prop
  | refl : u.Evolves u
  | append {u' : CodeUnit} (op : Opcode) (bytes : List UInt8) (span : Span) : u.Evolves u' →
      u.Evolves (u'.append op bytes span)
  | removeLast {u' : CodeUnit} : u.Evolves u' → u.Evolves u'.removeLast
  | returnLast {u' : CodeUnit} : u.Evolves u' → u.Evolves u'.returnLast
  | setOperand {u' : CodeUnit} (offset value : Nat) : u.Evolves u' →
      u.Evolves { u' with code := CodeUnit.setOperand u'.code offset value }
  | hold {u' : CodeUnit} (n : Nat) : u.Evolves u' → u.Evolves (u'.hold n)
  | release {u' : CodeUnit} (n : Nat) : u.Evolves u' → u.Evolves (u'.release n)
  | enterLoop {u' : CodeUnit} : u.Evolves u' → u.Evolves u'.enterLoop
  | leaveLoop {u' : CodeUnit} : u.Evolves u' → u.Evolves u'.leaveLoop.2
  | addBreak {u' : CodeUnit} (position : Nat) : u.Evolves u' → u.Evolves (u'.addBreak position)
  | addContinue {u' : CodeUnit} (position : Nat) : u.Evolves u' →
      u.Evolves (u'.addContinue position)

theorem CodeUnit.Evolves.trans {u u₁ u₂ : CodeUnit} (h₁ : u.Evolves u₁) (h₂ : u₁.Evolves u₂) :
    u.Evolves u₂ := by
  induction h₂ with
  | refl => exact h₁
  | append op bytes span _ ih => exact .append op bytes span ih
  | removeLast _ ih => exact .removeLast ih
  | returnLast _ ih => exact .returnLast ih
  | setOperand offset value _ ih => exact .setOperand offset value ih
  | hold n _ ih => exact .hold n ih
  | release n _ ih => exact .release n ih
  | enterLoop _ ih => exact .enterLoop ih
  | leaveLoop _ ih => exact .leaveLoop ih
  | addBreak position _ ih => exact .addBreak position ih
  | addContinue position _ ih => exact .addContinue position ih

structure CodeUnit.Level (u u' : CodeUnit) : Prop where
  evolves : u.Evolves u'
  loops : u'.loops.map (·.held) = u.loops.map (·.held)
  held : u'.held = u.held

namespace CodeUnit.Level

variable {u u' u₁ u₂ : CodeUnit}

theorem refl (u : CodeUnit) : u.Level u := ⟨.refl, rfl, rfl⟩

theorem trans (h₁ : u.Level u₁) (h₂ : u₁.Level u₂) : u.Level u₂ :=
  ⟨h₁.evolves.trans h₂.evolves, h₂.loops.trans h₁.loops, h₂.held.trans h₁.held⟩

theorem removeLast (u : CodeUnit) : u.Level u.removeLast := by
  refine ⟨.removeLast .refl, ?_, ?_⟩ <;> unfold CodeUnit.removeLast <;> split <;> rfl

theorem returnLast (u : CodeUnit) : u.Level u.returnLast := by
  refine ⟨.returnLast .refl, ?_, ?_⟩ <;> unfold CodeUnit.returnLast <;> split <;> rfl

theorem addBreak (u : CodeUnit) (position : Nat) : u.Level (u.addBreak position) := by
  refine ⟨.addBreak position .refl, ?_, ?_⟩ <;> unfold CodeUnit.addBreak <;> split <;> simp_all

theorem addContinue (u : CodeUnit) (position : Nat) : u.Level (u.addContinue position) := by
  refine ⟨.addContinue position .refl, ?_, ?_⟩ <;> unfold CodeUnit.addContinue <;> split <;>
    simp_all

theorem release {n : Nat} (h : (u.hold n).Level u') : u.Level (u'.release n) := by
  refine ⟨.release n ((Evolves.hold n .refl).trans h.evolves), h.loops, ?_⟩
  have hheld : u'.held = u.held + n := h.held
  simp [CodeUnit.release, hheld]

theorem leaveLoop (h : u.enterLoop.Level u') : u.Level u'.leaveLoop.2 := by
  have hloops : u'.loops.map (·.held) = u.held :: u.loops.map (·.held) := h.loops
  have hheld : u'.held = u.held := h.held
  refine ⟨.leaveLoop ((Evolves.enterLoop .refl).trans h.evolves), ?_, ?_⟩ <;>
    unfold CodeUnit.leaveLoop <;> split <;> simp_all

end CodeUnit.Level

/-- Only the code unit and the constants have been written, and they have grown by `n` at most. -/
structure Compiler.Writes (c : Compiler) (n : Size) (c' : Compiler) : Prop where
  scopes : c'.scopes = c.scopes
  unit : c.unit.Level c'.unit
  constants : c'.constants.size ≤ c.constants.size + n.constants
  bytes : c'.unit.code.size ≤ c.unit.code.size + n.bytes

/-- The code unit and the constants can grow by `n`: offsets and constants have 16 bits. -/
structure Compiler.Holds (c : Compiler) (n : Size) : Prop where
  constants : c.constants.size + n.constants ≤ 65536
  bytes : c.unit.code.size + n.bytes ≤ 65535

section Writes

variable {c c₁ c₂ : Compiler} {m n : Size}

theorem Compiler.Writes.refl (c : Compiler) (n : Size) : c.Writes n c :=
  ⟨rfl, .refl _, Nat.le_add_right _ _, Nat.le_add_right _ _⟩

theorem Compiler.Writes.trans (h₁ : c.Writes m c₁) (h₂ : c₁.Writes n c₂) : c.Writes (m + n) c₂ where
  scopes := h₂.scopes.trans h₁.scopes
  unit := h₁.unit.trans h₂.unit
  constants := by
    have := h₁.constants
    have := h₂.constants
    rw [Size.constants_add]
    omega
  bytes := by
    have := h₁.bytes
    have := h₂.bytes
    rw [Size.bytes_add]
    omega

theorem Compiler.Writes.add (h : c.Writes m c₁) (n : Size) : c.Writes (m + n) c₁ :=
  h.trans (.refl c₁ n)

theorem Compiler.Holds.left (h : c.Holds (m + n)) : c.Holds m where
  constants := Nat.le_trans (Nat.add_le_add_left (Nat.le_add_right _ _) _) h.constants
  bytes := Nat.le_trans (Nat.add_le_add_left (Nat.le_add_right _ _) _) h.bytes

theorem Compiler.Holds.right (h : c.Holds (m + n)) (hw : c.Writes m c₁) : c₁.Holds n where
  constants := by
    have := h.constants
    have := hw.constants
    rw [Size.constants_add] at *
    omega
  bytes := by
    have := h.bytes
    have := hw.bytes
    rw [Size.bytes_add] at *
    omega

end Writes

theorem CodeUnit.size_append (u : CodeUnit) (op : Opcode) (bytes : List UInt8) (span : Span) :
    (u.append op bytes span).code.size = u.code.size + bytes.length := by
  simp [CodeUnit.append]

theorem CodeUnit.size_removeLast_le (u : CodeUnit) : u.removeLast.code.size ≤ u.code.size := by
  unfold CodeUnit.removeLast
  split
  · exact Nat.le_trans (Nat.le_of_eq (Array.size_shrink ..)) (Nat.min_le_right _ _)
  · exact Nat.le_refl _

theorem CodeUnit.code_addBreak (u : CodeUnit) (position : Nat) :
    (u.addBreak position).code = u.code := by
  unfold CodeUnit.addBreak
  split <;> rfl

theorem CodeUnit.code_addContinue (u : CodeUnit) (position : Nat) :
    (u.addContinue position).code = u.code := by
  unfold CodeUnit.addContinue
  split <;> rfl

theorem CodeUnit.size_returnLast (u : CodeUnit) : u.returnLast.code.size = u.code.size := by
  unfold CodeUnit.returnLast
  split <;> simp

def Symbol.load (s : Symbol) : Size :=
  .instruction (if s.storage = .self then .currentClosure else .get)

theorem Symbol.operand_lt {s : Symbol} (h : s.index < Storage.slotLimit) : s.operand < 65536 := by
  have htag : s.storage.tag ≤ 3 := by cases s.storage <;> decide
  have hslots : s.storage.tag * Storage.slotLimit ≤ 3 * Storage.slotLimit :=
    Nat.mul_le_mul_right _ htag
  have hlimit : Storage.slotLimit = 16384 := rfl
  unfold Symbol.operand Storage.encode
  omega

namespace Compile

variable {α β : Type} {x : Compile α} {f : α → Compile β} {m n : Size} {ok ok' : Prop} {span : Span}

/-- The step only writes, and takes at most `n`. If its operands are in order, it fails only for want
of room or for a fault of the compiler. -/
def Quiet (ok : Prop) (n : Size) (x : Compile α) : Prop :=
  ∀ c, Gives x c (fun _ c' => c.Writes n c')
    fun e c' => c.Writes n c' ∧ (ok → c.Holds n → ∃ m, e.cause = .internal m)

namespace Quiet

theorem weaken (h : Quiet ok n x) (hok : ok' → ok) : Quiet ok' n x :=
  fun c => (h c).mono (fun _ _ hw => hw) fun _ _ he => ⟨he.1, fun hok' => he.2 (hok hok')⟩

theorem discard (h : Quiet ok n x) : Quiet ok n (discard x) := fun c => (h c).discard

theorem map (h : Quiet ok n x) (g : α → β) : Quiet ok n (g <$> x) :=
  fun c => ((h c).map g).mono (fun _ _ ⟨_, _, hc⟩ => hc) fun _ _ he => he

theorem pure (a : α) : Quiet ok n (Pure.pure a) := fun c => .refl c n

theorem bind (h : Quiet ok m x) (hf : ∀ a, Quiet ok n (f a)) : Quiet ok (m + n) (x >>= f) := by
  refine fun c => (h c).bind ?_ fun a c₁ h₁ => (hf a c₁).mono ?_ ?_
  · exact fun e c₁ he => ⟨he.1.add n, fun hok hc => he.2 hok hc.left⟩
  · exact fun _ _ h₂ => h₁.trans h₂
  · exact fun _ _ he => ⟨h₁.trans he.1, fun hok hc => he.2 hok (hc.right h₁)⟩

theorem bind_zero (h : Quiet ok 0 x) (hf : ∀ a, Quiet ok n (f a)) : Quiet ok n (x >>= f) :=
  zero_add n ▸ h.bind hf

/-- While there is room, the offset of the next instruction is one that a jump can lead to. -/
theorem here {f : Nat → Compile α} (hf : ∀ offset, Quiet (ok ∧ offset < 65536) n (f offset)) :
    Quiet ok n (here >>= f) := by
  refine fun c => Gives.reading (a := c.unit.code.size) rfl ((hf _ c).mono (fun _ _ hw => hw) ?_)
  refine fun _ _ he => ⟨he.1, fun hok hc => he.2 ⟨hok, ?_⟩ hc⟩
  have := hc.bytes
  omega

theorem modifyUnit {g : CodeUnit → CodeUnit} (h : ∀ u : CodeUnit, u.Level (g u))
    (hsize : ∀ u : CodeUnit, (g u).code.size ≤ u.code.size) : Quiet ok n (modifyUnit g) :=
  fun c => ⟨rfl, h c.unit, Nat.le_add_right _ _, Nat.le_add_right_of_le (hsize c.unit)⟩

theorem onUnit {step : Emit α} (h : ∀ u : CodeUnit, Gives step u
      (fun _ (u' : CodeUnit) => u.Level u' ∧ u'.code.size ≤ u.code.size + n.bytes)
      fun cause (u' : CodeUnit) => u' = u ∧ (ok → u.code.size + n.bytes ≤ 65535 →
        ∃ m, cause = .internal m)) : Quiet ok n (onUnit span step) := by
  refine fun c => (h c.unit).onUnit.mono ?_ ?_
  · rintro _ c' ⟨⟨hu, hsize⟩, hc⟩
    rw [hc]
    exact ⟨rfl, hu, Nat.le_add_right _ _, hsize⟩
  · rintro e c' ⟨⟨hu, he⟩, hc⟩
    rw [hu] at hc
    rw [hc]
    exact ⟨.refl c n, fun hok hholds => he hok hholds.bytes⟩

end Quiet

theorem internal_of_encode {i : Instruction} {e : EncodeError} (h : i.encode = .error e)
    (hi : ∀ n ∈ i.operands, n < 65536) : ∃ m, CompileError.Cause.ofEncodeError e = .internal m := by
  unfold Instruction.encode at h
  rw [Instruction.encodeOperands_eq i.op hi] at h
  split at h
  · cases h
  · cases h
    exact ⟨_, rfl⟩

theorem emit_quiet (op : Opcode) (operands : List Nat) :
    Quiet (∀ n ∈ operands, n < 65536) (.instruction op) (emit op operands span) := by
  refine .onUnit fun u => ?_
  unfold CodeUnit.emit
  split
  · next e he => exact ⟨rfl, fun hop _ => internal_of_encode he hop⟩
  · next bytes hbytes =>
    have hfits := Instruction.fits_of_encode hbytes
    rw [Instruction.encode_of_fits hfits] at hbytes
    obtain rfl := Except.ok.inj hbytes
    refine ⟨⟨.append _ _ _ .refl, rfl, rfl⟩, Nat.le_of_eq ?_⟩
    exact (CodeUnit.size_append ..).trans (congrArg _ (Instruction.length_bytes hfits))

theorem write_quiet (op : Opcode) (operands : List Nat) :
    Quiet (∀ n ∈ operands, n < 65536) (.instruction op) (discard (emit op operands span)) :=
  (emit_quiet op operands).discard

theorem write_simple (op : Opcode) : Quiet True (.instruction op) (discard (emit op [] span)) :=
  (write_quiet op []).weaken fun _ => nofun

theorem write_operand (op : Opcode) (operand : Nat) :
    Quiet (operand < 65536) (.instruction op) (discard (emit op [operand] span)) :=
  (write_quiet op [operand]).weaken fun h => List.forall_mem_singleton.mpr h

theorem emitJump_quiet (op : Opcode) : Quiet True (.instruction op) (emitJump op span) :=
  (emit_quiet op _).weaken fun _ => List.forall_mem_singleton.mpr (by decide)

theorem emitJumpTo_quiet (op : Opcode) (target : Nat) :
    Quiet (target < 65536) (.instruction op) (emitJumpTo op target span) := by
  unfold emitJumpTo
  split
  · exact write_operand op target
  · next h => exact fun c => ⟨.refl c _, fun hok => absurd hok h⟩

theorem patchJump_quiet (position target : Nat) :
    Quiet (target < 65536) 0 (patchJump position target span) := by
  refine .onUnit fun u => ?_
  unfold CodeUnit.patchJump
  split
  · refine Gives.reading (a := u) rfl ?_
    split
    · refine ⟨⟨.setOperand _ _ .refl, rfl, rfl⟩, Nat.le_of_eq ?_⟩
      simp [CodeUnit.setOperand]
    · exact .throw ⟨rfl, fun _ _ => ⟨_, rfl⟩⟩
  · next h => exact .throw ⟨rfl, fun hok => absurd hok h⟩

theorem patchHere_quiet (position : Nat) : Quiet True 0 (patchHere position span) :=
  .here fun offset => (patchJump_quiet position offset).weaken And.right

theorem patchExit_quiet (exit : Option Nat) : Quiet True 0 (patchExit span exit) := by
  cases exit with
  | none => exact .pure _
  | some position => exact patchHere_quiet position

theorem patchAll_quiet (target : Nat) (jumps : List Nat) :
    Quiet (target < 65536) 0 (patchAll target span jumps) := by
  induction jumps with
  | nil => exact .pure _
  | cons jump jumps ih => exact (patchJump_quiet jump target).bind_zero fun _ => ih

theorem emitPops_quiet (n : Nat) : Quiet True { bytes := n * Opcode.pop.length } (emitPops span n) := by
  induction n with
  | zero => exact .pure _
  | succ n ih =>
    have hsize : Size.instruction .pop + { bytes := n * Opcode.pop.length } =
        { bytes := (n + 1) * Opcode.pop.length } := by
      ext <;> simp [Size.instruction, Nat.succ_mul, Nat.add_comm]
    exact hsize ▸ (write_simple .pop).bind fun _ => ih

theorem addConstant_quiet (v : Value) {f : Nat → Compile α}
    (hf : ∀ index < 65536, Quiet ok n (f index)) :
    Quiet ok (.constant + n) (addConstant v span >>= f) := by
  have hadd (c : Compiler) : Gives (addConstant v span) c
      (fun index c' => index < 65536 ∧ c.Writes .constant c')
      fun _ c' => c' = c ∧ ¬c.Holds .constant := by
    refine Gives.reading (a := c) rfl ?_
    by_cases h : c.constants.size < constantLimit
    · rw [if_pos h]
      exact ⟨h, rfl, .refl _, Nat.le_of_eq (Array.size_push _), Nat.le_refl _⟩
    · rw [if_neg h]
      exact ⟨rfl, fun hc => h (Nat.lt_of_succ_le hc.constants)⟩
  refine fun c => (hadd c).bind ?_ fun index c₁ h₁ => (hf index h₁.1 c₁).mono ?_ ?_
  · rintro e _ ⟨rfl, hfull⟩
    exact ⟨.refl _ _, fun _ hc => absurd hc.left hfull⟩
  · exact fun _ _ h₂ => h₁.2.trans h₂
  · exact fun _ _ he => ⟨h₁.2.trans he.1, fun hok hc => he.2 hok (hc.right h₁.2)⟩

theorem emitConstant_quiet (v : Value) : Quiet True .literal (emitConstant v span) :=
  addConstant_quiet v fun index hindex =>
    (write_operand .constant index).weaken fun _ => hindex

theorem load_quiet (s : Symbol) : Quiet (s.index < Storage.slotLimit) s.load (load s span) := by
  have hget : Quiet (s.index < Storage.slotLimit) (.instruction .get)
      (Functor.discard (emit .get [s.operand] span)) :=
    (write_operand .get _).weaken Symbol.operand_lt
  unfold load Symbol.load
  cases s.storage with
  | self => exact (write_simple .currentClosure).weaken fun _ => trivial
  | _ => exact hget

/-! ## The end of a body -/

theorem reading_unit {f : CodeUnit → Compile α} (hf : ∀ u, Quiet ok n (f u)) :
    Quiet ok n (unit >>= f) :=
  fun c => Gives.reading (a := c.unit) rfl (hf c.unit c)

theorem keepBlockValue_quiet : Quiet True (.instruction .null) (keepBlockValue span) := by
  refine reading_unit fun u => ?_
  split
  · exact .modifyUnit .removeLast CodeUnit.size_removeLast_le
  · exact write_simple .null

theorem returnBodyValue_quiet : Quiet True (.instruction .ret) (returnBodyValue span) := by
  refine reading_unit fun u => ?_
  split
  · exact .modifyUnit .returnLast fun u => Nat.le_of_eq u.size_returnLast
  · split
    · exact .pure _
    · exact write_simple .ret

def closing (span : Span) : Closing → Compile Unit
  | .plain => pure ()
  | .branch => keepBlockValue span
  | .body => returnBodyValue span

theorem closing_quiet (how : Closing) : Quiet True (how.size none) (closing span how) := by
  cases how with
  | plain => exact .pure _
  | branch => exact keepBlockValue_quiet
  | body => exact returnBodyValue_quiet

section Last

variable {c : Compiler} {last : Span}

theorem write_apply {op : Opcode} (h : op.operandCount = 0) :
    Functor.discard (emit op [] span) c =
      (.ok ⟨⟩, { c with unit := c.unit.append op [op.byte] span }) := by
  have hencode : (⟨op, []⟩ : Instruction).encode = .ok [op.byte] := by
    simp [Instruction.encode, h, Instruction.encodeOperands, Except.map]
  simp only [discard_apply, emit, onUnit, CodeUnit.emit, hencode]
  rfl

/-- The value of a last expression is not dropped where it is wanted. -/
theorem drop_closing_quiet (how : Closing) (e : Expr) (s : Span) :
    Quiet True (how.size (some (.expr e s)))
      (Functor.discard (emit .pop [] last) >>= fun _ => closing span how) := by
  intro c
  have hwrite : c.unit.Level (c.unit.append .pop [Opcode.pop.byte] last) :=
    ⟨.append _ _ _ .refl, rfl, rfl⟩
  unfold Gives
  rw [bind_apply, write_apply rfl]
  cases how with
  | plain => exact ⟨rfl, hwrite, Nat.le_refl _, Nat.le_of_eq (CodeUnit.size_append ..)⟩
  | branch =>
    refine ⟨rfl, hwrite.trans (.removeLast _), Nat.le_refl _, ?_⟩
    exact Nat.le_trans (Nat.le_of_eq (Array.size_shrink ..)) (Nat.min_le_left _ _)
  | body =>
    refine ⟨rfl, hwrite.trans (.returnLast _), Nat.le_refl _, Nat.le_of_eq ?_⟩
    exact (CodeUnit.size_returnLast _).trans (CodeUnit.size_append ..)

/-- A body that ends with a `return` needs no other one. -/
theorem ret_closing_quiet (how : Closing) (value : Option Expr) (s : Span) {op : Opcode}
    (hop : op = .ret ∨ op = .retValue) :
    Quiet True (.instruction op + how.size (some (.ret value s)))
      (Functor.discard (emit op [] last) >>= fun _ => closing span how) := by
  cases how with
  | plain => exact (write_simple op).bind fun _ => .pure _
  | branch => exact (write_simple op).bind fun _ => keepBlockValue_quiet
  | body =>
    intro c
    have hwrite : c.unit.Level (c.unit.append op [op.byte] last) := ⟨.append _ _ _ .refl, rfl, rfl⟩
    unfold Gives
    rcases hop with rfl | rfl <;> rw [bind_apply, write_apply rfl] <;>
      exact ⟨rfl, hwrite, Nat.le_refl _, Nat.le_of_eq (CodeUnit.size_append ..)⟩

end Last

end Compile

end StackScript
