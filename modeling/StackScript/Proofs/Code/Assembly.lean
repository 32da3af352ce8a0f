import StackScript.Code.Instruction

/-! # Assembly

The bytes of a list of instructions. Decoding at the offset of an instruction gives it back, so the
bytes of a list decode to that list and to nothing else.
-/

namespace StackScript

namespace Instruction

/-- The bytes of an instruction whose operands fit. -/
def bytes (i : Instruction) : List UInt8 := i.op.byte :: i.operands.flatMap operandBytes

/-- The operands are as many as the opcode wants, each a 16-bit number. -/
def Fits (i : Instruction) : Prop :=
  i.operands.length = i.op.operandCount ∧ ∀ n ∈ i.operands, n < 65536

theorem encodeOperands_eq (op : Opcode) {ns : List Nat} (h : ∀ n ∈ ns, n < 65536) :
    encodeOperands op ns = .ok (ns.flatMap operandBytes) := by
  induction ns with
  | nil => rfl
  | cons n ns ih =>
    have hn : n < 65536 := h n (by simp)
    have hns := ih fun m hm => h m (by simp [hm])
    simp [encodeOperands, hn, hns, Except.map]

theorem encodeOperands_error {op : Opcode} {ns : List Nat} {e : EncodeError}
    (h : encodeOperands op ns = .error e) : ∃ n, e = .operandOverflow op n := by
  induction ns with
  | nil => simp [encodeOperands] at h
  | cons n ns ih =>
    rw [encodeOperands] at h
    split at h
    · cases hr : encodeOperands op ns with
      | ok bs => simp [hr, Except.map] at h
      | error e' =>
        simp only [hr, Except.map, Except.error.injEq] at h
        exact ih (by rw [hr, h])
    · exact ⟨n, by simpa using h.symm⟩

theorem encode_of_fits {i : Instruction} (h : i.Fits) : i.encode = .ok i.bytes := by
  simp [encode, h.1, encodeOperands_eq i.op h.2, Except.map, bytes]

theorem fits_of_encodeOperands {op : Opcode} {ns : List Nat} {bs : List UInt8}
    (h : encodeOperands op ns = .ok bs) : ∀ n ∈ ns, n < 65536 := by
  induction ns generalizing bs with
  | nil => simp
  | cons n ns ih =>
    rw [encodeOperands] at h
    split at h
    · next hn =>
      cases hr : encodeOperands op ns with
      | error e => simp [hr, Except.map] at h
      | ok bs' =>
        intro m hm
        rcases List.mem_cons.mp hm with rfl | hm
        · exact hn
        · exact ih hr m hm
    · simp at h

theorem fits_of_encode {i : Instruction} {bs : List UInt8} (h : i.encode = .ok bs) :
    i.Fits := by
  rw [encode] at h
  split at h
  · next hl =>
    cases hr : encodeOperands i.op i.operands with
    | error e => simp [hr, Except.map] at h
    | ok bs' => exact ⟨hl, fits_of_encodeOperands hr⟩
  · simp at h

theorem length_flatMap_operandBytes (ns : List Nat) :
    (ns.flatMap operandBytes).length = 2 * ns.length := by
  induction ns with
  | nil => rfl
  | cons n ns ih =>
    rw [List.flatMap_cons, List.length_append, ih, operandBytes, List.length_cons, List.length_cons]
    simp only [List.length_cons, List.length_nil]
    omega

theorem length_bytes {i : Instruction} (h : i.Fits) : i.bytes.length = i.op.length := by
  simp only [bytes, List.length_cons, length_flatMap_operandBytes, h.1, Opcode.length]
  omega

end Instruction

theorem Opcode.length_pos (op : Opcode) : 0 < op.length := by
  simp only [Opcode.length]; omega

def assemble (is : List Instruction) : List UInt8 := is.flatMap Instruction.bytes

@[simp] theorem assemble_nil : assemble [] = [] := rfl

@[simp] theorem assemble_append (is js : List Instruction) :
    assemble (is ++ js) = assemble is ++ assemble js := by
  simp [assemble]

@[simp] theorem assemble_singleton (i : Instruction) : assemble [i] = i.bytes := by
  simp [assemble]

theorem assemble_cons (i : Instruction) (is : List Instruction) :
    assemble (i :: is) = i.bytes ++ assemble is := by
  simp [assemble]

namespace Code

theorem getElem?_of_toList {code : Code} {before after : List UInt8} {b : UInt8}
    (h : code.toList = before ++ b :: after) : code[before.length]? = some b := by
  rw [← Array.getElem?_toList, h]
  simp

theorem operand?_of_toList {code : Code} {before after : List UInt8} {n : Nat} (hn : n < 65536)
    (h : code.toList = before ++ Instruction.operandBytes n ++ after) :
    code.operand? before.length = some n := by
  simp only [Instruction.operandBytes, List.append_assoc, List.cons_append, List.nil_append] at h
  have h₀ : code[before.length]? = some (UInt8.ofNat (n / 256)) := getElem?_of_toList h
  have h₁ : code[before.length + 1]? = some (UInt8.ofNat (n % 256)) := by
    have hlow : code.toList = (before ++ [UInt8.ofNat (n / 256)]) ++ UInt8.ofNat (n % 256) :: after := by
      simpa using h
    simpa using getElem?_of_toList hlow
  have hd : n / 256 < 256 := by omega
  have hm : n % 256 < 256 := Nat.mod_lt _ (by decide)
  simp only [operand?, h₀, h₁, UInt8.toNat_ofNat', Nat.reducePow, Nat.mod_eq_of_lt hd,
    Nat.mod_eq_of_lt hm, Option.some.injEq]
  omega

theorem operands?_of_toList {code : Code} {before after : List UInt8} {ns : List Nat}
    (hn : ∀ n ∈ ns, n < 65536)
    (h : code.toList = before ++ ns.flatMap Instruction.operandBytes ++ after) :
    code.operands? before.length ns.length = some ns := by
  induction ns generalizing before with
  | nil => rfl
  | cons n ns ih =>
    have hfirst : code.toList = before ++ Instruction.operandBytes n ++
        (ns.flatMap Instruction.operandBytes ++ after) := by
      simpa using h
    have hhead : code.operand? before.length = some n := operand?_of_toList (hn n (by simp)) hfirst
    rw [← List.append_assoc] at hfirst
    have htail := ih (fun m hm => hn m (by simp [hm])) hfirst
    have hlen : (before ++ Instruction.operandBytes n).length = before.length + 2 := by
      simp [Instruction.operandBytes]
    rw [hlen] at htail
    simp [operands?, hhead, htail]

theorem decode_of_toList {code : Code} {before after : List UInt8} {i : Instruction} (hi : i.Fits)
    (h : code.toList = before ++ i.bytes ++ after) :
    code.decode before.length = .ok (i, before.length + i.op.length) := by
  have hop : code[before.length]? = some i.op.byte := by
    have hbyte : code.toList = before ++ i.op.byte ::
        (i.operands.flatMap Instruction.operandBytes ++ after) := by
      simpa [Instruction.bytes] using h
    exact getElem?_of_toList hbyte
  have hargs : code.operands? (before.length + 1) i.op.operandCount = some i.operands := by
    rw [← hi.1]
    have hrest : code.toList = (before ++ [i.op.byte]) ++
        i.operands.flatMap Instruction.operandBytes ++ after := by
      simpa [Instruction.bytes] using h
    simpa using operands?_of_toList hi.2 hrest
  simp [decode, hop, Opcode.ofByte?_byte, hargs]

theorem lt_size_of_decode {code : Code} {offset next : Nat} {i : Instruction}
    (h : code.decode offset = .ok (i, next)) : offset < code.size := by
  unfold decode at h
  split at h
  · cases h
  · next byte hbyte => exact (Array.getElem?_eq_some_iff.mp hbyte).1

end Code

end StackScript
