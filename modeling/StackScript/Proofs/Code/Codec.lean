import StackScript.Proofs.Code.Assembly

/-! # The instruction codec

Decoding undoes encoding, and encoding undoes decoding. The bytes of a list of instructions decode
to that list, each instruction at the offset where its bytes begin; and any bytes at all decode to
the longest list of instructions whose bytes they begin with, followed by one error if something is
left over.
-/

namespace StackScript

/-- The bytes of the opcodes are their places in the table of all opcodes. -/
theorem Opcode.byte_getElem : ∀ k : Fin Opcode.all.size, Opcode.all[k].byte.toNat = k.val := by
  decide

theorem Opcode.byte_of_ofByte? {b : UInt8} {op : Opcode} (h : Opcode.ofByte? b = some op) :
    op.byte = b := by
  obtain ⟨hlt, rfl⟩ := Array.getElem?_eq_some_iff.mp h
  exact UInt8.toNat_inj.mp (Opcode.byte_getElem ⟨b.toNat, hlt⟩)

/-- Where the instruction begins that could not be decoded. -/
def DecodeError.offset : DecodeError → Nat
  | unknownOpcode _ offset => offset
  | truncated offset => offset

namespace Instruction

theorem operandBytes_of_bytes (high low : UInt8) :
    operandBytes (high.toNat * 256 + low.toNat) = [high, low] := by
  have hlow : low.toNat < 256 := low.toNat_lt
  have hdiv : (high.toNat * 256 + low.toNat) / 256 = high.toNat := by omega
  have hmod : (high.toNat * 256 + low.toNat) % 256 = low.toNat := by omega
  rw [operandBytes, hdiv, hmod, UInt8.ofNat_toNat, UInt8.ofNat_toNat]

/-- The instructions of a list, each with the offset where its bytes begin. -/
def placed : Nat → List Instruction → List (Nat × Instruction)
  | _, [] => []
  | start, i :: is => (start, i) :: placed (start + i.bytes.length) is

theorem map_snd_placed (start : Nat) (is : List Instruction) : (placed start is).map (·.2) = is := by
  induction is generalizing start with
  | nil => rfl
  | cons i is ih => simp [placed, ih]

theorem bytes_length_pos (i : Instruction) : 0 < i.bytes.length := by simp [bytes]

/-- Offsets grow, and stay below the end of the bytes. -/
theorem placed_increasing (start : Nat) (is : List Instruction) :
    (placed start is).Pairwise (fun p q => p.1 < q.1) ∧
      ∀ p ∈ placed start is, start ≤ p.1 ∧ p.1 < start + (assemble is).length := by
  induction is generalizing start with
  | nil => simp [placed]
  | cons i is ih =>
    obtain ⟨hpairs, hbounds⟩ := ih (start + i.bytes.length)
    have hi := i.bytes_length_pos
    simp only [placed, assemble_cons, List.length_append, List.pairwise_cons, List.forall_mem_cons]
    refine ⟨⟨fun q hq => ?_, hpairs⟩, by omega, fun q hq => ?_⟩
    · have := hbounds q hq
      omega
    · have := hbounds q hq
      omega

theorem mapM_encode_of_fits {is : List Instruction} (h : ∀ i ∈ is, i.Fits) :
    is.mapM encode = .ok (is.map bytes) := by
  induction is with
  | nil => rfl
  | cons i is ih =>
    rw [List.mapM_cons, encode_of_fits (h i (by simp)), ih fun j hj => h j (by simp [hj])]
    rfl

theorem fits_of_mapM_encode {is : List Instruction} {bss : List (List UInt8)}
    (h : is.mapM encode = .ok bss) : ∀ i ∈ is, i.Fits := by
  induction is generalizing bss with
  | nil => simp
  | cons i is ih =>
    rw [List.mapM_cons] at h
    cases hi : i.encode with
    | error e => rw [hi] at h; cases h
    | ok bs =>
      cases his : is.mapM encode with
      | error e => rw [hi, his] at h; cases h
      | ok rest =>
        intro j hj
        rcases List.mem_cons.mp hj with rfl | hj
        · exact fits_of_encode hi
        · exact ih his j hj

theorem map_placed {β : Type} (g : Nat × Instruction → β) (start : Nat) (is : List Instruction) :
    (placed start is).map g =
      is.mapIdx fun k i => g (start + ((is.map bytes).take k).flatten.length, i) := by
  induction is generalizing start with
  | nil => rfl
  | cons i is ih =>
    rw [placed, List.map_cons, ih, List.mapIdx_cons]
    simp [Nat.add_assoc]

end Instruction

namespace Code

variable {code : Code} {offset : Nat}

theorem drop_of_getElem? {b : UInt8} (h : code[offset]? = some b) :
    code.toList.drop offset = b :: code.toList.drop (offset + 1) := by
  rw [← Array.getElem?_toList] at h
  obtain ⟨hlt, rfl⟩ := List.getElem?_eq_some_iff.mp h
  exact List.drop_eq_getElem_cons hlt

theorem drop_of_operand? {n : Nat} (h : code.operand? offset = some n) :
    n < 65536 ∧ code.toList.drop offset =
      Instruction.operandBytes n ++ code.toList.drop (offset + 2) := by
  unfold operand? at h
  split at h
  · next high low hhigh hlow =>
    obtain rfl : high.toNat * 256 + low.toNat = n := Option.some.inj h
    have := high.toNat_lt
    have := low.toNat_lt
    refine ⟨by omega, ?_⟩
    rw [Instruction.operandBytes_of_bytes, drop_of_getElem? hhigh, drop_of_getElem? hlow]
    rfl
  · cases h

theorem drop_of_operands? {count : Nat} {ns : List Nat} (h : code.operands? offset count = some ns) :
    ns.length = count ∧ (∀ n ∈ ns, n < 65536) ∧ code.toList.drop offset =
      ns.flatMap Instruction.operandBytes ++ code.toList.drop (offset + 2 * count) := by
  induction count generalizing offset ns with
  | zero =>
    obtain rfl : [] = ns := Option.some.inj h
    simp
  | succ count ih =>
    rw [operands?] at h
    split at h
    · next n hn =>
      obtain ⟨ms, hms, rfl⟩ := Option.map_eq_some_iff.mp h
      obtain ⟨hlt, hfirst⟩ := drop_of_operand? hn
      obtain ⟨hlen, hall, hrest⟩ := ih hms
      refine ⟨by simp [hlen], by simpa using ⟨hlt, hall⟩, ?_⟩
      rw [hfirst, hrest, List.flatMap_cons, List.append_assoc,
        show offset + 2 + 2 * count = offset + 2 * (count + 1) by omega]
    · cases h

/-- A decoded instruction fits, and its bytes are those between its offset and the next. -/
theorem drop_of_decode {i : Instruction} {next : Nat} (h : code.decode offset = .ok (i, next)) :
    i.Fits ∧ next = offset + i.bytes.length ∧
      code.toList.drop offset = i.bytes ++ code.toList.drop next := by
  unfold decode at h
  split at h
  · cases h
  · next byte hbyte =>
    split at h
    · cases h
    · next op hop =>
      split at h
      · cases h
      · next operands hoperands =>
        obtain ⟨rfl, rfl⟩ : (⟨op, operands⟩ : Instruction) = i ∧ offset + op.length = next := by
          simpa using h
        obtain ⟨hlen, hlt, hrest⟩ := drop_of_operands? hoperands
        have hfits : (⟨op, operands⟩ : Instruction).Fits := ⟨hlen, hlt⟩
        refine ⟨hfits, by rw [Instruction.length_bytes hfits], ?_⟩
        rw [drop_of_getElem? hbyte, hrest, Instruction.bytes, Opcode.byte_of_ofByte? hop]
        simp only [List.cons_append, Opcode.length, Nat.add_assoc]

theorem offset_of_decode {e : DecodeError} (h : code.decode offset = .error e) :
    e.offset = offset := by
  unfold decode at h
  split at h
  · cases h; rfl
  · split at h
    · cases h; rfl
    · split at h
      · cases h; rfl
      · cases h

/-- Decoding from `offset` on gives `is`, and behind them the error `bad`, if there is one. -/
structure DecodesFrom (code : Code) (offset : Nat) (is : List Instruction)
    (bad : Option DecodeError) : Prop where
  fits : ∀ i ∈ is, i.Fits
  /-- Without an error the bytes are used up. -/
  whole : bad = none → code.toList.drop offset = assemble is
  /-- An error stands where the next instruction would begin. -/
  stuck : ∀ e ∈ bad, e.offset = offset + (assemble is).length ∧ e.offset < code.size ∧
    code.decode e.offset = .error e ∧
    code.toList.drop offset = assemble is ++ code.toList.drop e.offset

theorem DecodesFrom.done (h : code.size ≤ offset) : DecodesFrom code offset [] none where
  fits := by simp
  whole := fun _ => List.drop_eq_nil_of_le (by simpa using h)
  stuck := by simp

theorem DecodesFrom.fail {e : DecodeError} (hlt : offset < code.size)
    (h : code.decode offset = .error e) : DecodesFrom code offset [] (some e) where
  fits := by simp
  whole := by simp
  stuck := by
    rintro _ ⟨⟩
    have he := offset_of_decode h
    exact ⟨by simp [he], by omega, by rw [he, h], by simp [he]⟩

theorem DecodesFrom.cons {i : Instruction} {next : Nat} {is : List Instruction}
    {bad : Option DecodeError} (h : code.decode offset = .ok (i, next))
    (hrest : DecodesFrom code next is bad) : DecodesFrom code offset (i :: is) bad := by
  obtain ⟨hi, rfl, hdrop⟩ := drop_of_decode h
  constructor
  · simpa using ⟨hi, hrest.fits⟩
  · intro hbad
    rw [hdrop, hrest.whole hbad, assemble_cons]
  · intro e he
    obtain ⟨hoffset, hlt, hdecode, htail⟩ := hrest.stuck e he
    refine ⟨?_, hlt, hdecode, ?_⟩
    · rw [hoffset, assemble_cons, List.length_append, Nat.add_assoc]
    · rw [hdrop, htail, assemble_cons, List.append_assoc]

/-- The run of the decoder: every instruction takes at least one byte, so the fuel suffices. -/
theorem exists_decodesFrom (code : Code) (fuel offset : Nat) (hfuel : code.size ≤ offset + fuel) :
    ∃ is bad, DecodesFrom code offset is bad ∧ code.decodeFrom fuel offset =
      (Instruction.placed offset is).map .ok ++ bad.toList.map .error := by
  induction fuel generalizing offset with
  | zero => exact ⟨[], none, .done hfuel, by simp [decodeFrom, Instruction.placed]⟩
  | succ fuel ih =>
    by_cases hlt : offset < code.size
    · cases hd : code.decode offset with
      | error e =>
        exact ⟨[], some e, .fail hlt hd, by simp [decodeFrom, hlt, hd, Instruction.placed]⟩
      | ok found =>
        obtain ⟨i, next⟩ := found
        have hnext := (drop_of_decode hd).2.1
        have hpos := i.bytes_length_pos
        obtain ⟨is, bad, hrest, heq⟩ := ih next (by omega)
        refine ⟨i :: is, bad, .cons hd hrest, ?_⟩
        simp only [decodeFrom, if_pos hlt, hd, heq, Instruction.placed, ← hnext, List.map_cons,
          List.cons_append]
    · exact ⟨[], none, .done (by omega), by simp [decodeFrom, hlt, Instruction.placed]⟩

/-- Assembled instructions decode to themselves. -/
theorem decodeFrom_assemble {is : List Instruction} (before : List UInt8) (fuel : Nat)
    (hf : ∀ i ∈ is, i.Fits) (hc : code.toList = before ++ assemble is)
    (hfuel : code.size ≤ before.length + fuel) :
    code.decodeFrom fuel before.length = (Instruction.placed before.length is).map .ok := by
  induction is generalizing before fuel with
  | nil =>
    have hsize : ¬ before.length < code.size := by
      rw [← Array.length_toList, hc]
      simp
    cases fuel <;> simp [decodeFrom, hsize, Instruction.placed]
  | cons i is ih =>
    rw [assemble_cons, ← List.append_assoc] at hc
    have hi : i.Fits := hf i (by simp)
    have hpos := i.bytes_length_pos
    have hsize : before.length + i.bytes.length ≤ code.size := by
      rw [← Array.length_toList, hc]
      simp
    cases fuel with
    | zero => omega
    | succ fuel =>
      have hd : code.decode before.length = .ok (i, (before ++ i.bytes).length) := by
        rw [decode_of_toList hi hc, List.length_append, Instruction.length_bytes hi]
      have hrest := ih (before ++ i.bytes) fuel (fun j hj => hf j (by simp [hj])) hc
        (by rw [List.length_append]; omega)
      have hlt : before.length < code.size := by omega
      simp only [decodeFrom, if_pos hlt, hd, hrest]
      simp only [Instruction.placed, List.length_append, List.map_cons]

/-- Encoding a list of instructions and decoding the bytes gives the list back, each instruction at
the total length of the encodings before it. Decoding any bytes gives instructions at increasing
offsets and at most one error, the last, which stands where an instruction begins that cannot be
decoded; the instructions encode to exactly the bytes in front of that. -/
theorem instructions_inverse_encode :
    (∀ (is : List Instruction) (bss : List (List UInt8)), is.mapM Instruction.encode = .ok bss →
      Code.instructions bss.flatten.toArray =
        is.mapIdx fun k i => .ok ((bss.take k).flatten.length, i)) ∧
    ∀ code : Code, ∃ (found : List (Nat × Instruction)) (bad : Option DecodeError)
        (bss : List (List UInt8)),
      code.instructions = found.map .ok ++ bad.toList.map .error ∧
      (found.map (·.1) ++ bad.toList.map (·.offset)).Pairwise (· < ·) ∧
      (found.map (·.2)).mapM Instruction.encode = .ok bss ∧
      bss.flatten = code.toList.take ((bad.map (·.offset)).getD code.size) ∧
      ∀ e ∈ bad, e.offset < code.size ∧ code.decode e.offset = .error e := by
  constructor
  · intro is bss h
    have hfits := Instruction.fits_of_mapM_encode h
    obtain rfl : is.map Instruction.bytes = bss := by
      rw [Instruction.mapM_encode_of_fits hfits] at h
      exact Except.ok.inj h
    let code : Code := (is.map Instruction.bytes).flatten.toArray
    have hcode : code.toList = [] ++ assemble is := by simp [code, assemble, List.flatMap_def]
    have hrun := decodeFrom_assemble [] code.size hfits hcode (by simp)
    rw [Instruction.map_placed] at hrun
    simp only [List.length_nil, Nat.zero_add] at hrun
    exact hrun
  · intro code
    obtain ⟨is, bad, hd, hrun⟩ := exists_decodesFrom code code.size 0 (by simp)
    obtain ⟨hpairs, hbounds⟩ := Instruction.placed_increasing 0 is
    refine ⟨Instruction.placed 0 is, bad, is.map Instruction.bytes, hrun, ?_, ?_, ?_, ?_⟩
    · rw [List.pairwise_append]
      refine ⟨List.pairwise_map.mpr hpairs, by cases bad <;> simp, ?_⟩
      intro a ha b hb
      obtain ⟨p, hp, rfl⟩ := List.mem_map.mp ha
      obtain ⟨e, he, rfl⟩ := List.mem_map.mp hb
      rw [(hd.stuck e (by simpa using he)).1]
      exact (hbounds p hp).2
    · rw [Instruction.map_snd_placed, Instruction.mapM_encode_of_fits hd.fits]
    · rw [← List.flatMap_def]
      cases bad with
      | none =>
        have hwhole := hd.whole rfl
        rw [List.drop_zero] at hwhole
        change assemble is = code.toList.take code.size
        rw [← hwhole, ← Array.length_toList, List.take_length]
      | some e =>
        obtain ⟨hoffset, -, -, htail⟩ := hd.stuck e rfl
        rw [List.drop_zero] at htail
        change assemble is = code.toList.take e.offset
        rw [htail, List.take_left' (by omega)]
    · intro e he
      obtain ⟨-, hlt, hdecode, -⟩ := hd.stuck e he
      exact ⟨hlt, hdecode⟩

/-- Three instructions of lengths three, five and one. -/
theorem instructions_inverse_encode_closure :
    [⟨.constant, [513]⟩, ⟨.closure, [65535, 2]⟩, ⟨.retValue, []⟩].mapM Instruction.encode =
        .ok [[0, 2, 1], [37, 255, 255, 0, 2], [36]] ∧
      Code.instructions #[0, 2, 1, 37, 255, 255, 0, 2, 36] =
        [.ok (0, ⟨.constant, [513]⟩), .ok (3, ⟨.closure, [65535, 2]⟩), .ok (8, ⟨.retValue, []⟩)] :=
  have h : [⟨.constant, [513]⟩, ⟨.closure, [65535, 2]⟩, ⟨.retValue, []⟩].mapM Instruction.encode =
      .ok [[0, 2, 1], [37, 255, 255, 0, 2], [36]] := rfl
  ⟨h, instructions_inverse_encode.1 _ _ h⟩

end Code

end StackScript
