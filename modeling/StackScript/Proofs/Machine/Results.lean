import StackScript.Proofs.Machine.Instructions

/-! # Results of sound instructions

What an instruction of a listing computes: how many values it pushes, which functions they contain,
and which faults it can raise.
-/

namespace StackScript

/-- Faults that show a defect of the code, not of the program. -/
def Fault.isDefect : Fault → Bool
  | .stackUnderflow | .unknownOpcode _ _ | .truncatedInstruction _ | .missingConstant _
  | .notAFunction _ | .unknownBuiltin _ | .missingFreeVariable _ | .invalidStoreTarget _ => true
  | _ => false

/-- Whether a fault is about a global that the machine has no slot for. -/
def Fault.isGlobal : Fault → Bool
  | .globalOutOfRange _ _ => true
  | _ => false

/-- A fault of the program: it is not a defect, and a missing global only where `short` holds. -/
structure Fault.Proper (e : Fault) (short : Prop) : Prop where
  sound : e.isDefect = false
  globals : e.isGlobal = true → short

section Primitives

variable {short : Prop} {l r i v : Value} {e : Fault}

theorem Fault.Proper.of_plain (h : e.isDefect = false) (hg : e.isGlobal = false) : e.Proper short :=
  ⟨h, fun he => by simp [hg] at he⟩

theorem Operator.checked_proper {op : Operator} {n : Int} (h : op.checked n = .error e) :
    e.Proper short := by
  unfold Operator.checked at h
  split at h <;> cases h
  exact .of_plain rfl rfl

theorem Operator.onInts_proper {op : Operator} {a b : Int64} {x : Except Fault Int64}
    (hx : op.onInts a b = some x) (he : x = .error e) : e.Proper short := by
  subst he
  unfold Operator.onInts at hx
  cases op with
  | add | sub | mul => exact checked_proper (Option.some.inj hx)
  | div =>
    simp only [Option.some.injEq] at hx
    split at hx
    · cases hx
      exact .of_plain rfl rfl
    · exact checked_proper hx
  | mod =>
    simp only [Option.some.injEq] at hx
    split at hx
    · cases hx
      exact .of_plain rfl rfl
    · cases hc : Operator.checked .mod (a.toInt.tdiv b.toInt) with
      | error e' =>
        simp only [hc, bind, Except.bind, Except.error.injEq] at hx
        exact hx ▸ checked_proper hc
      | ok n =>
        simp only [hc, bind, Except.bind] at hx
        exact checked_proper hx
  | shiftLeft | shiftRight =>
    simp only [Option.some.injEq] at hx
    split at hx
    · cases hx
    · cases hx
      exact .of_plain rfl rfl
  | _ => cases hx

theorem Operator.applySame_proper {op : Operator} {x : Except Fault Value}
    (hx : op.applySame l r = some x) (he : x = .error e) : e.Proper short := by
  subst he
  unfold Operator.applySame at hx
  split at hx
  · cases hx
  · cases hx
  iterate 4
    · obtain ⟨y, -, hy⟩ := Option.map_eq_some_iff.mp hx
      cases hy
  · unfold Operator.arithmetic at hx
    split at hx
    · obtain ⟨y, hy, hmap⟩ := Option.map_eq_some_iff.mp hx
      cases y with
      | error e' =>
        cases hmap
        exact onInts_proper hy rfl
      | ok n => cases hmap
    · obtain ⟨y, -, hy⟩ := Option.map_eq_some_iff.mp hx
      cases hy
    · split at hx <;> cases hx
    · obtain ⟨y, -, hy⟩ := Option.map_eq_some_iff.mp hx
      cases hy
    · cases hx

theorem Operator.apply_proper {op : Operator} (h : op.apply l r = .error e) : e.Proper short := by
  unfold Operator.apply at h
  split at h
  · cases h
  · cases h
  · split at h
    · next l' r' _ =>
      cases hs : op.applySame l' r' with
      | none =>
        rw [hs] at h
        cases h
        exact .of_plain rfl rfl
      | some x =>
        rw [hs] at h
        exact applySame_proper hs h
    · split at h
      · cases h
      · cases h
      · cases h
        exact .of_plain rfl rfl

theorem UnaryOp.apply_proper {op : UnaryOp} (h : op.apply v = .error e) : e.Proper short := by
  unfold UnaryOp.apply at h
  split at h
  · cases h
  · split at h <;> cases h
    exact .of_plain rfl rfl
  · cases h
  · cases h
  · cases h
  · cases h
    exact .of_plain rfl rfl

theorem Value.position_proper {length : Nat} {index : Int64}
    (h : Value.position length index = .error e) : e.Proper short := by
  unfold Value.position at h
  split at h <;> cases h
  exact .of_plain rfl rfl

theorem Value.index_proper (h : v.index i = .error e) : e.Proper short := by
  unfold Value.index at h
  split at h
  · next items n =>
    cases hp : Value.position items.length n with
    | error e' =>
      simp only [hp, bind, Except.bind, Except.error.injEq] at h
      exact h ▸ position_proper hp
    | ok k => simp [hp, bind, Except.bind, pure, Except.pure] at h
  · split at h <;> cases h
    exact .of_plain rfl rfl
  · cases h
    exact .of_plain rfl rfl

theorem Value.assignIndex_proper {stamp : Nat} {target : Value}
    (h : target.assignIndex stamp i v = .error e) : e.Proper short :=
  Value.index_proper (Value.assignIndex_error_iff.mp h)

end Primitives

/-- The functions that an instruction may push have the property. -/
structure Machine.Supplies (m : Machine) (f : Frame) (i : Instruction) (args : List Value)
    (P : Value → Prop) : Prop where
  operands : ∀ v ∈ args, v.All P
  constant : i.op = .constant → ∀ v, m.constants[i.operands[0]?.getD 0]? = some v → v.All P
  value : i.op = .get ∨ i.op = .setElement →
    ∀ v, m.valueAt? f (Place.ofOperand (i.operands[0]?.getD 0)) = some v → v.All P
  self : i.op = .currentClosure → f.closure.All P
  closure : i.op = .closure → ∀ body, m.constants[i.operands[0]?.getD 0]? = some (.function body) →
    P (.closure m.nextStamp body args)

/-- The values of a result have the property, and no stamp before `next` is given again. -/
structure Result.Keeps (r : Result) (next : Nat) (P : Value → Prop) : Prop where
  pushed : ∀ v, r.pushed = some v → v.All P
  written : ∀ p v, r.written = some (p, v) → v.All P
  stamp : next ≤ r.stamp

theorem Result.Keeps.push {P : Value → Prop} {v : Value} {next : Nat} (h : v.All P) :
    Result.Keeps { pushed := some v, stamp := next } next P :=
  ⟨fun _ hv => Option.some.inj hv ▸ h, nofun, Nat.le_refl _⟩

theorem Result.Keeps.make {P : Value → Prop} {v : Value} {next : Nat} {printed : String}
    (h : v.All P) : Result.Keeps ⟨some v, none, next + 1, printed⟩ next P :=
  ⟨fun _ hv => Option.some.inj hv ▸ h, nofun, Nat.le_succ _⟩

section Writes

variable {P : Value → Prop}

theorem Result.onLocals_all (r : Result) {f : Frame} {l : List Value} (hl : ∀ v ∈ l, v.All P)
    (hw : ∀ p v, r.written = some (p, v) → v.All P) : ∀ v ∈ r.onLocals f l, v.All P := by
  intro v hv
  unfold Result.onLocals at hv
  split at hv
  · next index w he =>
    rcases List.mem_or_eq_of_mem_set hv with hv | rfl
    · exact hl v hv
    · exact hw _ _ he
  · exact hl v hv

theorem Result.onGlobals_all (r : Result) {globals : Array Value} (hg : ∀ v ∈ globals, v.All P)
    (hw : ∀ p v, r.written = some (p, v) → v.All P) : ∀ v ∈ r.onGlobals globals, v.All P := by
  intro v hv
  unfold Result.onGlobals at hv
  split at hv
  · next index w he =>
    rcases Array.mem_or_eq_of_mem_setIfInBounds hv with hv | rfl
    · exact hg v hv
    · exact hw _ _ he
  · exact hg v hv

theorem Result.size_onGlobals (r : Result) (globals : Array Value) :
    (r.onGlobals globals).size = globals.size := by
  unfold Result.onGlobals
  split
  · exact Array.size_setIfInBounds ..
  · rfl

end Writes

section Compute

variable {m : Machine} {f : Frame} {i : Instruction} {args : List Value} {r : Result} {e : Fault}
  {P : Value → Prop}

theorem Machine.computeCall_ok {callee : Value} (h : m.computeCall callee args = .ok r) :
    ∃ index b reply, callee = .builtin index ∧ Builtin.ofIndex? index = some b ∧
      b.apply m.nextStamp args = .ok reply ∧
      r = { pushed := some reply.value, stamp := m.nextStamp + 1, printed := reply.printed } := by
  unfold Machine.computeCall at h
  split at h
  · next index =>
    split at h
    · next b hb =>
      split at h <;> cases h
      next reply hr => exact ⟨index, b, reply, rfl, hb, hr, rfl⟩
    · cases h
  · cases h

theorem Except.map_ok {α β : Type} {x : Except Fault α} {g : α → β} {b : β} (h : x.map g = .ok b) :
    ∃ a, x = .ok a ∧ g a = b := by
  cases x with
  | error e => cases h
  | ok a => exact ⟨a, rfl, Except.ok.inj h⟩

theorem Machine.length_pushed (h : m.compute f i args = .ok r) (ha : args.length = i.pops) :
    r.pushed.toList.length = i.pushes := by
  have hpops {op : Opcode} (ho : i.op = op) : args.length = ({ i with op := op } : Instruction).pops := by
    rw [ha, ← ho]
  have hmap {x : Except Fault Value} {g : Value → Result} (hg : ∀ v, (g v).pushed.toList.length = 1)
      (hx : x.map g = .ok r) : r.pushed.toList.length = 1 := by
    obtain ⟨v, -, rfl⟩ := Except.map_ok hx
    exact hg v
  unfold Machine.compute at h
  unfold Instruction.pushes
  cases ho : i.op with
  | constant | get | hash | closure =>
    simp only [ho] at h ⊢
    split at h <;> cases h
    rfl
  | binary op | index =>
    obtain ⟨left, right, rfl⟩ := List.length_eq_two.mp (hpops ho)
    simp only [ho] at h
    exact hmap (fun _ => rfl) h
  | unary op =>
    obtain ⟨v, rfl⟩ := List.length_eq_one_iff.mp (hpops ho)
    simp only [ho] at h
    exact hmap (fun _ => rfl) h
  | set =>
    obtain ⟨v, rfl⟩ := List.length_eq_one_iff.mp (hpops ho)
    simp only [ho] at h
    split at h <;> cases h
    rfl
  | setElement =>
    obtain ⟨index, v, rfl⟩ := List.length_eq_two.mp (hpops ho)
    simp only [ho] at h
    split at h
    · exact hmap (fun _ => rfl) h
    · cases h
  | call =>
    obtain ⟨callee, args, rfl⟩ := List.exists_cons_of_length_eq_add_one (hpops ho)
    simp only [ho] at h
    obtain ⟨_, _, _, -, -, -, rfl⟩ := Machine.computeCall_ok h
    rfl
  | _ =>
    simp only [ho] at h
    cases h
    rfl

theorem Machine.compute_closure {body : Function} (ho : i.op = .closure)
    (hb : m.constants[i.operands[0]?.getD 0]? = some (.function body)) :
    m.compute f i args =
      .ok { pushed := some (.closure m.nextStamp body args), stamp := m.nextStamp + 1 } := by
  simp only [Machine.compute, ho, hb]

theorem Machine.compute_load {p : Place} (hp : p.index < Storage.slotLimit)
    (h : m.compute f p.load args = .ok r) :
    ∃ v, m.valueAt? f p = some v ∧ r = { pushed := some v, stamp := m.nextStamp } := by
  by_cases hs : p.storage = .self
  · have hload : p.load = ⟨.currentClosure, []⟩ := by simp [Place.load, hs]
    rw [hload] at h
    cases h
    exact ⟨f.closure, by simp [Machine.valueAt?, hs], rfl⟩
  · have hload : p.load = ⟨.get, [p.operand]⟩ := by
      unfold Place.load
      split
      · contradiction
      · rfl
    simp only [hload, Machine.compute, List.getElem?_cons_zero, Option.getD_some,
      Place.ofOperand_operand hs hp] at h
    split at h <;> cases h
    next v hv => exact ⟨v, hv, rfl⟩

/-- No instruction makes functions but from the given ones. -/
theorem Machine.Supplies.keeps (hs : m.Supplies f i args P) (h : m.compute f i args = .ok r) :
    r.Keeps m.nextStamp P := by
  unfold Machine.compute at h
  simp only at h
  split at h
  · next ho =>
    split at h <;> cases h
    next v hv => exact .push (hs.constant ho v hv)
  · cases h
    exact .push .bool
  · cases h
    exact .push .bool
  · cases h
    exact .push .null
  · obtain ⟨v, hv, rfl⟩ := Except.map_ok h
    exact .push (Operator.apply_all hv)
  · obtain ⟨v, hv, rfl⟩ := Except.map_ok h
    exact .push (UnaryOp.apply_all hv)
  · cases h
    exact .make (.array hs.operands)
  · split at h <;> cases h
    next entries he =>
    exact .make (.hash (Entries.forall_ofPairs (by simp) (Value.All.pairUp hs.operands) he))
  · obtain ⟨v, hv, rfl⟩ := Except.map_ok h
    exact .push (Value.All.index (hs.operands _ (by simp)) hv)
  · next ho =>
    split at h <;> cases h
    next v hv => exact .push (hs.value (.inl ho) v hv)
  · split at h <;> cases h
    refine ⟨fun _ hv => (by cases hv), fun p v hv => ?_, Value.le_copy _ _⟩
    cases hv
    exact (hs.operands _ (by simp)).copy _
  · split at h
    · next target ht =>
      obtain ⟨updated, hu, rfl⟩ := Except.map_ok h
      have hv := Value.All.copy (hs.operands _ (List.mem_cons_of_mem _ List.mem_cons_self)) m.nextStamp
      refine ⟨fun _ hw => Option.some.inj hw ▸ hv, fun p w hw => ?_,
        Nat.le_succ_of_le (Value.le_copy _ _)⟩
      cases hw
      exact (hs.value (.inr ‹_›) target ht).assignIndex hv hu
    · cases h
  · obtain ⟨index, b, reply, -, -, hr, rfl⟩ := Machine.computeCall_ok h
    exact .make (Builtin.apply_all (fun v hv => hs.operands v (List.mem_cons_of_mem _ hv)) hr)
  · next ho =>
    split at h <;> cases h
    next body hb => exact .make (.closure (hs.closure ho body hb) hs.operands)
  · next ho =>
    cases h
    exact .push (hs.self ho)
  · cases h
    exact ⟨fun _ hv => (by cases hv), fun _ _ hv => (by cases hv), Nat.le_refl _⟩

/-- A place that exists lacks a value only if the machine has too few globals. -/
theorem Place.Within.fault_proper {p : Place} {x : Extent} (hp : p.Within x)
    (hl : f.base + x.locals ≤ m.stack.live.length) (hc : x.captured.length = f.free.length)
    (h : m.valueAt? f p = none) : (p.fault m.globals.size).Proper (m.globals.size < x.globals) := by
  obtain ⟨storage, index⟩ := p
  cases storage with
  | globalSlot =>
    have hsize := Array.getElem?_eq_none_iff.mp h
    exact ⟨rfl, fun _ => Nat.lt_of_le_of_lt hsize hp⟩
  | localSlot =>
    have hlength : m.stack.live.length ≤ f.base + index := List.getElem?_eq_none_iff.mp h
    simp only [Place.Within] at hp
    omega
  | captured =>
    have hlength : f.free.length ≤ index := List.getElem?_eq_none_iff.mp h
    simp only [Place.Within] at hp
    omega
  | builtin | self => cases h

theorem Place.Within.fault_proper_of_not_writable {p : Place} {x : Extent} (hp : p.Within x)
    (h : ¬ m.writable p = true) : (p.fault m.globals.size).Proper (m.globals.size < x.globals) := by
  obtain ⟨storage, index⟩ := p
  cases storage with
  | globalSlot =>
    have hsize : m.globals.size ≤ index := by simpa [Machine.writable] using h
    exact ⟨rfl, fun _ => Nat.lt_of_le_of_lt hsize hp⟩
  | _ => exact absurd rfl h

theorem Except.map_error {α β : Type} {x : Except Fault α} {g : α → β} (h : x.map g = .error e) :
    x = .error e := by
  cases x with
  | error e => exact congrArg _ (Except.error.inj h)
  | ok a => cases h

section Names

variable {p : Place}

theorem Machine.compute_get_error (ho : i.op = .get) (hi : i.operands = [p.operand])
    (hself : p.storage ≠ .self) (hlt : p.index < Storage.slotLimit)
    (h : m.compute f i args = .error e) : m.valueAt? f p = none ∧ e = p.fault m.globals.size := by
  simp only [Machine.compute, ho, hi, List.getElem?_cons_zero, Option.getD_some,
    Place.ofOperand_operand hself hlt] at h
  split at h <;> cases h
  next hv => exact ⟨hv, rfl⟩

theorem Machine.compute_set_error {v : Value} (ho : i.op = .set) (hi : i.operands = [p.operand])
    (hself : p.storage ≠ .self) (hlt : p.index < Storage.slotLimit)
    (h : m.compute f i [v] = .error e) : ¬ m.writable p = true ∧ e = p.fault m.globals.size := by
  simp only [Machine.compute, ho, hi, List.getElem?_cons_zero, Option.getD_some,
    Place.ofOperand_operand hself hlt] at h
  split at h <;> cases h
  next hw => exact ⟨hw, rfl⟩

theorem Machine.compute_setElement_error {index v : Value} (ho : i.op = .setElement)
    (hi : i.operands = [p.operand]) (hself : p.storage ≠ .self) (hlt : p.index < Storage.slotLimit)
    (h : m.compute f i [index, v] = .error e) :
    (∃ (target : Value) (stamp : Nat) (new : Value),
        target.assignIndex stamp index new = .error e) ∨
      m.valueAt? f p = none ∧ e = p.fault m.globals.size := by
  simp only [Machine.compute, ho, hi, List.getElem?_cons_zero, Option.getD_some,
    Place.ofOperand_operand hself hlt] at h
  split at h
  · exact .inl ⟨_, _, _, Except.map_error h⟩
  · next hv =>
    cases h
    exact .inr ⟨hv, rfl⟩

end Names

/-- A builtin that exists fails only on its arguments, and what is no function cannot be called. -/
theorem Machine.computeCall_proper {callee : Value} {P : Prop}
    (hb : ∀ index, callee = .builtin index → index < Builtin.all.length)
    (h : m.computeCall callee args = .error e) : e.Proper P := by
  unfold Machine.computeCall at h
  split at h
  · next index =>
    have hbuiltin : Builtin.ofIndex? index = some _ := List.getElem?_eq_getElem (hb index rfl)
    simp only [hbuiltin] at h
    split at h <;> cases h
    exact .of_plain rfl rfl
  · cases h
    exact .of_plain rfl rfl

/-- An instruction of a listing raises only faults of the program. -/
theorem Machine.compute_proper {j : Item} {x : Extent} (hsound : j.Sound m.constants x)
    (ha : args.length = j.pops) (hl : f.base + x.locals ≤ m.stack.live.length)
    (hc : x.captured.length = f.free.length)
    (hb : ∀ index, args.head? = some (.builtin index) → index < Builtin.all.length)
    (h : m.compute f j.toInstruction args = .error e) : e.Proper (m.globals.size < x.globals) := by
  have hpops {op : Opcode} (ho : j.op = op) :
      args.length = ({ j.toInstruction with op := op } : Instruction).pops := by
    rw [ha, ← ho]
  cases ho : j.op with
  | constant =>
    simp only [Machine.compute, Item.Sound, ho] at h hsound
    obtain ⟨k, v, hk, -, hv, -⟩ := hsound
    simp [hk, hv] at h
  | get =>
    obtain ⟨p, hp, hself, hlt, hwithin⟩ := hsound.names (.inl ho)
    obtain ⟨hv, rfl⟩ := compute_get_error ho hp hself hlt h
    exact hwithin.fault_proper hl hc hv
  | hash =>
    simp only [Machine.compute, ho] at h
    split at h <;> cases h
    exact .of_plain rfl rfl
  | closure =>
    obtain ⟨l, hl⟩ := hsound.closes ho
    obtain ⟨k, first, bodySpan, g, is, s, hk, -, hg, -⟩ := hl.body
    simp [Machine.compute, ho, hk, hg] at h
  | binary op =>
    obtain ⟨left, right, rfl⟩ := List.length_eq_two.mp (hpops ho)
    simp only [Machine.compute, ho] at h
    exact Operator.apply_proper (Except.map_error h)
  | index =>
    obtain ⟨left, right, rfl⟩ := List.length_eq_two.mp (hpops ho)
    simp only [Machine.compute, ho] at h
    exact Value.index_proper (Except.map_error h)
  | unary op =>
    obtain ⟨v, rfl⟩ := List.length_eq_one_iff.mp (hpops ho)
    simp only [Machine.compute, ho] at h
    exact UnaryOp.apply_proper (Except.map_error h)
  | set =>
    obtain ⟨v, rfl⟩ := List.length_eq_one_iff.mp (hpops ho)
    obtain ⟨p, hp, hself, hlt, hwithin⟩ := hsound.names (.inr (.inl ho))
    obtain ⟨hw, rfl⟩ := compute_set_error ho hp hself hlt h
    exact hwithin.fault_proper_of_not_writable hw
  | setElement =>
    obtain ⟨index, v, rfl⟩ := List.length_eq_two.mp (hpops ho)
    obtain ⟨p, hp, hself, hlt, hwithin⟩ := hsound.names (.inr (.inr ho))
    rcases compute_setElement_error ho hp hself hlt h with ⟨_, _, _, hassign⟩ | ⟨hv, rfl⟩
    · exact Value.assignIndex_proper hassign
    · exact hwithin.fault_proper hl hc hv
  | call =>
    obtain ⟨callee, args, rfl⟩ := List.exists_cons_of_length_eq_add_one (hpops ho)
    simp only [Machine.compute, ho] at h
    exact computeCall_proper (fun index hcallee => hb index (congrArg some hcallee)) h
  | _ =>
    simp only [Machine.compute, ho] at h
    cases h

end Compute

end StackScript
