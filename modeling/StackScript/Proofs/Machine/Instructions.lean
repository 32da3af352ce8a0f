import StackScript.Proofs.Compile.Flow
import StackScript.Proofs.Compile.Operands
import StackScript.Proofs.Machine.Exec
import StackScript.Proofs.Machine.Values

/-! # What instructions compute

An instruction that neither jumps nor calls a closure takes its operands from the stack and computes
a result from them: a value to push, a value to write to a variable, text to print. The machine does
just that, unless the stack is full.
-/

namespace StackScript

/-- What an instruction does beside taking its operands. -/
structure Result where
  pushed : Option Value := none
  written : Option (Place × Value) := none
  stamp : Nat
  printed : String := ""

namespace Result

def onLocals (r : Result) (f : Frame) (l : List Value) : List Value :=
  match r.written with
  | some (⟨.localSlot, index⟩, v) => l.set (f.base + index) v
  | _ => l

theorem length_onLocals (r : Result) (f : Frame) (l : List Value) :
    (r.onLocals f l).length = l.length := by
  unfold onLocals
  split <;> simp

def onGlobals (r : Result) (globals : Array Value) : Array Value :=
  match r.written with
  | some (⟨.globalSlot, index⟩, v) => globals.setIfInBounds index v
  | _ => globals

end Result

def Machine.writable (m : Machine) (p : Place) : Bool :=
  p.storage != .globalSlot || p.index < m.globals.size

def Machine.computeCall (m : Machine) (callee : Value) (args : List Value) : Except Fault Result :=
  match callee with
  | .builtin index =>
    match Builtin.ofIndex? index with
    | some b =>
      match b.apply m.nextStamp args with
      | .ok reply =>
        .ok { pushed := some reply.value, stamp := m.nextStamp + 1, printed := reply.printed }
      | .error refusal => .error (.builtin refusal)
    | none => .error (.unknownBuiltin index)
  | v => .error (.notCallable v.kind)

/-- The result of an instruction for given operands, the lowest first. -/
def Machine.compute (m : Machine) (f : Frame) (i : Instruction) (args : List Value) :
    Except Fault Result :=
  let operand := i.operands[0]?.getD 0
  let place := Place.ofOperand operand
  let value (v : Value) : Result := { pushed := some v, stamp := m.nextStamp }
  let made (v : Value) : Result := { pushed := some v, stamp := m.nextStamp + 1 }
  match i.op, args with
  | .constant, _ =>
    match m.constants[operand]? with
    | some v => .ok (value v)
    | none => .error (.missingConstant operand)
  | .true, _ => .ok (value (.bool true))
  | .false, _ => .ok (value (.bool false))
  | .null, _ => .ok (value .null)
  | .binary op, [left, right] => (op.apply left right).map value
  | .unary op, [v] => (op.apply v).map value
  | .array, items => .ok (made (.array m.nextStamp items))
  | .hash, items =>
    match Entries.ofPairs [] (Value.pairUp items) with
    | .ok entries => .ok (made (.hash m.nextStamp entries))
    | .error kind => .error (.unhashableKey kind)
  | .index, [target, i] => (target.index i).map value
  | .get, _ =>
    match m.valueAt? f place with
    | some v => .ok (value v)
    | none => .error (place.fault m.globals.size)
  | .set, [v] =>
    let (v, stamp) := v.copy m.nextStamp
    if m.writable place then .ok { written := some (place, v), stamp := stamp }
    else .error (place.fault m.globals.size)
  | .setElement, [i, v] =>
    let (v, stamp) := v.copy m.nextStamp
    match m.valueAt? f place with
    | some target => (target.assignIndex stamp i v).map fun updated =>
        { pushed := some v, written := some (place, updated), stamp := stamp + 1 }
    | none => .error (place.fault m.globals.size)
  | .call, callee :: args => m.computeCall callee args
  | .closure, free =>
    match m.constants[operand]? with
    | some (.function body) => .ok (made (.closure m.nextStamp body free))
    | some _ => .error (.notAFunction operand)
    | none => .error (.missingConstant operand)
  | .currentClosure, _ => .ok (value f.closure)
  | _, _ => .ok { stamp := m.nextStamp }

/-- The machine has done what a result says, above the values `l` of a stack of `n` slots. -/
def Machine.Becomes (m : Machine) (f : Frame) (n : Nat) (l : List Value) (r : Result)
    (m' : Machine) : Prop :=
  ∃ s : Stack, s.Holds n (r.onLocals f l ++ r.pushed.toList) ∧
    m' = { m with stack := s, globals := r.onGlobals m.globals, nextStamp := r.stamp,
                  output := m.output ++ r.printed }

section Becomes

variable {m m₁ m' : Machine} {f : Frame} {fs : List Frame} {n : Nat} {l l₁ : List Value} {r : Result}
  {v : Value}

theorem Machine.Moves.pushed (h : m.Moves n (l ++ [v]) m') :
    m.Becomes f n l { pushed := some v, stamp := m.nextStamp } m' := by
  obtain ⟨s, hs, rfl⟩ := h
  exact ⟨s, hs, by simp [Result.onGlobals]⟩

end Becomes

namespace Exec

variable {m m₁ : Machine} {f : Frame} {fs : List Frame} {n a b : Nat} {l args : List Value}
  {i : Instruction}

attribute [local simp] execute Machine.compute

/-- The rest of an instruction computes its result, and the machine becomes what that says; or it
fails as the result does. -/
abbrev Computes (m : Machine) (f : Frame) (n : Nat) (l : List Value) (x : Except Fault Result)
    (step : Exec Unit) (m₁ : Machine) : Prop :=
  Gives step m₁ (fun _ m' => ∃ r, x = .ok r ∧ m.Becomes f n l r m')
    (fun e m' => m.Halts m' ∧ (x = .error e ∨ e = .stackOverflow n ∧ l.length = n))

theorem push_computes (hm : m.Moves n l m₁) (v : Value) :
    Computes m f n l (.ok { pushed := some v, stamp := m.nextStamp }) (push v) m₁ := by
  refine (push_gives hm.holds v).mono (fun _ _ h => ⟨_, rfl, (hm.trans h).pushed⟩) ?_
  rintro e m' ⟨rfl, he, hl⟩
  exact ⟨hm.halts (.refl _), .inr ⟨he, hl⟩⟩

theorem pushExcept_computes (hm : m.Moves n l m₁) (x : Except Fault Value) :
    Computes m f n l (x.map fun v => { pushed := some v, stamp := m.nextStamp })
      (ofExcept x >>= push) m₁ := by
  refine (ofExcept_gives x).bind ?_ ?_
  · rintro e m' ⟨rfl, rfl⟩
    exact ⟨hm.halts (.refl _), .inl rfl⟩
  · rintro v m' ⟨rfl, rfl⟩
    exact push_computes hm v

theorem pushMade_computes (hm : m.Moves n l m₁) (g : Nat → Value) :
    Computes m f n l (.ok { pushed := some (g m.nextStamp), stamp := m.nextStamp + 1 })
      (do push (g (← freshStamp))) m₁ := by
  obtain ⟨s, hs, rfl⟩ := hm
  refine freshStamp_gives.bind (fun _ _ h => h.elim) ?_
  rintro _ _ ⟨rfl, rfl⟩
  refine (push_gives (m := { m with stack := s, nextStamp := m.nextStamp + 1 }) hs _).mono ?_ ?_
  · rintro _ m' ⟨s', hs', rfl⟩
    exact ⟨_, rfl, s', hs', by simp [Result.onGlobals]⟩
  · rintro e m' ⟨rfl, he, hl⟩
    exact ⟨⟨s, _, Nat.le_succ _, rfl⟩, .inr ⟨he, hl⟩⟩

theorem constant_computes (hi : i.op = .constant) (hs : m.stack.Holds n l)
    (ha : i.operands[0]?.getD 0 = a) : Computes m f n l (m.compute f i []) (execute i.op a b) m := by
  simp only [Machine.compute, hi, execute, ha]
  refine get_gives.bind (fun _ _ h => h.elim) ?_
  rintro _ m ⟨rfl, rfl⟩
  cases m.constants[a]? with
  | none => exact ⟨.refl _, .inl rfl⟩
  | some v => exact push_computes (.refl hs) v

theorem pop_computes (hi : i.op = .pop) (hs : m.stack.Holds n (l ++ args)) (ha : args.length = 1) :
    Computes m f n l (m.compute f i args) (execute i.op a b) m := by
  obtain ⟨v, rfl⟩ := List.length_eq_one_iff.mp ha
  simp only [Machine.compute, hi, execute]
  refine (pop_gives hs).discarded.mono ?_ fun _ _ h => h.elim
  rintro _ m' ⟨v, -, ⟨s, hs, rfl⟩, -⟩
  exact ⟨_, rfl, s, by simpa [Result.onLocals] using hs, by simp [Result.onGlobals]⟩

theorem pop_pop_gives {v w : Value} (hs : m.stack.Holds n (l ++ [v, w])) {g : Value → Value → Exec Unit}
    {Q : Unit → Machine → Prop} {E : Fault → Machine → Prop}
    (h : ∀ m₁, m.Moves n l m₁ → Gives (g w v) m₁ Q E) :
    Gives (do let w ← pop; let v ← pop; g w v) m Q E := by
  rw [← List.singleton_append, ← List.append_assoc] at hs
  refine (pop_gives hs).bind (fun _ _ h => h.elim) ?_
  rintro _ m₁ ⟨rfl, hm₁, -⟩
  refine (pop_gives hm₁.holds).bind (fun _ _ h => h.elim) ?_
  rintro _ m₂ ⟨rfl, hm₂, -⟩
  exact h m₂ (hm₁.trans hm₂)

theorem window_gives (hs : m.stack.Holds n (l ++ args)) {g : List Value → Exec Unit}
    {Q : Unit → Machine → Prop} {E : Fault → Machine → Prop}
    (h : ∀ m₁, m.Moves n l m₁ → Gives (g args) m₁ Q E) :
    Gives (do
      let vs ← onStack (Stacking.window args.length)
      onStack (Stacking.discard args.length)
      g vs) m Q E := by
  refine (onStack_ok (Stacking.window_gives hs)).bind (fun _ _ h => h.elim) ?_
  rintro _ _ ⟨_, ⟨rfl, rfl⟩, rfl⟩
  refine (onStack_ok (Stacking.discard_gives hs)).bind (fun _ _ h => h.elim) ?_
  rintro _ _ ⟨s, hs, rfl⟩
  exact h _ ⟨s, hs, rfl⟩

theorem binary_computes {op : Operator} (hi : i.op = .binary op) (hs : m.stack.Holds n (l ++ args))
    (ha : args.length = 2) : Computes m f n l (m.compute f i args) (execute i.op a b) m := by
  obtain ⟨left, right, rfl⟩ := List.length_eq_two.mp ha
  simp only [Machine.compute, hi, execute]
  exact pop_pop_gives hs fun m₁ hm₁ => pushExcept_computes hm₁ _

theorem index_computes (hi : i.op = .index) (hs : m.stack.Holds n (l ++ args))
    (ha : args.length = 2) : Computes m f n l (m.compute f i args) (execute i.op a b) m := by
  obtain ⟨target, index, rfl⟩ := List.length_eq_two.mp ha
  simp only [Machine.compute, hi, execute]
  exact pop_pop_gives hs fun m₁ hm₁ => pushExcept_computes hm₁ _

theorem unary_computes {op : UnaryOp} (hi : i.op = .unary op) (hs : m.stack.Holds n (l ++ args))
    (ha : args.length = 1) : Computes m f n l (m.compute f i args) (execute i.op a b) m := by
  obtain ⟨v, rfl⟩ := List.length_eq_one_iff.mp ha
  simp only [Machine.compute, hi, execute]
  refine (pop_gives hs).bind (fun _ _ h => h.elim) ?_
  rintro _ m₁ ⟨rfl, hm₁, -⟩
  exact pushExcept_computes hm₁ _

theorem array_computes (hi : i.op = .array) (hs : m.stack.Holds n (l ++ args))
    (ha : args.length = a) : Computes m f n l (m.compute f i args) (execute i.op a b) m := by
  subst ha
  simp only [Machine.compute, hi, execute, makeArray]
  refine window_gives hs fun m₁ hm₁ => ?_
  exact pushMade_computes hm₁ fun stamp => .array stamp args

theorem hash_computes (hi : i.op = .hash) (hs : m.stack.Holds n (l ++ args))
    (ha : args.length = a) : Computes m f n l (m.compute f i args) (execute i.op a b) m := by
  subst ha
  simp only [Machine.compute, hi, execute, makeHash]
  refine window_gives hs fun m₁ hm₁ => ?_
  cases Entries.ofPairs [] (Value.pairUp args) with
  | error kind => exact ⟨hm₁.halts (.refl _), .inl rfl⟩
  | ok entries => exact pushMade_computes hm₁ fun stamp => .hash stamp entries

theorem closure_computes (hi : i.op = .closure) (hs : m.stack.Holds n (l ++ args))
    (hk : i.operands[0]?.getD 0 = a) (ha : args.length = b) :
    Computes m f n l (m.compute f i args) (execute i.op a b) m := by
  subst ha
  simp only [Machine.compute, hi, execute, makeClosure, hk]
  refine get_gives.bind (fun _ _ h => h.elim) ?_
  rintro _ m ⟨rfl, rfl⟩
  cases m.constants[a]? with
  | none => exact ⟨.refl _, .inl rfl⟩
  | some v =>
    cases v with
    | function body =>
      refine window_gives hs fun m₁ hm₁ => ?_
      exact pushMade_computes hm₁ fun stamp => .closure stamp body args
    | _ => exact ⟨.refl _, .inl rfl⟩

theorem get_computes {p : Place} (hi : i.op = .get) (hf : m.frames = f :: fs)
    (hs : m.stack.Holds n l) (hp : i.operands[0]?.getD 0 = p.operand) (hself : p.storage ≠ .self)
    (hlt : p.index < Storage.slotLimit) :
    Computes m f n l (m.compute f i []) (execute i.op p.operand b) m := by
  simp only [Machine.compute, hi, execute, hp, Place.ofOperand_operand hself hlt]
  refine (loadSlot_gives hf hself hlt).bind ?_ ?_
  · rintro e _ ⟨rfl, hv, rfl⟩
    simp only [hv]
    exact ⟨.refl _, .inl trivial⟩
  · rintro v _ ⟨rfl, hv⟩
    simp only [hv]
    exact push_computes (.refl hs) v

theorem storeSlot_gives {p : Place} (hf : m.frames = f :: fs) (hs : m.stack.Holds n l)
    (ha : p.storage.assignable = true) (hlt : p.index < Storage.slotLimit)
    (hl : p.storage = .localSlot → f.base + p.index < l.length) (v : Value) :
    Gives (storeSlot p.operand v) m
      (fun _ m' => m.writable p = true ∧
        m.Becomes f n l { written := some (p, v), stamp := m.nextStamp } m')
      (fun e m' => m' = m ∧ m.writable p = false ∧ e = p.fault m.globals.size) := by
  obtain ⟨storage, index⟩ := p
  have hself : storage ≠ .self := by
    rintro rfl
    cases ha
  unfold storeSlot Place.fault
  rw [Place.operand, Storage.decode_encode hself hlt]
  cases storage with
  | globalSlot =>
    simp only
    refine get_gives.bind (fun _ _ h => h.elim) ?_
    rintro _ m ⟨rfl, rfl⟩
    by_cases hi : index < m.globals.size
    · simp only [hi, if_true]
      refine ⟨by simp [Machine.writable, hi], m.stack, ?_, by simp [Result.onGlobals]⟩
      simpa [Result.onLocals] using hs
    · simp only [hi, if_false]
      exact ⟨rfl, by simpa [Machine.writable] using hi, rfl⟩
  | localSlot =>
    refine (frame_gives hf).bind (fun _ _ h => h.elim) ?_
    rintro g m ⟨rfl, rfl⟩
    refine (onStack_ok (Stacking.write_gives hs (hl rfl) v)).mono ?_ fun _ _ h => h.elim
    rintro _ _ ⟨s, hs', rfl⟩
    exact ⟨rfl, s, by simpa [Result.onLocals] using hs', by simp [Result.onGlobals]⟩
  | _ => cases ha

theorem set_computes {p : Place} (hi : i.op = .set) (hf : m.frames = f :: fs)
    (hs : m.stack.Holds n (l ++ args)) (ha : args.length = 1)
    (hp : i.operands[0]?.getD 0 = p.operand) (hassign : p.storage.assignable = true)
    (hlt : p.index < Storage.slotLimit)
    (hl : p.storage = .localSlot → f.base + p.index < l.length) :
    Computes m f n l (m.compute f i args) (execute i.op p.operand b) m := by
  obtain ⟨v, rfl⟩ := List.length_eq_one_iff.mp ha
  have hself : p.storage ≠ .self := Place.storage_ne_self hassign
  simp only [Machine.compute, hi, execute, hp, Place.ofOperand_operand hself hlt]
  refine (pop_gives hs).bind (fun _ _ h => h.elim) ?_
  rintro v _ ⟨rfl, ⟨s, hs₁, rfl⟩, -⟩
  refine (copied_gives _).bind (fun _ _ h => h.elim) ?_
  rintro _ _ ⟨rfl, rfl⟩
  refine (storeSlot_gives (m := { m with stack := s, nextStamp := (v.copy m.nextStamp).2 }) hf hs₁
    hassign hlt hl _).mono ?_ ?_
  · rintro _ m' ⟨hw, hb⟩
    rw [if_pos (show m.writable p = true from hw)]
    exact ⟨_, rfl, hb⟩
  · rintro e _ ⟨rfl, hw, rfl⟩
    rw [if_neg (by rw [show m.writable p = false from hw]; exact Bool.false_ne_true)]
    exact ⟨⟨s, _, v.le_copy _, rfl⟩, .inl rfl⟩

theorem Machine.writable_of_value {p : Place} {v : Value} (h : m.valueAt? f p = some v) :
    m.writable p = true := by
  obtain ⟨storage, index⟩ := p
  cases storage with
  | globalSlot => simpa [Machine.writable] using (Array.getElem?_eq_some_iff.mp h).1
  | _ => rfl

theorem setElement_computes {p : Place} (hi : i.op = .setElement) (hf : m.frames = f :: fs)
    (hs : m.stack.Holds n (l ++ args)) (ha : args.length = 2)
    (hp : i.operands[0]?.getD 0 = p.operand) (hassign : p.storage.assignable = true)
    (hlt : p.index < Storage.slotLimit)
    (hl : p.storage = .localSlot → f.base + p.index < l.length) :
    Computes m f n l (m.compute f i args) (execute i.op p.operand b) m := by
  obtain ⟨index, v, rfl⟩ := List.length_eq_two.mp ha
  have hself : p.storage ≠ .self := Place.storage_ne_self hassign
  have hlive : m.stack.live = l ++ [index, v] := hs.live
  rw [← List.singleton_append, ← List.append_assoc] at hs
  simp only [Machine.compute, hi, execute, setElement, hp, Place.ofOperand_operand hself hlt]
  refine (pop_gives hs).bind (fun _ _ h => h.elim) ?_
  rintro v _ ⟨rfl, ⟨s₁, hs₁, rfl⟩, -⟩
  refine (copied_gives _).bind (fun _ _ h => h.elim) ?_
  rintro _ _ ⟨rfl, rfl⟩
  refine (pop_gives (m := { m with stack := s₁, nextStamp := (v.copy m.nextStamp).2 }) hs₁).bind
    (fun _ _ h => h.elim) ?_
  rintro index _ ⟨rfl, ⟨s₂, hs₂, rfl⟩, -⟩
  have hvalue : Machine.valueAt? { m with stack := s₂, nextStamp := (v.copy m.nextStamp).2 } f p =
      m.valueAt? f p := by
    refine Machine.valueAt?_congr rfl fun hlocal => ?_
    rw [show s₂.live = l from hs₂.live, hlive, List.getElem?_append_left (hl hlocal)]
  refine (loadSlot_gives (m := { m with stack := s₂, nextStamp := (v.copy m.nextStamp).2 }) hf hself
    hlt).bind ?_ ?_
  · rintro e _ ⟨rfl, hv, rfl⟩
    rw [hvalue] at hv
    simp only [hv]
    exact ⟨⟨s₂, _, v.le_copy _, rfl⟩, .inl trivial⟩
  rintro target _ ⟨rfl, hv⟩
  rw [hvalue] at hv
  simp only [hv]
  refine freshStamp_gives.bind (fun _ _ h => h.elim) ?_
  rintro _ _ ⟨rfl, rfl⟩
  refine (ofExcept_gives _).bind ?_ ?_
  · rintro e _ ⟨he, rfl⟩
    simp only [he]
    exact ⟨⟨s₂, _, Nat.le_succ_of_le (v.le_copy _), rfl⟩, .inl rfl⟩
  rintro updated _ ⟨hu, rfl⟩
  simp only [hu]
  refine (storeSlot_gives (m := { m with stack := s₂, nextStamp := (v.copy m.nextStamp).2 + 1 }) hf hs₂
    hassign hlt hl _).bind ?_ ?_
  · rintro e _ ⟨-, hw, -⟩
    cases (show true = false from (Machine.writable_of_value hv).symm.trans hw)
  rintro _ _ ⟨-, s₃, hs₃, rfl⟩
  refine (push_room hs₃ ?_ _).mono ?_ fun _ _ h => h.elim
  · have hlen := hs.length_le
    simp only [List.length_append, List.length_cons, List.length_nil, Result.length_onLocals,
      Option.toList_none] at hlen ⊢
    omega
  · rintro _ _ ⟨s₄, hs₄, rfl⟩
    exact ⟨_, rfl, s₄, by simpa [Result.onLocals] using hs₄, rfl⟩

theorem callBuiltin_computes {index : Nat} (hs : m.stack.Holds n (l ++ .builtin index :: args)) :
    Computes m f n l (m.computeCall (.builtin index) args) (callBuiltin index args.length) m := by
  have hlen := hs.length_le
  simp only [List.length_append, List.length_cons] at hlen
  simp only [Machine.computeCall, callBuiltin]
  cases Builtin.ofIndex? index with
  | none => exact ⟨.refl _, .inl rfl⟩
  | some builtin =>
    have hargs : m.stack.Holds n ((l ++ [.builtin index]) ++ args) := by simpa using hs
    refine (onStack_ok (Stacking.window_gives hargs)).bind (fun _ _ h => h.elim) ?_
    rintro args _ ⟨_, ⟨rfl, rfl⟩, rfl⟩
    refine freshStamp_gives.bind (fun _ _ h => h.elim) ?_
    rintro _ _ ⟨rfl, rfl⟩
    simp only
    cases builtin.apply m.nextStamp args with
    | error refusal => exact ⟨⟨m.stack, _, Nat.le_succ _, rfl⟩, .inl rfl⟩
    | ok reply =>
      refine (modify_gives _).bind (fun _ _ h => h.elim) ?_
      intro _ m₁ hm₁
      have hdiscard : Gives (Stacking.discard (args.length + 1)) m₁.stack
          (fun _ s => s.Holds n l) (fun _ _ => False) := by
        rw [hm₁]
        exact Stacking.discard_gives hs
      refine (onStack_ok hdiscard).bind (fun _ _ h => h.elim) ?_
      rintro _ _ ⟨s, hs₁, rfl⟩
      refine (push_room hs₁ (by omega) _).mono ?_ fun _ _ h => h.elim
      rintro _ _ ⟨s', hs₂, rfl⟩
      subst hm₁
      exact ⟨_, rfl, s', hs₂, by simp [Result.onGlobals]⟩

theorem call_computes (hi : i.op = .call) (hs : m.stack.Holds n (l ++ args))
    (ha : args.length = a + 1) (hc : ∀ stamp body free, args.head? ≠ some (.closure stamp body free)) :
    Computes m f n l (m.compute f i args) (execute i.op a b) m := by
  obtain ⟨callee, args, rfl⟩ := List.exists_cons_of_length_eq_add_one ha
  obtain rfl : args.length = a := by simpa using ha
  simp only [Machine.compute, hi, execute, call]
  refine (onStack_ok (Stacking.peek_gives hs)).bind (fun _ _ h => h.elim) ?_
  rintro callee _ ⟨_, ⟨rfl, rfl⟩, rfl⟩
  cases callee with
  | closure stamp body free => exact absurd rfl (hc stamp body free)
  | builtin index => exact callBuiltin_computes hs
  | _ => exact ⟨.refl _, .inl rfl⟩

/-- An instruction of a listing computes its result, unless it jumps or calls a closure. -/
theorem execute_computes {j : Item} {x : Extent} (hf : m.frames = f :: fs)
    (hs : m.stack.Holds n (l ++ args)) (ha : args.length = j.pops)
    (hsound : j.Sound m.constants x) (hl : f.base + x.locals ≤ l.length)
    (hstraight : j.op.straight = true)
    (hc : j.op = .call → ∀ stamp body free, args.head? ≠ some (.closure stamp body free)) :
    Computes m f n l (m.compute f j.toInstruction args)
      (execute j.op (j.operands[0]?.getD 0) (j.operands[1]?.getD 0)) m := by
  have hlocal {p : Place} (hp : p.Within x) (hstorage : p.storage = .localSlot) :
      f.base + p.index < l.length := by
    simp only [Place.Within, hstorage] at hp
    omega
  have hpops {op : Opcode} (ho : j.op = op) : args.length = ({ j.toInstruction with op := op } : Instruction).pops := by
    rw [ha, ← ho]
  cases ho : j.op with
  | jump | jumpIfFalse | ret | retValue => simp [ho, Opcode.straight] at hstraight
  | constant =>
    obtain rfl := List.length_eq_zero_iff.mp (hpops ho)
    rw [List.append_nil] at hs
    exact ho ▸ constant_computes ho hs rfl
  | true | false | null =>
    obtain rfl := List.length_eq_zero_iff.mp (hpops ho)
    rw [List.append_nil] at hs
    simp only [Machine.compute, ho]
    exact push_computes (.refl hs) _
  | currentClosure =>
    obtain rfl := List.length_eq_zero_iff.mp (hpops ho)
    rw [List.append_nil] at hs
    simp only [Machine.compute, ho, execute]
    refine (frame_gives hf).bind (fun _ _ h => h.elim) ?_
    rintro g _ ⟨rfl, rfl⟩
    exact push_computes (.refl hs) _
  | pop => exact ho ▸ pop_computes ho hs (hpops ho)
  | binary op => exact ho ▸ binary_computes ho hs (hpops ho)
  | unary op => exact ho ▸ unary_computes ho hs (hpops ho)
  | array => exact ho ▸ array_computes ho hs (hpops ho)
  | hash => exact ho ▸ hash_computes ho hs (hpops ho)
  | index => exact ho ▸ index_computes ho hs (hpops ho)
  | get =>
    obtain rfl := List.length_eq_zero_iff.mp (hpops ho)
    rw [List.append_nil] at hs
    obtain ⟨p, hp, hself, hlt, -⟩ := hsound.names (.inl ho)
    rw [hp]
    exact ho ▸ get_computes ho hf hs (by simp [hp]) hself hlt
  | set =>
    obtain ⟨p, hp, hassign, hlt, hwithin⟩ := hsound.assignable (.inl ho)
    rw [hp]
    exact ho ▸ set_computes ho hf hs (hpops ho) (by simp [hp]) hassign hlt (hlocal hwithin)
  | setElement =>
    obtain ⟨p, hp, hassign, hlt, hwithin⟩ := hsound.assignable (.inr ho)
    rw [hp]
    exact ho ▸ setElement_computes ho hf hs (hpops ho) (by simp [hp]) hassign hlt (hlocal hwithin)
  | call => exact ho ▸ call_computes ho hs (hpops ho) (hc ho)
  | closure => exact ho ▸ closure_computes ho hs rfl (hpops ho)

end Exec

end StackScript
