import StackScript.Proofs.Machine.Control

/-! # Invariants of every instruction

Of most of a machine an instruction leaves little changed, whatever the code is. An invariant that
holds of any stack of the same capacity, of any globals of the same number and of fewer calls is kept
by everything but the call of a closure.
-/

namespace StackScript

namespace Stacking

variable {n : Nat}

abbrev KeepsCapacity {α : Type} (n : Nat) (x : Stacking α) : Prop := Keeps (·.capacity = n) x

theorem push_keeps (v : Value) : KeepsCapacity n (push v) := by
  rintro ⟨slots, sp, le⟩ hs
  unfold Gives push
  by_cases h : sp < slots.size <;> simpa [h, Stack.capacity] using hs

theorem pop_keeps : KeepsCapacity n pop := by
  rintro ⟨slots, _ | sp, le⟩ hs <;> exact hs

theorem peek_keeps (distance : Nat) : KeepsCapacity n (peek distance) := by
  intro s hs
  unfold Gives peek
  by_cases h : distance < s.sp <;> simpa [h] using hs

theorem window_keeps (k : Nat) : KeepsCapacity n (window k) := by
  intro s hs
  unfold Gives window
  by_cases h : k ≤ s.sp <;> simpa [h] using hs

theorem discard_keeps (k : Nat) : KeepsCapacity n (discard k) := by
  intro s hs
  unfold Gives discard
  by_cases h : k ≤ s.sp <;> simpa [h, Stack.capacity] using hs

theorem read_keeps (index : Nat) : KeepsCapacity n (read index) := by
  intro s hs
  unfold Gives read
  by_cases h : index < s.sp <;> simpa [h] using hs

theorem write_keeps (index : Nat) (v : Value) : KeepsCapacity n (write index v) := by
  intro s hs
  unfold Gives write
  by_cases h : index < s.sp <;> simpa [h, Stack.capacity] using hs

theorem reserve_keeps (clearFrom sp : Nat) : KeepsCapacity n (reserve clearFrom sp) := by
  intro s hs
  unfold Gives reserve
  by_cases h : sp ≤ s.slots.size <;> simpa [h, Stack.capacity, Stack.size_cleared] using hs

theorem truncate_keeps (sp : Nat) : KeepsCapacity n (truncate sp) := fun _ hs => hs

end Stacking

/-- Only calls and returns can break the invariant `I`. -/
structure Machine.Settled (I : Machine → Prop) : Prop where
  stack : ∀ {m s}, Stack.capacity s = m.stack.capacity → I m → I { m with stack := s }
  globals : ∀ {m g}, Array.size g = m.globals.size → I m → I { m with globals := g }
  stamp : ∀ {m} n, I m → I { m with nextStamp := n }
  output : ∀ {m} text, I m → I { m with output := text }
  jump : ∀ {m f fs} ip, m.frames = f :: fs → I m → I { m with frames := { f with ip := ip } :: fs }

/-- Only the call of a closure can break the invariant `I`. -/
structure Machine.Steady (I : Machine → Prop) : Prop where
  stack : ∀ {m s}, Stack.capacity s = m.stack.capacity → I m → I { m with stack := s }
  globals : ∀ {m g}, Array.size g = m.globals.size → I m → I { m with globals := g }
  stamp : ∀ {m} n, I m → I { m with nextStamp := n }
  output : ∀ {m} text, I m → I { m with output := text }
  jump : ∀ {m f fs} ip, m.frames = f :: fs → I m → I { m with frames := { f with ip := ip } :: fs }
  leave : ∀ {m}, I m → I { m with frames := m.frames.tail }

theorem Machine.Steady.settled {I : Machine → Prop} (h : Machine.Steady I) : Machine.Settled I :=
  ⟨h.stack, h.globals, h.stamp, h.output, h.jump⟩

namespace Exec

section Settled

variable {I : Machine → Prop} (hI : Machine.Settled I)
include hI

theorem onStack_keeps {α : Type} {step : Stacking α} (h : ∀ n, Stacking.KeepsCapacity n step) :
    Keeps I (onStack step) := by
  intro m hm
  refine (onStack_gives (h m.stack.capacity m.stack rfl)).mono ?_ ?_ <;>
  · rintro _ _ ⟨s, hs, rfl⟩
    exact hI.stack hs hm

theorem push_keeps (v : Value) : Keeps I (push v) := onStack_keeps hI fun _ => Stacking.push_keeps v

theorem pop_keeps : Keeps I pop := onStack_keeps hI fun _ => Stacking.pop_keeps

omit hI in
theorem ofExcept_keeps {α : Type} (r : Except Fault α) : Keeps I (ofExcept r) := by
  cases r
  · exact .throw _
  · exact .pure _

omit hI in
theorem frame_keeps : Keeps I frame := by
  refine Keeps.get.bind fun m => ?_
  split
  · exact .pure _
  · exact .throw _

theorem setIp_keeps (ip : Nat) : Keeps I (setIp ip) := by
  refine .modify fun m hm => ?_
  split
  · next f fs hf => exact hI.jump ip hf hm
  · exact hm

theorem freshStamp_keeps : Keeps I freshStamp := fun _ hm => hI.stamp _ hm

theorem copied_keeps (v : Value) : Keeps I (copied v) := fun _ hm => hI.stamp _ hm

theorem loadSlot_keeps (operand : Nat) : Keeps I (loadSlot operand) := by
  unfold loadSlot
  rcases Storage.decode operand with ⟨storage, index⟩
  cases storage with
  | globalSlot =>
    refine Keeps.get.bind fun m => ?_
    simp only
    split
    · exact .pure _
    · exact .throw _
  | localSlot => exact frame_keeps.bind fun f => onStack_keeps hI fun _ => Stacking.read_keeps _
  | builtin => exact .pure _
  | captured =>
    refine frame_keeps.bind fun f => ?_
    split
    · exact .pure _
    · exact .throw _
  | self => exact frame_keeps.bind fun f => .pure _

theorem storeSlot_keeps (operand : Nat) (v : Value) : Keeps I (storeSlot operand v) := by
  unfold storeSlot
  rcases Storage.decode operand with ⟨storage, index⟩
  cases storage with
  | globalSlot =>
    refine Keeps.get.bind fun m => .ite (.modify fun m hm => ?_) (.throw _)
    exact hI.globals Array.size_setIfInBounds hm
  | localSlot => exact frame_keeps.bind fun f => onStack_keeps hI fun _ => Stacking.write_keeps _ _
  | _ => exact .throw _

theorem take_keeps {β : Type} (n k : Nat) {f : List Value → Exec β} (h : ∀ vs, Keeps I (f vs)) :
    Keeps I (do
      let vs ← onStack (Stacking.window n)
      onStack (Stacking.discard k)
      f vs) :=
  (onStack_keeps hI fun _ => Stacking.window_keeps n).bind fun _ =>
    (onStack_keeps hI fun _ => Stacking.discard_keeps k).bind fun _ => h _

theorem make_keeps (make : Nat → Value) : Keeps I (do push (make (← freshStamp))) :=
  (freshStamp_keeps hI).bind fun _ => push_keeps hI _

theorem makeHash_keeps (length : Nat) : Keeps I (makeHash length) := by
  refine take_keeps hI length length fun items => ?_
  split
  · exact make_keeps hI _
  · exact .throw _

theorem makeClosure_keeps (constant captured : Nat) : Keeps I (makeClosure constant captured) := by
  refine Keeps.get.bind fun m => ?_
  split
  · exact take_keeps hI captured captured fun _ => make_keeps hI _
  · exact .throw _
  · exact .throw _

theorem callBuiltin_keeps (index argc : Nat) : Keeps I (callBuiltin index argc) := by
  unfold callBuiltin
  cases Builtin.ofIndex? index with
  | none => exact .throw _
  | some b =>
    refine (onStack_keeps hI fun _ => Stacking.window_keeps argc).bind fun args =>
      (freshStamp_keeps hI).bind fun stamp => ?_
    cases b.apply stamp args with
    | error refusal => exact .throw _
    | ok reply =>
      exact Keeps.bind (.modify fun m hm => hI.output _ hm) fun _ =>
        (onStack_keeps hI fun _ => Stacking.discard_keeps _).bind fun _ => push_keeps hI _

/-- What holds once the call is gone is kept while its result is handed over. -/
theorem leave_lands {m : Machine} {f : Frame} {fs : List Frame} (hf : m.frames = f :: fs)
    (hm : I { m with frames := fs }) (result : Option Value) :
    Gives (leave result) m (fun _ m' => I m') (fun _ m' => I m') := by
  unfold Gives
  rw [leave_eq hf]
  refine Keeps.ite ?_ ?_ _ hm
  · cases result with
    | some v =>
      exact (onStack_keeps hI fun _ => Stacking.truncate_keeps 0).bind fun _ =>
        (push_keeps hI v).bind fun _ => (pop_keeps hI).discard
    | none => exact .ite (.pure _) (pop_keeps hI).discard
  · exact (onStack_keeps hI fun _ => Stacking.truncate_keeps _).bind fun _ => push_keeps hI _

theorem setElement_keeps (operand : Nat) : Keeps I (setElement operand) :=
  (pop_keeps hI).bind fun v => (copied_keeps hI v).bind fun _ => (pop_keeps hI).bind fun _ =>
    (loadSlot_keeps hI operand).bind fun _ => (freshStamp_keeps hI).bind fun _ =>
      (ofExcept_keeps _).bind fun _ => (storeSlot_keeps hI operand _).bind fun _ => push_keeps hI _

/-- Every instruction but a call and a return keeps the invariant. -/
theorem execute_settles {op : Opcode} (hop : op ≠ .call ∧ op ≠ .ret ∧ op ≠ .retValue)
    (operand second : Nat) : Keeps I (execute op operand second) := by
  cases op with
  | constant =>
    refine Keeps.get.bind fun m => ?_
    split
    · exact push_keeps hI _
    · exact .throw _
  | true | false | null => exact push_keeps hI _
  | pop => exact (pop_keeps hI).discard
  | binary op =>
    exact (pop_keeps hI).bind fun _ => (pop_keeps hI).bind fun _ => (ofExcept_keeps _).bind fun _ =>
      push_keeps hI _
  | unary op =>
    exact (pop_keeps hI).bind fun _ => (ofExcept_keeps _).bind fun _ => push_keeps hI _
  | jump => exact setIp_keeps hI operand
  | jumpIfFalse => exact (pop_keeps hI).bind fun _ => .ite (.pure _) (setIp_keeps hI operand)
  | array => exact take_keeps hI operand operand fun _ => make_keeps hI _
  | hash => exact makeHash_keeps hI operand
  | index =>
    exact (pop_keeps hI).bind fun _ => (pop_keeps hI).bind fun _ => (ofExcept_keeps _).bind fun _ =>
      push_keeps hI _
  | get => exact (loadSlot_keeps hI operand).bind fun _ => push_keeps hI _
  | set =>
    exact (pop_keeps hI).bind fun _ => (copied_keeps hI _).bind fun _ => storeSlot_keeps hI operand _
  | setElement => exact setElement_keeps hI operand
  | call => exact absurd rfl hop.1
  | ret => exact absurd rfl hop.2.1
  | retValue => exact absurd rfl hop.2.2
  | closure => exact makeClosure_keeps hI operand second
  | currentClosure => exact frame_keeps.bind fun _ => push_keeps hI _

variable {J : Machine → Prop}
  (henter : ∀ m f, m.frames.length < m.limits.frames → I m → J { m with frames := f :: m.frames })
include henter

/-- Only here does a call become active, and only below the limit. -/
theorem callClosure_enters (stamp : Nat) (body : Function) (free : List Value) (argc : Nat)
    {m : Machine} (hm : I m) :
    Gives (callClosure stamp body free argc) m (fun _ m' => J m') (fun _ m' => I m') := by
  unfold callClosure
  by_cases hargs : argc = body.params
  · simp only [hargs, ne_eq, not_true_eq_false, if_false]
    refine get_gives.bind (fun _ _ h => h.elim) ?_
    rintro _ m ⟨rfl, rfl⟩
    by_cases hl : m.limits.frames ≤ m.frames.length
    · simp only [hl, if_true]
      exact hm
    · simp only [hl, if_false]
      refine (onStack_gives (Stacking.reserve_keeps _ _ m.stack rfl)).bind ?_ ?_
      · rintro e _ ⟨s, hs, rfl⟩
        exact hI.stack hs hm
      · rintro _ _ ⟨s, hs, rfl⟩
        exact henter _ _ (Nat.not_le.mp hl) (hI.stack hs hm)
  · simp only [hargs, ne_eq, not_false_eq_true, if_true]
    exact hm

end Settled

section Steady

variable {I : Machine → Prop} (hI : Machine.Steady I)
include hI

theorem leave_keeps (result : Option Value) : Keeps I (leave result) := by
  intro m hm
  cases hf : m.frames with
  | nil =>
    unfold Gives leave frame
    simp only [bind_apply, get_apply, hf]
    exact hm
  | cons f fs =>
    have hleft := hI.leave hm
    rw [hf] at hleft
    exact leave_lands hI.settled hf hleft result

/-- Every instruction but a call keeps the invariant. -/
theorem execute_keeps {op : Opcode} (hop : op ≠ .call) (operand second : Nat) :
    Keeps I (execute op operand second) := by
  by_cases hret : op = .ret
  · subst hret
    exact leave_keeps hI _
  by_cases hvalue : op = .retValue
  · subst hvalue
    exact (pop_keeps hI.settled).bind fun _ => leave_keeps hI _
  · exact execute_settles hI.settled ⟨hop, hret, hvalue⟩ operand second

variable {J : Machine → Prop}
  (henter : ∀ m f, m.frames.length < m.limits.frames → I m → J { m with frames := f :: m.frames })
include henter

theorem execute_enters (hIJ : ∀ m, I m → J m) (op : Opcode) (operand second : Nat) {m : Machine} (hm : I m) :
    Gives (execute op operand second) m (fun _ m' => J m') (fun _ m' => I m') := by
  have hkept {x : Exec Unit} {m : Machine} (h : Keeps I x) (hm : I m) :
      Gives x m (fun _ m' => J m') (fun _ m' => I m') :=
    (h m hm).mono (fun _ m' => hIJ m') fun _ _ h => h
  by_cases hop : op = .call
  · subst hop
    refine (onStack_keeps hI.settled (fun _ => Stacking.peek_keeps operand) m hm).bind (fun _ _ h => h) ?_
    intro v m hm
    cases v with
    | closure stamp body free => exact callClosure_enters hI.settled henter stamp body free operand hm
    | builtin index => exact hkept (callBuiltin_keeps hI.settled index operand) hm
    | _ => exact hm
  · exact hkept (execute_keeps hI hop operand second) hm

end Steady

/-- Count the next instruction of the innermost call `f`, and run it. -/
def fetch (f : Frame) : Exec Unit := do
  modify fun m => { m with executed := m.executed + 1 }
  match f.body.code.decode f.ip with
  | .error (.unknownOpcode byte offset) => throw (.unknownOpcode byte offset)
  | .error (.truncated offset) => throw (.truncatedInstruction offset)
  | .ok (i, next) =>
    setIp next
    execute i.op (i.operands[0]?.getD 0) (i.operands[1]?.getD 0)

variable {m : Machine} {f : Frame} {fs : List Frame}

theorem step_eq (hf : m.frames = f :: fs) :
    step m = (if f.body.code.size ≤ f.ip then leave none
      else match m.limits.budget with
        | some budget => if budget ≤ m.executed then throw (.budgetExhausted budget) else fetch f
        | none => fetch f : Exec Unit) m := by
  have hframe : frame m = (.ok f, m) := by
    simp only [frame, bind_apply, get_apply, hf]
    rfl
  unfold step
  rw [bind_apply, hframe]
  simp only
  split
  · rfl
  · rw [bind_apply, get_apply]
    simp only
    cases m.limits.budget with
    | none => rfl
    | some budget =>
      simp only
      split <;> rfl

/-- A step leaves a call that is at its end, stops for want of a budget, or runs an instruction. -/
theorem step_split {Q : Unit → Machine → Prop} {E : Fault → Machine → Prop}
    (hf : m.frames = f :: fs) (hleave : f.body.code.size ≤ f.ip → Gives (leave none) m Q E)
    (hspent : ∀ b, m.limits.budget = some b → b ≤ m.executed → E (.budgetExhausted b) m)
    (hfetch : f.ip < f.body.code.size → (∀ b, m.limits.budget = some b → m.executed < b) →
      Gives (fetch f) m Q E) : Gives step m Q E := by
  have hstep := step_eq hf
  by_cases hip : f.body.code.size ≤ f.ip
  · rw [if_pos hip] at hstep
    have := hleave hip
    unfold Gives at this ⊢
    rwa [hstep]
  · rw [if_neg hip] at hstep
    cases hb : m.limits.budget with
    | none =>
      have := hfetch (Nat.not_le.mp hip) (by simp [hb])
      unfold Gives at this ⊢
      rwa [hstep, hb]
    | some b =>
      unfold Gives
      rw [hstep, hb]
      simp only
      by_cases hle : b ≤ m.executed
      · rw [if_pos hle]
        exact hspent b hb hle
      · rw [if_neg hle]
        exact hfetch (Nat.not_le.mp hip) (by rintro _ h; cases hb.symm.trans h; exact Nat.not_le.mp hle)

/-- Within its budget a step runs the next instruction. -/
theorem step_unspent {i : Instruction} {next : Nat} {Q : Unit → Machine → Prop}
    {E : Fault → Machine → Prop} (hf : m.frames = f :: fs) (hip : f.ip < f.body.code.size)
    (hd : f.body.code.decode f.ip = .ok (i, next))
    (hb : ∀ budget, m.limits.budget = some budget → m.executed < budget)
    (h : Gives (execute i.op (i.operands[0]?.getD 0) (i.operands[1]?.getD 0)) (m.fetched f fs next)
      Q E) : Gives step m Q E := by
  refine step_split hf (fun hle => by omega) (fun b hbudget hspent => ?_) fun _ _ => ?_
  · have := hb b hbudget
    omega
  · unfold Gives fetch setIp
    simp only [bind_apply, modify_apply, hd, hf]
    exact h

/-- What holds once the instruction is counted is kept while it runs. -/
theorem fetch_enters {I J : Machine → Prop} (hI : Machine.Steady I)
    (henter : ∀ m f, m.frames.length < m.limits.frames → I m → J { m with frames := f :: m.frames })
    (hIJ : ∀ m, I m → J m) (f : Frame) (hm : I { m with executed := m.executed + 1 }) :
    Gives (fetch f) m (fun _ m' => J m') (fun _ m' => I m') := by
  refine (modify_gives _).bind (fun _ _ h => h.elim) ?_
  rintro _ _ rfl
  split
  · exact hm
  · exact hm
  · refine (setIp_keeps hI.settled _ _ hm).bind (fun _ _ h => h) fun _ m' hm' => ?_
    exact execute_enters hI henter hIJ _ _ _ hm'

end Exec

end StackScript
