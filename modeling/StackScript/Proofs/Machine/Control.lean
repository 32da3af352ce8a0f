import StackScript.Proofs.Machine.Instructions

/-! # Calls, returns and steps

How control moves: jumps, calls of closures, returns, and the step that fetches the next instruction.
A run is a sequence of steps.
-/

namespace StackScript

variable {m : Machine} {f : Frame} {fs : List Frame} {n : Nat} {l args : List Value} {v : Value}

namespace Exec

theorem jumpIfFalse_gives (hf : m.frames = f :: fs) (hs : m.stack.Holds n (l ++ [v])) (a b : Nat) :
    Gives (execute .jumpIfFalse a b) m
      (fun _ m' => ∃ s : Stack, s.Holds n l ∧
        m' = { m with stack := s, frames := (if v.truthy then f else { f with ip := a }) :: fs })
      (fun _ _ => False) := by
  simp only [execute]
  refine (pop_gives hs).bind (fun _ _ h => h.elim) ?_
  rintro v _ ⟨rfl, ⟨s, hs', rfl⟩, -⟩
  cases v.truthy with
  | true => exact ⟨s, hs', by simp [hf]⟩
  | false =>
    refine (setIp_gives (m := { m with stack := s }) hf a).mono ?_ fun _ _ h => h
    rintro _ _ rfl
    exact ⟨s, hs', rfl⟩

/-- A closure starts with its arguments and with its other locals null. -/
theorem callClosure_gives {body : Function} (hs : m.stack.Holds n (l ++ args))
    (hp : body.params ≤ body.locals) (stamp : Nat) (free : List Value) :
    Gives (callClosure stamp body free args.length) m
      (fun _ m' => args.length = body.params ∧ ∃ s : Stack,
        s.Holds n (l ++ args ++ List.replicate (body.locals - args.length) .null) ∧
        m' = { m with stack := s, frames := ⟨stamp, body, free, 0, l.length⟩ :: m.frames })
      (fun e m' => m' = m ∧ (e = .wrongArity args.length body.params ∨
        e = .frameOverflow m.limits.frames ∨ e = .stackOverflow n)) := by
  unfold callClosure
  by_cases hparams : args.length = body.params
  · simp only [hparams, ne_eq, not_true_eq_false, if_false]
    rw [← hparams]
    refine get_gives.bind (fun _ _ h => h.elim) ?_
    rintro _ m ⟨rfl, rfl⟩
    by_cases hframes : m.limits.frames ≤ m.frames.length
    · simp only [hframes, if_true]
      exact ⟨rfl, .inr (.inl rfl)⟩
    · simp only [hframes, if_false]
      have hsp : m.stack.sp - args.length = l.length := by
        rw [hs.sp, List.length_append, Nat.add_sub_cancel]
      have htop : l.length + max body.locals args.length =
          (l ++ args).length + (body.locals - args.length) := by
        rw [List.length_append]
        omega
      rw [hsp, htop, ← List.length_append]
      refine (onStack_gives (Stacking.reserve_gives hs _)).bind ?_ ?_
      · rintro e _ ⟨_, ⟨rfl, rfl⟩, rfl⟩
        exact ⟨rfl, .inr (.inr rfl)⟩
      · rintro _ _ ⟨s, hs', rfl⟩
        exact ⟨trivial, s, hs', rfl⟩
  · simp only [hparams, ne_eq, not_false_eq_true, if_true]
    exact ⟨rfl, .inl rfl⟩

theorem call_closure_gives {body : Function} {stamp : Nat} {free : List Value}
    (hs : m.stack.Holds n (l ++ .closure stamp body free :: args))
    {Q : Unit → Machine → Prop} {E : Fault → Machine → Prop}
    (h : Gives (callClosure stamp body free args.length) m Q E) (b : Nat) :
    Gives (execute .call args.length b) m Q E := by
  simp only [execute, call]
  refine (onStack_ok (Stacking.peek_gives hs)).bind (fun _ _ h => h.elim) ?_
  rintro _ _ ⟨_, ⟨rfl, rfl⟩, rfl⟩
  exact h

theorem leave_eq (hf : m.frames = f :: fs) (result : Option Value) :
    leave result m = (if fs.isEmpty then
      match result with
      | some v => do
        onStack (Stacking.truncate 0)
        push v
        discard pop
      | none => if m.stack.sp = 0 then pure () else discard pop
    else do
      onStack (Stacking.truncate (f.base - 1))
      push (result.getD .null) : Exec Unit) { m with frames := fs } := by
  obtain ⟨constants, stack, frames, globals, limits, executed, nextStamp, output⟩ := m
  obtain rfl : frames = f :: fs := hf
  rfl

/-- Back in the caller, the result is in the place of the callee. -/
theorem leave_gives (hf : m.frames = f :: fs) (hfs : fs ≠ []) (hs : m.stack.Holds n l)
    (hb : 1 ≤ f.base) (hl : f.base ≤ l.length) (result : Option Value) :
    Gives (leave result) m
      (fun _ m' => ∃ s : Stack, s.Holds n (l.take (f.base - 1) ++ [result.getD .null]) ∧
        m' = { m with stack := s, frames := fs })
      (fun _ _ => False) := by
  have hempty : fs.isEmpty = false := by simpa using hfs
  have hroom : (l.take (f.base - 1)).length < n := by
    have := hs.length_le
    rw [List.length_take]
    omega
  unfold Gives
  rw [leave_eq hf, if_neg (by simp [hempty])]
  refine Gives.bind (onStack_ok (m := { m with frames := fs }) (Stacking.truncate_gives hs _))
    (fun _ _ h => h.elim) ?_
  rintro _ _ ⟨s, hs', rfl⟩
  refine (push_room hs' hroom _).mono ?_ fun _ _ h => h
  rintro _ _ ⟨s', hs'', rfl⟩
  exact ⟨s', hs'', rfl⟩

theorem leave_main_gives (hf : m.frames = [f]) (hs : m.stack.Holds n l) (hn : 0 < n) (v : Value) :
    Gives (leave (some v)) m
      (fun _ m' => ∃ s : Stack, s.Holds n [] ∧ s.lastPopped = v ∧
        m' = { m with stack := s, frames := [] })
      (fun _ _ => False) := by
  unfold Gives
  simp only [leave_eq hf, List.isEmpty_nil, if_true]
  refine Gives.bind (onStack_ok (m := { m with frames := [] }) (Stacking.truncate_gives hs 0))
    (fun _ _ h => h.elim) ?_
  rintro _ _ ⟨s, hs', rfl⟩
  refine (push_room hs' (by simpa using hn) v).bind (fun _ _ h => h) ?_
  rintro _ m₁ hm₁
  refine (pop_gives hm₁.holds).discarded.mono ?_ fun _ _ h => h
  rintro _ _ ⟨_, -, ⟨s₂, hs₂, rfl⟩, hlast⟩
  obtain ⟨s₁, hs₁, rfl⟩ := hm₁
  exact ⟨s₂, by simpa using hs₂, hlast, rfl⟩

/-- A program that runs off its end, with its value on the stack or with nothing. -/
theorem leave_end_gives (hf : m.frames = [f]) (hs : m.stack.Holds n l) (hl : l.length ≤ 1) :
    Gives (leave none) m
      (fun _ m' => ∃ s : Stack, s.Holds n [] ∧ (∀ v, l = [v] → s.lastPopped = v) ∧
        m' = { m with stack := s, frames := [] })
      (fun _ _ => False) := by
  unfold Gives
  simp only [leave_eq hf, List.isEmpty_nil, if_true]
  cases l with
  | nil =>
    have hsp : m.stack.sp = 0 := hs.sp
    simp only [hsp, if_true]
    exact ⟨m.stack, hs, nofun, rfl⟩
  | cons v l =>
    obtain rfl : l = [] := by simpa using hl
    have hsp : m.stack.sp ≠ 0 := by rw [hs.sp]; simp
    simp only [hsp, if_false]
    refine (pop_gives (m := { m with frames := [] }) (l := []) hs).discarded.mono ?_ fun _ _ h => h
    rintro _ _ ⟨_, -, ⟨s₂, hs₂, rfl⟩, hlast⟩
    refine ⟨s₂, hs₂, ?_, rfl⟩
    rintro w hw
    cases hw
    exact hlast

end Exec

/-- The machine that runs the instruction before `next`. -/
def Machine.fetched (m : Machine) (f : Frame) (fs : List Frame) (next : Nat) : Machine :=
  { m with frames := { f with ip := next } :: fs, executed := m.executed + 1 }

namespace Exec

theorem step_gives {i : Instruction} {next : Nat} {Q : Unit → Machine → Prop}
    {E : Fault → Machine → Prop} (hf : m.frames = f :: fs) (hip : f.ip < f.body.code.size)
    (hd : f.body.code.decode f.ip = .ok (i, next))
    (hb : ∀ budget, m.limits.budget = some budget → E (.budgetExhausted budget) m)
    (h : Gives (execute i.op (i.operands[0]?.getD 0) (i.operands[1]?.getD 0)) (m.fetched f fs next)
      Q E) : Gives step m Q E := by
  have hlt : ¬ f.body.code.size ≤ f.ip := by omega
  have hfetch : Gives (do
      modify fun m => { m with executed := m.executed + 1 }
      setIp next
      execute i.op (i.operands[0]?.getD 0) (i.operands[1]?.getD 0) : Exec Unit) m Q E := by
    unfold Gives setIp
    simp only [bind_apply, modify_apply, hf]
    exact h
  unfold step
  refine (frame_gives hf).bind (fun _ _ h => h.elim) ?_
  rintro f m ⟨rfl, rfl⟩
  simp only [hlt, if_false]
  refine get_gives.bind (fun _ _ h => h.elim) ?_
  rintro _ m ⟨rfl, rfl⟩
  simp only [hd]
  cases hbudget : m.limits.budget with
  | none => exact hfetch
  | some budget =>
    simp only
    split
    · exact hb budget hbudget
    · exact hfetch

theorem step_end {Q : Unit → Machine → Prop} {E : Fault → Machine → Prop} (hf : m.frames = f :: fs)
    (hip : f.ip = f.body.code.size) (h : Gives (leave none) m Q E) : Gives step m Q E := by
  unfold step
  refine (frame_gives hf).bind (fun _ _ h => h.elim) ?_
  rintro f m ⟨rfl, rfl⟩
  simp only [hip, Nat.le_refl, if_true]
  exact h

end Exec

inductive Machine.Steps : Machine → Machine → Prop
  | refl {m : Machine} : Steps m m
  | step {m m₁ m₂ : Machine} : m.frames ≠ [] → Exec.step m = (.ok (), m₁) → Steps m₁ m₂ → Steps m m₂

namespace Machine

variable {m₁ m₂ : Machine}

theorem Steps.trans (h : m.Steps m₁) (h' : m₁.Steps m₂) : m.Steps m₂ := by
  induction h with
  | refl => exact h'
  | step hf hs _ ih => exact .step hf hs (ih h')

theorem Steps.invariant {I : Machine → Prop} (h : m.Steps m₁) (hm : I m)
    (hstep : ∀ m m', I m → m.frames ≠ [] → Exec.step m = (.ok (), m') → I m') : I m₁ := by
  induction h with
  | refl => exact hm
  | step hf hs _ ih => exact ih (hstep _ _ hm hf hs)

/-- How a run ends is how its last step does. -/
theorem runFor_cases (fuel : Nat) (m : Machine) :
    match m.runFor fuel with
    | (.done, m') => m.Steps m' ∧ m'.frames = []
    | (.failed e, m') => ∃ m₁, m.Steps m₁ ∧ m₁.frames ≠ [] ∧ Exec.step m₁ = (.error e.fault, m') ∧
        ∀ f fs, m₁.frames = f :: fs → e.span = m'.faultSpan? f.ip (fs.length + 1)
    | (.running, m') => m.Steps m' := by
  induction fuel generalizing m with
  | zero =>
    cases hf : m.frames with
    | nil => simpa [runFor, hf] using .refl
    | cons f fs => simpa [runFor, hf] using .refl
  | succ fuel ih =>
    cases hf : m.frames with
    | nil => simpa [runFor, hf] using .refl
    | cons f fs =>
      have hne : m.frames ≠ [] := by simp [hf]
      rcases hs : Exec.step m with ⟨e | _, m₁⟩
      · simp only [runFor, hf, hs]
        refine ⟨m, .refl, hne, hs, fun g gs hg => ?_⟩
        cases hf.symm.trans hg
        rfl
      · have := ih m₁
        simp only [runFor, hf, hs]
        split at this
        · exact ⟨.step hne hs this.1, this.2⟩
        · obtain ⟨m₂, h, hrest⟩ := this
          exact ⟨m₂, .step hne hs h, hrest⟩
        · exact .step hne hs this

theorem Steps.runFor_add (h : m.Steps m₁) : ∃ n, ∀ fuel, m.runFor (n + fuel) = m₁.runFor fuel := by
  induction h with
  | refl => exact ⟨0, fun fuel => by rw [Nat.zero_add]⟩
  | @step m m' _ hframes hs _ ih =>
    obtain ⟨n, hn⟩ := ih
    obtain ⟨f, fs, hf⟩ := List.exists_cons_of_ne_nil hframes
    refine ⟨n + 1, fun fuel => ?_⟩
    rw [← hn fuel, Nat.add_right_comm]
    simp only [runFor, hf, hs]

theorem runFor_of_ended (h : m.frames = []) (fuel : Nat) : m.runFor fuel = (.done, m) := by
  cases fuel with
  | zero => simp [runFor, h]
  | succ fuel => simp [runFor, h]

/-- The run ends without a fault in `m'`, given enough time. -/
def Finishes (m m' : Machine) : Prop := ∃ n, ∀ fuel, n ≤ fuel → m.runFor fuel = (.done, m')

/-- The run ends with the fault `e` in `m'`, given enough time. -/
def Crashes (m : Machine) (e : Fault) (m' : Machine) : Prop :=
  ∃ n error, error.fault = e ∧ ∀ fuel, n ≤ fuel → m.runFor fuel = (.failed error, m')

theorem Steps.finishes (h : m.Steps m₁) (hf : m₁.frames = []) : m.Finishes m₁ := by
  obtain ⟨n, hn⟩ := h.runFor_add
  refine ⟨n, fun fuel hfuel => ?_⟩
  obtain ⟨k, rfl⟩ := Nat.exists_eq_add_of_le hfuel
  rw [hn, runFor_of_ended hf]

theorem Steps.crashes {e : Fault} (h : m.Steps m₁) (hf : m₁.frames ≠ [])
    (hs : Exec.step m₁ = (.error e, m₂)) : m.Crashes e m₂ := by
  obtain ⟨n, hn⟩ := h.runFor_add
  obtain ⟨f, fs, hframes⟩ := List.exists_cons_of_ne_nil hf
  refine ⟨n + 1, ⟨e, m₂.faultSpan? f.ip (fs.length + 1)⟩, rfl, fun fuel hfuel => ?_⟩
  obtain ⟨k, rfl⟩ := Nat.exists_eq_add_of_le hfuel
  rw [Nat.add_assoc, hn, Nat.add_comm 1 k]
  simp only [runFor, hframes, hs]

/-- Whether the machine still runs after `fuel` steps, with `p` of where it then is. -/
def reaches (m : Machine) (fuel : Nat) (p : Machine → Bool) : Bool :=
  match m.runFor fuel with
  | (.running, m') => p m'
  | _ => false

theorem steps_of_reaches {m : Machine} {fuel : Nat} {p : Machine → Bool}
    (h : m.reaches fuel p = true) : ∃ m', m.Steps m' ∧ p m' = true := by
  have hcases := m.runFor_cases fuel
  unfold reaches at h
  split at h
  · next m' hrun =>
    rw [hrun] at hcases
    exact ⟨m', hcases, h⟩
  · cases h

end Machine

theorem Machine.start_eq {p : Linked} {limits : Limits} {globals : Array Value} {next : Nat}
    (h : Machine.start p limits globals next = .ok m) :
    limits.validate = .ok () ∧ globals.size ≤ limits.globals ∧ m = {
      constants := p.constants
      stack := Stack.ofCapacity limits.stack
      frames := [⟨mainStamp, ⟨p.code, 0, 0, some "main", p.spans⟩, [], 0, 0⟩]
      globals := globals ++ Array.replicate (limits.globals - globals.size) .null
      limits := limits
      executed := 0
      nextStamp := next
      output := "" } := by
  unfold Machine.start at h
  cases hv : limits.validate with
  | error e => simp [hv, bind, Except.bind] at h
  | ok u =>
    simp only [hv, bind, Except.bind] at h
    split at h
    · cases h
    · exact ⟨rfl, by omega, (Except.ok.inj h).symm⟩

theorem Machine.start_isOk (program : Linked) (stamp : Nat) {limits : Limits} {globals : Array Value}
    (hvalid : limits.validate = .ok ()) (hsize : globals.size ≤ limits.globals) :
    ∃ m, Machine.start program limits globals stamp = .ok m := by
  unfold Machine.start
  simp only [hvalid, bind, Except.bind, Nat.not_lt.mpr hsize, if_false]
  exact ⟨_, rfl⟩

end StackScript
