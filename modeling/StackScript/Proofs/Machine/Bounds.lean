import StackScript.Proofs.Machine.Access
import StackScript.Proofs.Machine.Invariants

/-! # Machines stay within their limits

Whatever code runs, the stack keeps its capacity and the globals their number, and there are never
more active calls than the limits allow.
-/

namespace StackScript

structure Machine.Within (m : Machine) (l : Limits) : Prop where
  limits : m.limits = l
  capacity : m.stack.capacity = l.stack
  frames : m.frames.length ≤ l.frames
  globals : m.globals.size = l.globals

theorem Machine.Within.sp_le {m : Machine} {limits : Limits} (h : m.Within limits) :
    m.stack.sp ≤ limits.stack := h.capacity ▸ m.stack.sp_le

theorem Machine.Within.steady (limits : Limits) : Machine.Steady (·.Within limits) where
  stack hs hm := ⟨hm.limits, hs.trans hm.capacity, hm.frames, hm.globals⟩
  globals hg hm := ⟨hm.limits, hm.capacity, hm.frames, hg.trans hm.globals⟩
  stamp _ hm := ⟨hm.limits, hm.capacity, hm.frames, hm.globals⟩
  output _ hm := ⟨hm.limits, hm.capacity, hm.frames, hm.globals⟩
  jump _ hf hm := ⟨hm.limits, hm.capacity, by simpa [hf] using hm.frames, hm.globals⟩
  leave hm := ⟨hm.limits, hm.capacity, by simpa using Nat.le_trans (Nat.sub_le _ 1) hm.frames,
    hm.globals⟩

theorem Exec.step_keeps {limits : Limits} : Keeps (·.Within limits) step := by
  intro m hm
  have hsteady := Machine.Within.steady limits
  cases hf : m.frames with
  | nil =>
    unfold Gives step frame
    simp only [bind_apply, get_apply, hf]
    exact hm
  | cons f fs =>
    refine step_split hf (fun _ => leave_keeps hsteady none m hm) (fun _ _ _ => hm) fun _ _ => ?_
    exact fetch_enters hsteady
      (fun m f hlt hm => ⟨hm.limits, hm.capacity, hm.limits ▸ hlt, hm.globals⟩) (fun _ h => h) f
      ⟨hm.limits, hm.capacity, hm.frames, hm.globals⟩

theorem Machine.Within.runFor {m : Machine} {limits : Limits} (h : m.Within limits) (fuel : Nat) :
    (m.runFor fuel).2.Within limits := by
  induction fuel generalizing m with
  | zero => exact h
  | succ fuel ih =>
    cases hf : m.frames with
    | nil => simpa only [Machine.runFor, hf] using h
    | cons f fs =>
      have hstep := Exec.step_keeps m h
      rcases hs : Exec.step m with ⟨e | _, m₁⟩ <;> simp only [Machine.runFor, hf, hs]
      · exact hstep.of_error hs
      · exact ih (hstep.of_ok hs)

theorem Limits.frames_pos {limits : Limits} (h : limits.validate = .ok ()) : 1 ≤ limits.frames := by
  unfold Limits.validate at h
  grind

theorem Machine.start_within {program : Linked} {limits : Limits} {globals : Array Value}
    {stamp : Nat} {m : Machine} (h : Machine.start program limits globals stamp = .ok m) :
    m.Within limits := by
  obtain ⟨hvalid, hsize, rfl⟩ := Machine.start_eq h
  refine ⟨rfl, by simp [Stack.capacity, Stack.ofCapacity], Limits.frames_pos hvalid, ?_⟩
  simp only [Array.size_append, Array.size_replicate]
  omega

/-- The machine is within its limits, and neither its next step nor a look at the locals of a call
takes an element, a slice or a difference out of range. -/
structure Machine.InRange (m : Machine) (limits : Limits) : Prop where
  within : m.Within limits
  sp_le : m.stack.sp ≤ limits.stack
  step : m.frames ≠ [] →
    Access.step (m.frames.length - 1) m.bare = some ((Exec.step m).1, (Exec.step m).2.bare)
  /-- Also when the step ends with a fault. -/
  next : (Exec.step m).2.Within limits
  locals : ∀ depth, Access.frameLocals depth m.bare =
    some (.ok (m.frames.reverse[depth]?.map m.frameLocals), m.bare)

theorem Machine.Within.inRange {m : Machine} {limits : Limits} (h : m.Within limits) :
    m.InRange limits where
  within := h
  sp_le := h.sp_le
  step hne := by
    obtain ⟨f, fs, hf⟩ := List.exists_cons_of_ne_nil hne
    have hfollows := Access.step_follows hf
    unfold Follows at hfollows
    simpa [hf] using hfollows
  next := by
    have hkeeps := Exec.step_keeps m h
    unfold Gives at hkeeps
    rcases hs : Exec.step m with ⟨e | a, m'⟩ <;> rw [hs] at hkeeps <;> exact hkeeps
  locals := Access.frameLocals_eq m

/-- Whatever the code, the constants and the globals are, every machine that a run comes to is in
range: its next step ends with a result or a fault. -/
theorem Machine.Steps.in_range {program : Linked} {limits : Limits} {globals : Array Value}
    {stamp : Nat} {m₀ m : Machine} (hstart : Machine.start program limits globals stamp = .ok m₀)
    (hsteps : m₀.Steps m) : m.InRange limits := by
  have hm : m.Within limits := by
    refine hsteps.invariant (I := (·.Within limits)) (Machine.start_within hstart) ?_
    intro m m' hm _ hstep
    exact (Exec.step_keeps m hm).of_ok hstep
  exact hm.inRange

/-- A hand-made closure pops its callee and a value of its caller, so that its base is above the
top of the stack. -/
theorem Machine.in_range_below_base :
    let body : Function := ⟨#[Opcode.pop.byte, Opcode.pop.byte, Opcode.ret.byte], 0, 0, none, {}⟩
    let program : Linked :=
      ⟨#[Opcode.null.byte, Opcode.constant.byte, 0, 0, Opcode.call.byte, 0, 0],
        #[.closure 7 body []], {}⟩
    ∃ m₀ m f fs, Machine.start program ⟨2, 2, 1, none⟩ #[] firstStamp = .ok m₀ ∧ m₀.Steps m ∧
      m.frames = f :: fs ∧ m.stack.sp < f.base ∧ m.InRange ⟨2, 2, 1, none⟩ := by
  intro body program
  obtain ⟨m₀, hstart⟩ : ∃ m₀, Machine.start program ⟨2, 2, 1, none⟩ #[] firstStamp = .ok m₀ :=
    ⟨_, rfl⟩
  have hrun : (m₀.runFor 5).1 = .running := by
    obtain ⟨-, -, rfl⟩ := Machine.start_eq hstart
    decide +kernel
  have hbase : (m₀.runFor 5).2.frames.head?.any ((m₀.runFor 5).2.stack.sp < ·.base) = true := by
    obtain ⟨-, -, rfl⟩ := Machine.start_eq hstart
    decide +kernel
  have hcases := m₀.runFor_cases 5
  rcases hm : m₀.runFor 5 with ⟨outcome, m⟩
  rw [hm] at hrun hbase hcases
  cases hrun
  rcases hf : m.frames with _ | ⟨f, fs⟩
  · simp [hf] at hbase
  · exact ⟨m₀, m, f, fs, hstart, hcases, hf, by simpa [hf] using hbase, Steps.in_range hstart hcases⟩

end StackScript
