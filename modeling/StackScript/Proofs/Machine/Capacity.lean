import StackScript.Proofs.Machine.Margin

/-! # Larger capacities

A run that fits into its limits is the same run under larger ones: nothing that a program does
depends on how much room is left.
-/

namespace StackScript

/-- Other limits leave at least as much room, and the same budget. -/
structure Limits.Fits (small large : Limits) : Prop where
  stack : small.stack ≤ large.stack
  frames : small.frames ≤ large.frames
  globals : small.globals ≤ large.globals
  budget : large.budget = small.budget

/-- A fault that more room can prevent. -/
def Fault.lacksRoom : Fault → Bool
  | .stackOverflow _ | .frameOverflow _ | .globalOutOfRange _ _ => true
  | _ => false

def Outcome.lacksRoom : Outcome → Bool
  | .failed error => error.fault.lacksRoom
  | _ => false

/-- The machines agree, but for their room: the second one has `more` globals behind those of the
first, which are null. -/
structure Machine.AgreesWith (m : Machine) (more : Nat) (m' : Machine) : Prop where
  frames : m'.frames = m.frames
  sp : m'.stack.sp = m.stack.sp
  live : m'.stack.live = m.stack.live
  lastPopped : m'.lastPopped = m.lastPopped
  globals : m'.globals = m.globals ++ Array.replicate more .null
  constants : m'.constants = m.constants
  executed : m'.executed = m.executed
  nextStamp : m'.nextStamp = m.nextStamp
  output : m'.output = m.output

namespace Margin

def ofLimits (small large : Limits) : Margin where
  stack s s' := s' = s.widen (large.stack - small.stack)
  slots := large.stack - small.stack
  frames := large.frames - small.frames
  globals := large.globals - small.globals

variable {small large : Limits} {e : Fault}

theorem ofLimits_alike : (ofLimits small large).Alike := .widen rfl rfl

theorem lacksRoom_of_excuses (h : (ofLimits small large).Excuses e) : e.lacksRoom = true := by
  cases e <;> first | rfl | exact h.elim | exact absurd h (Nat.lt_irrefl 0)

end Margin

namespace Machine

variable {small large : Limits} {program : Linked} {globals : Array Value} {stamp : Nat}
  {m m' m₀ : Machine}

theorem Beside.agreesWith (h : m.Beside (.ofLimits small large) m') :
    m.AgreesWith (large.globals - small.globals) m' := by
  obtain ⟨_, rfl, rfl⟩ := h
  exact {
    frames := rfl
    sp := rfl
    live := Stack.live_widen _ _
    lastPopped := Stack.lastPopped_widen _ _
    globals := rfl
    constants := Array.append_empty
    executed := Nat.zero_add _
    nextStamp := rfl
    output := String.empty_append }

theorem Beside.runFor (h : m.Beside (.ofLimits small large) m') (fuel : Nat)
    (hroom : (m.runFor fuel).1.lacksRoom = false) :
    (m'.runFor fuel).1 = (m.runFor fuel).1 ∧
      (m.runFor fuel).2.Beside (.ofLimits small large) (m'.runFor fuel).2 := by
  induction fuel generalizing m m' with
  | zero => exact ⟨by simp only [Machine.runFor, h.frames]; rfl, h⟩
  | succ fuel ih =>
    have hframes : m'.frames = m.frames := h.frames
    cases hf : m.frames with
    | nil => simpa only [Machine.runFor, hframes, hf, true_and] using h
    | cons f fs =>
      have hstep : (Margin.ofLimits small large).Tracks Exec.step Exec.step m :=
        Exec.step_tracks Margin.ofLimits_alike hf (fun _ => rfl) rfl (.inr rfl)
      have hstep := hstep m' h
      simp only [Machine.runFor, hframes, hf] at hroom ⊢
      rcases hs : Exec.step m with ⟨e | _, m₁⟩ <;> rw [hs] at hstep <;> simp only [hs] at hroom ⊢
      · rcases hstep with hexcused | ⟨m₁', hs', hm₁⟩
        · have hlacks := Margin.lacksRoom_of_excuses hexcused
          simp [Outcome.lacksRoom, hlacks] at hroom
        · have hspan : m₁'.faultSpan? f.ip (fs.length + 1) = m₁.faultSpan? f.ip (fs.length + 1) := by
            simp only [faultSpan?, show m₁'.frames = m₁.frames from hm₁.frames]
          simp only [hs', hspan, true_and]
          exact hm₁
      · obtain ⟨m₁', hs', hm₁⟩ := hstep
        simp only [hs']
        exact ih hm₁ hroom

theorem start_beside (hfits : small.Fits large) (hlarge : large.validate = .ok ())
    (hstart : start program small globals stamp = .ok m₀) :
    ∃ m₀', start program large globals stamp = .ok m₀' ∧ m₀.Beside (.ofLimits small large) m₀' := by
  obtain ⟨-, hsize, rfl⟩ := start_eq hstart
  obtain ⟨m₀', hstart'⟩ := start_isOk program stamp hlarge (Nat.le_trans hsize hfits.globals)
  obtain ⟨-, -, rfl⟩ := start_eq hstart'
  have hglobals : small.globals - globals.size + (large.globals - small.globals) =
      large.globals - globals.size := by
    have := hfits.globals
    omega
  refine ⟨_, hstart', _, rfl, ?_⟩
  simp only [widen, Margin.ofLimits, Stack.widen, Stack.ofCapacity, Array.append_empty,
    Array.append_assoc, Array.replicate_append_replicate, String.empty_append, Nat.zero_add, id,
    ← hfits.budget, Nat.add_sub_cancel' hfits.stack, Nat.add_sub_cancel' hfits.frames,
    Nat.add_sub_cancel' hfits.globals, hglobals]

/-- A run that does not lack room is, step for step, the same run under larger limits, and ends in
the same way: with the same error, if with one. -/
theorem runFor_of_fits (hfits : small.Fits large) (hlarge : large.validate = .ok ())
    (hstart : start program small globals stamp = .ok m₀) :
    ∃ m₀', start program large globals stamp = .ok m₀' ∧
      (∀ fuel, (m₀.runFor fuel).1.lacksRoom = false →
        (m₀'.runFor fuel).1 = (m₀.runFor fuel).1 ∧
        (m₀.runFor fuel).2.AgreesWith (large.globals - small.globals) (m₀'.runFor fuel).2) ∧
      (m₀.run.1.lacksRoom = false → m₀'.run.1 = m₀.run.1 ∧
        m₀.run.2.AgreesWith (large.globals - small.globals) m₀'.run.2) := by
  obtain ⟨m₀', hstart', hbeside⟩ := start_beside hfits hlarge hstart
  have hrun (fuel : Nat) (hroom : (m₀.runFor fuel).1.lacksRoom = false) :
      (m₀'.runFor fuel).1 = (m₀.runFor fuel).1 ∧
      (m₀.runFor fuel).2.AgreesWith (large.globals - small.globals) (m₀'.runFor fuel).2 :=
    (hbeside.runFor fuel hroom).imp_right Beside.agreesWith
  have hfuel : m₀'.fuel = m₀.fuel := by
    obtain ⟨_, -, rfl⟩ := hbeside
    rfl
  refine ⟨m₀', hstart', hrun, fun hroom => ?_⟩
  unfold run
  rw [hfuel]
  exact hrun m₀.fuel hroom

/-- With one slot, a value fills the stack; to negate it fails with and without more slots. -/
theorem runFor_of_fits_full :
    let program : Linked := ⟨#[Opcode.true.byte, (Opcode.unary .neg).byte], #[], {}⟩
    ∃ m₀ m₀', start program ⟨1, 1, 0, some 2⟩ #[] firstStamp = .ok m₀ ∧
      start program ⟨3, 2, 4, some 2⟩ #[] firstStamp = .ok m₀' ∧
      m₀.run.1 = .failed ⟨.unsupportedOperand .neg .bool, none⟩ ∧
      m₀'.run.1 = m₀.run.1 ∧ m₀.run.2.AgreesWith 4 m₀'.run.2 := by
  intro program
  obtain ⟨m₀, hstart⟩ : ∃ m₀, start program ⟨1, 1, 0, some 2⟩ #[] firstStamp = .ok m₀ := ⟨_, rfl⟩
  have hrun : m₀.run.1 = .failed ⟨.unsupportedOperand .neg .bool, none⟩ := by
    obtain ⟨-, -, rfl⟩ := start_eq hstart
    decide +kernel
  have hfits : Limits.Fits ⟨1, 1, 0, some 2⟩ ⟨3, 2, 4, some 2⟩ :=
    ⟨by decide, by decide, by decide, rfl⟩
  obtain ⟨m₀', hstart', -, hsame⟩ := runFor_of_fits hfits rfl hstart
  exact ⟨m₀, m₀', hstart, hstart', hrun, hsame (by rw [hrun]; rfl)⟩

end Machine

end StackScript
