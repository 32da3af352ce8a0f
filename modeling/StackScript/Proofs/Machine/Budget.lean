import StackScript.Proofs.Machine.Margin

/-! # Budgets

A budget cuts a run at an exact place. Up to there the machine does what it does without a budget,
and it always gets there or to its end: every call that is left without an instruction was entered
by one.
-/

namespace StackScript

structure Machine.Counts (m : Machine) (executed calls : Nat) (limits : Limits) : Prop where
  executed : m.executed = executed
  calls : m.frames.length ≤ calls
  limits : m.limits = limits

theorem Machine.Counts.steady (executed calls : Nat) (limits : Limits) :
    Machine.Steady (·.Counts executed calls limits) where
  stack _ hm := ⟨hm.executed, hm.calls, hm.limits⟩
  globals _ hm := ⟨hm.executed, hm.calls, hm.limits⟩
  stamp _ hm := ⟨hm.executed, hm.calls, hm.limits⟩
  output _ hm := ⟨hm.executed, hm.calls, hm.limits⟩
  jump _ hf hm := ⟨hm.executed, by simpa [hf] using hm.calls, hm.limits⟩
  leave hm := ⟨hm.executed, by simpa using Nat.le_trans (Nat.sub_le _ 1) hm.calls, hm.limits⟩

namespace Exec

variable {m : Machine} {f : Frame} {fs : List Frame}

/-- A call that is at its end is left uncounted; an instruction counts, also when it fails, and
enters at most one call. -/
theorem step_counts (hf : m.frames = f :: fs) (hfree : m.limits.budget = none) :
    Gives step m
      (fun _ m' =>
        (f.body.code.size ≤ f.ip ∧ m'.Counts m.executed fs.length m.limits) ∨
        (f.ip < f.body.code.size ∧ m'.Counts (m.executed + 1) (fs.length + 2) m.limits))
      (fun _ m' => (f.body.code.size ≤ f.ip ∧ m'.executed = m.executed) ∨
        (f.ip < f.body.code.size ∧ m'.executed = m.executed + 1)) := by
  refine step_split hf (fun hip => ?_) (by simp [hfree]) fun hip _ => ?_
  · refine (leave_lands (Machine.Counts.steady m.executed fs.length m.limits).settled hf ?_ none).mono ?_ ?_
    · exact ⟨rfl, Nat.le_refl _, rfl⟩
    · exact fun _ _ h => .inl ⟨hip, h⟩
    · exact fun _ _ h => .inl ⟨hip, h.executed⟩
  · refine (fetch_enters (Machine.Counts.steady (m.executed + 1) (fs.length + 1) m.limits)
      (J := (·.Counts (m.executed + 1) (fs.length + 2) m.limits)) ?_ ?_ f ?_).mono ?_ ?_
    · exact fun _ _ _ h => ⟨h.executed, Nat.succ_le_succ h.calls, h.limits⟩
    · exact fun _ h => ⟨h.executed, Nat.le_succ_of_le h.calls, h.limits⟩
    · exact ⟨rfl, by simp [hf], rfl⟩
    · exact fun _ _ h => .inr ⟨hip, h⟩
    · exact fun _ _ h => .inr ⟨hip, h.executed⟩

end Exec

def Machine.budgeted (m : Machine) (b : Nat) : Machine :=
  { m with limits := { m.limits with budget := some b } }

namespace Machine

variable {m : Machine} {f : Frame} {fs : List Frame} {b : Nat}

/-- As long as the budget lasts, it changes nothing. -/
theorem step_budgeted (hf : m.frames = f :: fs) (hfree : m.limits.budget = none)
    (hlasts : f.ip < f.body.code.size → m.executed < b) :
    Exec.step (m.budgeted b) = ((Exec.step m).1, (Exec.step m).2.budgeted b) := by
  let w : Margin := { stack := fun s s' => s' = s.widen 0, budget := fun _ => some b }
  have hbeside (m m' : Machine) : m.Beside w m' ↔ m' = m.budgeted b := by
    simp [w, Beside, widen, budgeted, Stack.widen_zero]
  have hnone (e : Fault) : ¬ w.Excuses e := by
    cases e <;> first | exact id | exact Nat.lt_irrefl 0
  have halike : w.Alike := .widen rfl rfl
  have htracks : w.Tracks Exec.step Exec.step m := by
    refine .congr_of (Exec.step_eq hf) fun m' hm' => ?_
    obtain rfl := (hbeside m m').mp hm'
    have hf' : (m.budgeted b).frames = f :: fs := hf
    have hbudget : (m.budgeted b).limits.budget = some b := rfl
    have hexecuted : (m.budgeted b).executed = m.executed := rfl
    refine ⟨_, Exec.step_eq hf', ?_⟩
    by_cases hip : f.body.code.size ≤ f.ip
    · simp only [hip, if_true]
      exact Exec.leave_tracks halike none
    · have hlt : ¬ b ≤ m.executed := Nat.not_le.mpr (hlasts (Nat.not_le.mp hip))
      simp only [hip, if_false, hbudget, hexecuted, hfree, hlt]
      exact Exec.fetch_tracks halike hf fun _ => rfl
  have hstep := htracks (m.budgeted b) ((hbeside _ _).mpr rfl)
  rcases hs : Exec.step m with ⟨e | _, m₁⟩ <;> rw [hs] at hstep
  · obtain ⟨m₁', hs', hm₁⟩ := hstep.resolve_left (hnone e)
    rw [hs', (hbeside _ _).mp hm₁]
  · obtain ⟨m₁', hs', hm₁⟩ := hstep
    rw [hs', (hbeside _ _).mp hm₁]

theorem step_exhausted (hf : m.frames = f :: fs) (hip : f.ip < f.body.code.size)
    (hspent : b ≤ m.executed) :
    Exec.step (m.budgeted b) = (.error (.budgetExhausted b), m.budgeted b) := by
  have hf' : (m.budgeted b).frames = f :: fs := hf
  have hbudget : (m.budgeted b).limits.budget = some b := rfl
  have hexecuted : b ≤ (m.budgeted b).executed := hspent
  rw [Exec.step_eq hf', if_neg (Nat.not_le.mpr hip), hbudget]
  simp only [hexecuted, if_true]
  rfl

/-- The next step of the machine runs its instruction number `b + 1`. -/
def AtInstruction (m : Machine) (b : Nat) : Prop :=
  m.executed = b ∧ ∃ f fs, m.frames = f :: fs ∧ f.ip < f.body.code.size

def nextSpan? (m : Machine) : Option Span := m.frames.head?.bind fun f => f.body.spans.spanAt? f.ip

theorem Steps.unbudgeted {m' : Machine} (h : m.Steps m') (hfree : m.limits.budget = none) :
    m'.limits.budget = none := by
  refine h.invariant (I := (·.limits.budget = none)) hfree fun m m' hfree hne hs => ?_
  obtain ⟨f, fs, hf⟩ := List.exists_cons_of_ne_nil hne
  rcases (Exec.step_counts hf hfree).of_ok hs with ⟨-, h⟩ | ⟨-, h⟩ <;> exact h.limits ▸ hfree

theorem executed_le_runFor (hfree : m.limits.budget = none) (fuel : Nat) :
    m.executed ≤ (m.runFor fuel).2.executed := by
  induction fuel generalizing m with
  | zero => exact Nat.le_refl _
  | succ fuel ih =>
    cases hf : m.frames with
    | nil => simp only [runFor, hf, Nat.le_refl]
    | cons f fs =>
      have hcounts := Exec.step_counts hf hfree
      rcases hs : Exec.step m with ⟨e | _, m₁⟩ <;> simp only [runFor, hf, hs]
      · have := hcounts.of_error hs
        omega
      · rcases hcounts.of_ok hs with ⟨-, h⟩ | ⟨-, h⟩
        · have := ih (h.limits ▸ hfree)
          have := h.executed
          omega
        · have := ih (h.limits ▸ hfree)
          have := h.executed
          omega

/-- The run that goes on behind the budget executes more than it allows. -/
theorem AtInstruction.lt_executed (h : m.AtInstruction b) (hfree : m.limits.budget = none)
    (fuel : Nat) : b < (m.runFor (fuel + 1)).2.executed := by
  obtain ⟨rfl, f, fs, hf, hip⟩ := h
  have hcounts := Exec.step_counts hf hfree
  rcases hs : Exec.step m with ⟨e | _, m₁⟩ <;> simp only [runFor, hf, hs]
  · have := hcounts.of_error hs
    omega
  · rcases hcounts.of_ok hs with ⟨hend, -⟩ | ⟨-, h⟩
    · omega
    · have := executed_le_runFor (h.limits ▸ hfree) fuel
      have := h.executed
      omega

/-- While a run goes on, every step is paid for by an instruction, twice if it enters a call. -/
theorem fuel_le_of_running {m' : Machine} {fuel : Nat} (hfree : m.limits.budget = none)
    (hrun : m.runFor fuel = (.running, m')) :
    fuel + m'.frames.length + 2 * m.executed ≤ 2 * m'.executed + m.frames.length := by
  induction fuel generalizing m with
  | zero =>
    obtain rfl : m = m' := congrArg Prod.snd hrun
    omega
  | succ fuel ih =>
    cases hf : m.frames with
    | nil => simp [runFor, hf] at hrun
    | cons f fs =>
      have hcounts := Exec.step_counts hf hfree
      rcases hs : Exec.step m with ⟨e | _, m₁⟩ <;> simp only [runFor, hf, hs] at hrun
      · cases hrun
      · rcases hcounts.of_ok hs with ⟨-, h⟩ | ⟨-, h⟩ <;>
        · have := ih (h.limits ▸ hfree) hrun
          have := h.executed
          have := h.calls
          simp only [List.length_cons]
          omega

/-- A run with a budget is exhausted at some instruction, or is the run without one. -/
theorem runFor_budgeted (hfree : m.limits.budget = none) (hle : m.executed ≤ b) (fuel : Nat) :
    (∃ m', m.Steps m' ∧ m'.AtInstruction b ∧
      (m.budgeted b).runFor fuel =
        (.failed ⟨.budgetExhausted b, m'.nextSpan?⟩, m'.budgeted b)) ∨
    ((m.budgeted b).runFor fuel = ((m.runFor fuel).1, (m.runFor fuel).2.budgeted b) ∧
      (m.runFor fuel).2.executed ≤ b) := by
  induction fuel generalizing m with
  | zero => exact .inr ⟨rfl, hle⟩
  | succ fuel ih =>
    have hframes : (m.budgeted b).frames = m.frames := rfl
    cases hf : m.frames with
    | nil => exact .inr ⟨by simp only [runFor, hframes, hf], by simpa only [runFor, hf] using hle⟩
    | cons f fs =>
      have hne : m.frames ≠ [] := by simp [hf]
      by_cases hspent : f.ip < f.body.code.size ∧ b ≤ m.executed
      · obtain ⟨hip, hspent⟩ := hspent
        refine .inl ⟨m, .refl, ⟨Nat.le_antisymm hle hspent, f, fs, hf, hip⟩, ?_⟩
        simp only [runFor, hframes, hf, step_exhausted hf hip hspent, faultSpan?, nextSpan?, if_true,
          List.head?_cons, Option.bind_some]
      · have hcounts := Exec.step_counts hf hfree
        have hstep := step_budgeted hf hfree (b := b) fun hip => by omega
        simp only [runFor, hframes, hf, hstep]
        rcases hs : Exec.step m with ⟨e | _, m₁⟩
        · have := hcounts.of_error hs
          exact .inr ⟨rfl, by simp only; omega⟩
        · simp only
          have hkept : m₁.limits = m.limits ∧ m₁.executed ≤ b := by
            rcases hcounts.of_ok hs with ⟨hip, h⟩ | ⟨hip, h⟩ <;>
              exact ⟨h.limits, by rw [h.executed]; omega⟩
          rcases ih (hkept.1 ▸ hfree) hkept.2 with ⟨m', hsteps, hrest⟩ | hrest
          · exact .inl ⟨m', .step hne hs hsteps, hrest⟩
          · exact .inr hrest

theorem runFor_add_of_ended {n : Nat} (h : (m.runFor n).1 ≠ .running) (k : Nat) :
    m.runFor (n + k) = m.runFor n := by
  induction n generalizing m with
  | zero =>
    have hf : m.frames = [] := by
      cases hf : m.frames with
      | nil => rfl
      | cons f fs => simp [runFor, hf] at h
    rw [runFor_of_ended hf, runFor_of_ended hf]
  | succ n ih =>
    rw [Nat.add_right_comm]
    cases hf : m.frames with
    | nil => simp only [runFor, hf]
    | cons f fs =>
      rcases hs : Exec.step m with ⟨e | _, m₁⟩ <;> simp only [runFor, hf, hs] at h ⊢
      exact ih h

variable {program : Linked} {l : Limits} {globals : Array Value} {stamp : Nat} {m₀ : Machine}

theorem start_budgeted (hb : 1 ≤ b)
    (hstart : start program { l with budget := none } globals stamp = .ok m₀) :
    start program { l with budget := some b } globals stamp = .ok (m₀.budgeted b) := by
  obtain ⟨hvalid, hsize, rfl⟩ := start_eq hstart
  have hpos : ¬ some b = some 0 := by simp; omega
  have hvalid' : ({ l with budget := some b } : Limits).validate = .ok () := by
    simpa [Limits.validate, hpos] using hvalid
  unfold start
  simp only [hvalid', bind, Except.bind, Nat.not_lt.mpr hsize, if_false]
  rfl

theorem budgeted_ends (hstart : start program { l with budget := none } globals stamp = .ok m₀) :
    (m₀.budgeted b).run.1 ≠ .running := by
  obtain ⟨-, -, rfl⟩ := start_eq hstart
  generalize hm₀ : Machine.mk _ _ _ _ _ _ _ _ = m₀
  have hfree : m₀.limits.budget = none := by rw [← hm₀]
  have hexecuted : m₀.executed = 0 := by rw [← hm₀]
  have hframes : m₀.frames.length = 1 := by rw [← hm₀]; rfl
  have hfuel : (m₀.budgeted b).fuel = 2 * b + 2 := rfl
  intro hrunning
  unfold run at hrunning
  rcases hm : m₀.runFor (m₀.budgeted b).fuel with ⟨outcome, m⟩
  rcases runFor_budgeted hfree (by omega) (m₀.budgeted b).fuel with ⟨_, -, -, hrun⟩ | ⟨hrun, hle⟩
  · rw [hrun] at hrunning
    cases hrunning
  · rw [hm] at hrun hle
    rw [hrun] at hrunning
    have hpaid := fuel_le_of_running hfree (hm.trans (Prod.ext hrunning rfl))
    simp only at hle
    omega

/-- A run with a budget ends. It ends as the run without one does, if that executes no more
instructions than the budget allows; otherwise it stops where that run is about to execute the
first instruction above the budget. -/
theorem run_budgeted (hb : 1 ≤ b)
    (hstart : start program { l with budget := none } globals stamp = .ok m₀) :
    start program { l with budget := some b } globals stamp = .ok (m₀.budgeted b) ∧
    (m₀.budgeted b).run.1 ≠ .running ∧
    (∀ more, (m₀.budgeted b).runFor ((m₀.budgeted b).fuel + more) = (m₀.budgeted b).run) ∧
    (∀ fuel, (m₀.runFor fuel).1 ≠ .running → (m₀.runFor fuel).2.executed ≤ b →
      (m₀.budgeted b).run = ((m₀.runFor fuel).1, (m₀.runFor fuel).2.budgeted b)) ∧
    ((¬ ∃ fuel, (m₀.runFor fuel).1 ≠ .running ∧ (m₀.runFor fuel).2.executed ≤ b) →
      ∃ m, m₀.Steps m ∧ m.AtInstruction b ∧
        (m₀.budgeted b).run = (.failed ⟨.budgetExhausted b, m.nextSpan?⟩, m.budgeted b)) := by
  have hends := budgeted_ends (b := b) hstart
  have hstarted : m₀.limits.budget = none ∧ m₀.executed = 0 := by
    obtain ⟨-, -, rfl⟩ := start_eq hstart
    exact ⟨rfl, rfl⟩
  obtain ⟨hfree, hexecuted⟩ := hstarted
  have hcut := runFor_budgeted (b := b) hfree (by omega)
  refine ⟨start_budgeted hb hstart, hends, runFor_add_of_ended hends, fun fuel hended hle => ?_,
    fun hnone => ?_⟩
  · have hrun : (m₀.budgeted b).run = (m₀.budgeted b).runFor ((m₀.budgeted b).fuel + fuel) :=
      (runFor_add_of_ended hends fuel).symm
    have hfuel : m₀.runFor ((m₀.budgeted b).fuel + fuel) = m₀.runFor fuel := by
      rw [Nat.add_comm, runFor_add_of_ended hended]
    rcases hcut ((m₀.budgeted b).fuel + fuel) with ⟨m, hsteps, hat, -⟩ | ⟨hsame, -⟩
    · -- The run without a budget would go on and end behind the budget.
      obtain ⟨n, hn⟩ := hsteps.runFor_add
      have hlt := hat.lt_executed (hsteps.unbudgeted hfree) fuel
      rw [← hn, ← Nat.add_assoc, Nat.add_right_comm, Nat.add_comm _ fuel,
        runFor_add_of_ended hended] at hlt
      omega
    · rw [hrun, hsame, hfuel]
  · rcases hcut (m₀.budgeted b).fuel with hexhausted | ⟨hsame, hle⟩
    · exact hexhausted
    · refine absurd ⟨(m₀.budgeted b).fuel, ?_, hle⟩ hnone
      rw [show (m₀.budgeted b).run = _ from hsame] at hends
      exact hends

/-- One instruction and the uncounted end of the program behind it need a budget of one. -/
theorem run_budgeted_one :
    let program : Linked := ⟨#[Opcode.null.byte], #[], {}⟩
    ∃ m₀, start program ⟨1, 1, 0, none⟩ #[] firstStamp = .ok m₀ ∧
      (m₀.runFor 2).1 = .done ∧ (m₀.runFor 2).2.executed = 1 ∧
      (m₀.budgeted 1).run = (.done, (m₀.runFor 2).2.budgeted 1) := by
  intro program
  obtain ⟨m₀, hstart⟩ : ∃ m₀, start program ⟨1, 1, 0, none⟩ #[] firstStamp = .ok m₀ := ⟨_, rfl⟩
  have hdone : (m₀.runFor 2).1 = .done ∧ (m₀.runFor 2).2.executed = 1 := by
    obtain ⟨-, -, rfl⟩ := start_eq hstart
    decide +kernel
  obtain ⟨-, -, -, hsame, -⟩ := run_budgeted (l := ⟨1, 1, 0, none⟩) (Nat.le_refl 1) hstart
  have hrun := hsame 2 (by rw [hdone.1]; nofun) (Nat.le_of_eq hdone.2)
  exact ⟨m₀, hstart, hdone.1, hdone.2, by rw [hrun, hdone.1]⟩

end Machine

end StackScript
