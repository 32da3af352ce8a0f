import StackScript.Proofs.Machine.Margin

/-! # Stale slots

A value that was popped, dropped or left by a call that returned stays in its slot above the top of
the stack. No instruction of any code reads it: two machines that differ in such slots only take the
same steps, and differ in such slots only ever after.
-/

namespace StackScript

structure Machine.Agrees (m m' : Machine) : Prop where
  stack : m.stack.SameLive m'.stack
  rest : m' = { m with stack := m'.stack }

/-- A margin in the slots above the top and in nothing else. -/
def Margin.stale : Margin where
  stack := Stack.SameLive

theorem Margin.stale_alike : Margin.stale.Alike where
  stack := Stacking.respects_sameLive _
  nil := rfl
  head f _ := ⟨f, rfl, rfl, rfl⟩
  enter _ _ _ := rfl

theorem Margin.not_excuses_stale (e : Fault) : ¬ Margin.stale.Excuses e := by
  cases e <;> first | exact id | exact Nat.lt_irrefl 0

theorem Machine.widen_stale (s : Stack) (m : Machine) :
    m.widen .stale s = { m with stack := s } := by
  simp [Machine.widen, Margin.stale]

theorem Machine.beside_stale_iff {m m' : Machine} : m.Beside .stale m' ↔ m.Agrees m' := by
  constructor
  · rintro ⟨s, hs, rfl⟩
    rw [widen_stale]
    exact ⟨hs, rfl⟩
  · rintro ⟨hs, hm'⟩
    exact ⟨m'.stack, hs, by rwa [widen_stale]⟩

/-- On both machines the step ends alike, and they agree again. -/
def Exec.Same {α : Type} (x : Exec α) (m m' : Machine) : Prop :=
  (x m').1 = (x m).1 ∧ (x m).2.Agrees (x m').2

theorem Margin.Tracks.same {α : Type} {x : Exec α} {m m' : Machine} (h : Margin.stale.Tracks x x m)
    (hm : m.Agrees m') : x.Same m m' := by
  have hx := h m' (Machine.beside_stale_iff.mpr hm)
  unfold Exec.Same
  rcases hr : x m with ⟨e | a, m₁⟩ <;> rw [hr] at hx
  · obtain ⟨m₁', hr', hm₁⟩ := hx.resolve_left (not_excuses_stale e)
    rw [hr']
    exact ⟨rfl, Machine.beside_stale_iff.mp hm₁⟩
  · obtain ⟨m₁', hr', hm₁⟩ := hx
    rw [hr']
    exact ⟨rfl, Machine.beside_stale_iff.mp hm₁⟩

namespace Machine.Agrees

variable {m m' : Machine} {f : Frame} {fs : List Frame}

theorem frames (h : m.Agrees m') : m'.frames = m.frames := by rw [h.rest]

theorem limits (h : m.Agrees m') : m'.limits = m.limits := by rw [h.rest]

theorem live (h : m.Agrees m') : m'.stack.live = m.stack.live := by
  rw [Stack.live_eq, Stack.live_eq, h.stack.sp]
  refine List.ext_getElem? fun i => ?_
  rw [List.getElem?_take, List.getElem?_take]
  split
  · next hi => simpa using h.stack.live i hi
  · rfl

theorem frameLocals (h : m.Agrees m') (f : Frame) : m'.frameLocals f = m.frameLocals f := by
  have hlive := h.live
  unfold Stack.live at hlive
  unfold Machine.frameLocals
  rw [Array.toList_inj.mp hlive]

theorem step (h : m.Agrees m') : Exec.step.Same m m' := by
  cases hf : m.frames with
  | nil =>
    have hf' : m'.frames = [] := h.frames.trans hf
    unfold Exec.Same Exec.step Exec.frame
    simp only [bind_apply, get_apply, hf, hf']
    exact ⟨rfl, h⟩
  | cons f fs =>
    exact (Exec.step_tracks Margin.stale_alike hf (fun _ => rfl) rfl (.inr rfl)).same h

end Machine.Agrees

/-! ## The value of a run

Only a return can take the last call away, so a run ends with the value returned at the top level or
with the one that the program left on the stack.
-/

theorem Machine.Settled.active : Machine.Settled (·.frames ≠ []) where
  stack _ hm := hm
  globals _ hm := hm
  stamp _ hm := hm
  output _ hm := hm
  jump _ _ _ := List.cons_ne_nil _ _

namespace Exec

/-- Every instruction but a return leaves a call active. -/
theorem execute_active {op : Opcode} (hop : op ≠ .ret ∧ op ≠ .retValue) (operand second : Nat) :
    Keeps (·.frames ≠ []) (execute op operand second) := by
  by_cases hcall : op = .call
  · subst hcall
    refine Keeps.bind (onStack_keeps .active fun _ => Stacking.peek_keeps operand) fun v => ?_
    cases v with
    | closure stamp body free =>
      exact fun m hm => callClosure_enters .active (fun _ _ _ _ => List.cons_ne_nil _ _) stamp body
        free operand hm
    | builtin index => exact callBuiltin_keeps .active index operand
    | _ => exact .throw _
  · exact execute_settles .active ⟨hcall, hop.1, hop.2⟩ operand second

/-- On both machines the step ends with the same value popped last, if it does not fail. -/
def SameLast (x : Exec Unit) (m m' : Machine) : Prop :=
  ∀ {e}, x m = (.ok (), e) → (x m').2.lastPopped = e.lastPopped

variable {m m' : Machine} {f : Frame} {fs : List Frame}

theorem SameLast.bind {α : Type} {x : Exec α} {g : α → Exec Unit} (hx : Same x m m')
    (hg : ∀ {a m₁ m₁'}, x m = (.ok a, m₁) → m₁.Agrees m₁' → SameLast (g a) m₁ m₁') :
    SameLast (x >>= g) m m' := by
  intro e he
  obtain ⟨a, m₁, hr, hok⟩ := bind_eq_ok.mp he
  obtain ⟨hresult, hagrees⟩ := hx
  rcases hr' : x m' with ⟨r', m₁'⟩
  rw [hr, hr'] at hresult hagrees
  obtain rfl : r' = .ok a := hresult
  rw [bind_apply, hr']
  exact hg hr hagrees hok

theorem pop_lastPopped {v : Value} {e : Machine} (h : pop m = (.ok v, e)) : e.lastPopped = v := by
  obtain ⟨constants, ⟨slots, _ | sp, le⟩, frames, globals, limits, executed, nextStamp, output⟩ := m
  · cases h
  · cases h
    exact congrArg (·.getD .null) (Array.getElem?_eq_getElem le)

theorem pop_sameLast (h : m.Agrees m') : SameLast (discard pop) m m' := by
  intro e he
  obtain ⟨hresult, -⟩ := (pop_tracks Margin.stale_alike).same h
  rw [discard_apply] at he ⊢
  rcases hr : pop m with ⟨_ | v, m₁⟩ <;> rcases hr' : pop m' with ⟨_ | v', m₁'⟩ <;>
    simp only [hr, hr'] at hresult he ⊢ <;> cases hresult <;> cases he
  rw [pop_lastPopped hr, pop_lastPopped hr']

theorem leave_sameLast (h : m.Agrees m') (hf : m.frames = [f]) {result : Option Value}
    (hvalue : result = none → m.stack.sp ≠ 0) : SameLast (leave result) m m' := by
  intro e he
  have hm : Machine.Agrees { m with frames := [] } { m' with frames := [] } :=
    ⟨h.stack, by rw [h.rest]⟩
  rw [leave_eq hf] at he
  rw [leave_eq (h.frames.trans hf)]
  simp only [List.isEmpty_nil, if_true, h.stack.sp] at he ⊢
  cases result with
  | some v =>
    have htruncate := onStack_tracks (m := { m with frames := [] }) (w := .stale)
      (Margin.stale_alike.stack.truncate 0 m.stack)
    exact SameLast.bind (htruncate.same hm) (fun _ h₁ =>
      SameLast.bind ((push_tracks Margin.stale_alike v).same h₁) fun _ h₂ => pop_sameLast h₂) he
  | none =>
    rw [if_neg (hvalue rfl)] at he ⊢
    exact pop_sameLast hm he

theorem leave_active {e : Machine} {result : Option Value} (hf : m.frames = f :: fs) (hfs : fs ≠ [])
    (h : leave result m = (.ok (), e)) : e.frames ≠ [] :=
  (leave_lands .active hf hfs result).of_ok h

end Exec

/-- The program is at its end and has left no value on the stack. -/
def Machine.EndsBare (m : Machine) : Prop :=
  m.stack.sp = 0 ∧ ∃ f, m.frames = [f] ∧ f.body.code.size ≤ f.ip

namespace Machine.Agrees

variable {m m' e : Machine} {f : Frame} {fs : List Frame}

theorem fetched (h : m.Agrees m') (f : Frame) (fs : List Frame) (next : Nat) :
    (m.fetched f fs next).Agrees (m'.fetched f fs next) :=
  ⟨h.stack, by unfold Machine.fetched; rw [h.rest]⟩

theorem execute_last (h : m.Agrees m') (hf : m.frames = f :: fs) {op : Opcode} {operand second : Nat}
    (hs : Exec.execute op operand second m = (.ok (), e)) (he : e.frames = []) :
    (Exec.execute op operand second m').2.lastPopped = e.lastPopped := by
  have htop {n : Machine} {result : Option Value} (hn : n.frames = f :: fs)
      (hl : Exec.leave result n = (.ok (), e)) : n.frames = [f] := by
    by_cases hfs : fs = []
    · rw [hn, hfs]
    · exact absurd he (Exec.leave_active hn hfs hl)
  by_cases hop : op ≠ .ret ∧ op ≠ .retValue
  · have hactive : m.frames ≠ [] := by simp [hf]
    exact absurd he ((Exec.execute_active hop operand second m hactive).of_ok hs)
  · rcases not_and_or.mp hop with hop | hop <;> obtain rfl := not_not.mp hop
    · exact Exec.leave_sameLast h (htop hf hs) (by simp) hs
    · obtain ⟨v, m₁, hpop, hl⟩ := bind_eq_ok.mp hs
      have hframes : m.frames = [f] :=
        (Exec.onStack_frames hpop).symm.trans (htop ((Exec.onStack_frames hpop).trans hf) hl)
      refine Exec.SameLast.bind ((Exec.pop_tracks Margin.stale_alike).same h) (fun hr h₁ => ?_) hs
      exact Exec.leave_sameLast h₁ ((Exec.onStack_frames hr).trans hframes) (by simp)

theorem fetch_last (h : m.Agrees m') (hf : m.frames = f :: fs) (hs : Exec.fetch f m = (.ok (), e))
    (he : e.frames = []) : (Exec.fetch f m').2.lastPopped = e.lastPopped := by
  have hf' : m'.frames = f :: fs := h.frames.trans hf
  unfold Exec.fetch Exec.setIp at hs ⊢
  rcases hd : f.body.code.decode f.ip with (_ | _) | ⟨i, next⟩ <;>
    simp only [bind_apply, modify_apply, hd, hf, hf'] at hs ⊢
  · cases hs
  · cases hs
  · exact execute_last (h.fetched f fs next) rfl hs he

/-- The last step of a run hands over its value, if there is one. -/
theorem step_last (h : m.Agrees m') (hf : m.frames ≠ []) (hs : Exec.step m = (.ok (), e))
    (he : e.frames = []) (hbare : ¬ m.EndsBare) : (Exec.step m').2.lastPopped = e.lastPopped := by
  obtain ⟨f, fs, hframes⟩ := List.exists_cons_of_ne_nil hf
  have hexecuted : m'.executed = m.executed := by rw [h.rest]
  rw [Exec.step_eq hframes] at hs
  rw [Exec.step_eq (h.frames.trans hframes), h.limits, hexecuted]
  split at hs
  · next hip =>
    rw [if_pos hip]
    by_cases hfs : fs = []
    · subst hfs
      exact Exec.leave_sameLast h hframes (fun _ hsp => hbare ⟨hsp, f, hframes, hip⟩) hs
    · exact absurd he (Exec.leave_active hframes hfs hs)
  · next hip =>
    rw [if_neg hip]
    cases hb : m.limits.budget with
    | none =>
      rw [hb] at hs
      exact h.fetch_last hframes hs he
    | some b =>
      rw [hb] at hs
      simp only at hs ⊢
      split at hs
      · cases hs
      · next hlt =>
        rw [if_neg hlt]
        exact h.fetch_last hframes hs he

theorem runFor (h : m.Agrees m') (fuel : Nat) :
    (m'.runFor fuel).1 = (m.runFor fuel).1 ∧ (m.runFor fuel).2.Agrees (m'.runFor fuel).2 ∧
    ((m.runFor fuel).1 = .done → m.frames ≠ [] →
      (m'.runFor fuel).2.lastPopped = (m.runFor fuel).2.lastPopped ∨
      ∃ b, m.Steps b ∧ b.EndsBare ∧ Exec.step b = (.ok (), (m.runFor fuel).2)) := by
  induction fuel generalizing m m' with
  | zero =>
    refine ⟨by simp only [Machine.runFor, h.frames], h, fun hdone hne => ?_⟩
    simp [Machine.runFor, hne] at hdone
  | succ fuel ih =>
    cases hf : m.frames with
    | nil => simpa [Machine.runFor, h.frames, hf] using h
    | cons f fs =>
      have hne : m.frames ≠ [] := by simp [hf]
      obtain ⟨hresult, hagrees⟩ := h.step
      rcases hs : Exec.step m with ⟨r, m₁⟩
      rcases hs' : Exec.step m' with ⟨r', m₁'⟩
      rw [hs, hs'] at hresult hagrees
      obtain rfl : r' = r := hresult
      replace hagrees : m₁.Agrees m₁' := hagrees
      cases r' with
      | error fault =>
        simp only [Machine.runFor, h.frames, hf, hs, hs', Machine.faultSpan?, hagrees.frames]
        exact ⟨trivial, hagrees, by simp⟩
      | ok _ =>
        have hrun : m.runFor (fuel + 1) = m₁.runFor fuel := by simp only [Machine.runFor, hf, hs]
        have hrun' : m'.runFor (fuel + 1) = m₁'.runFor fuel := by
          simp only [Machine.runFor, h.frames, hf, hs']
        rw [hrun, hrun']
        obtain ⟨houtcome, hend, hlast⟩ := ih hagrees
        refine ⟨houtcome, hend, fun hdone _ => ?_⟩
        by_cases hf₁ : m₁.frames = []
        · rw [runFor_of_ended hf₁, runFor_of_ended (hagrees.frames.trans hf₁)]
          by_cases hbare : m.EndsBare
          · exact .inr ⟨m, .refl, hbare, hs⟩
          · have hvalue := h.step_last hne hs hf₁ hbare
            rw [hs'] at hvalue
            exact .inl hvalue
        · refine (hlast hdone hf₁).imp_right ?_
          rintro ⟨b, hsteps, hb⟩
          exact ⟨b, .step hne hs hsteps, hb⟩

/-- Machines that agree take the same step and agree again, so that a run shows nothing of the slots
above the top: neither in its outcome nor in its operands and locals nor in the value that it returns
or leaves. (A program that ends with no value shows the one popped last.) -/
theorem unobservable (h : m.Agrees m') :
    (Exec.step m').1 = (Exec.step m).1 ∧ (Exec.step m).2.Agrees (Exec.step m').2 ∧
    ∀ fuel, (m'.runFor fuel).1 = (m.runFor fuel).1 ∧ (m.runFor fuel).2.Agrees (m'.runFor fuel).2 ∧
      (m'.runFor fuel).2.stack.live = (m.runFor fuel).2.stack.live ∧
      (∀ f, (m'.runFor fuel).2.frameLocals f = (m.runFor fuel).2.frameLocals f) ∧
      ((m.runFor fuel).1 = .done → m.frames ≠ [] →
        (m'.runFor fuel).2.lastPopped = (m.runFor fuel).2.lastPopped ∨
        ∃ b, m.Steps b ∧ b.EndsBare ∧ Exec.step b = (.ok (), (m.runFor fuel).2)) := by
  refine ⟨h.step.1, h.step.2, fun fuel => ?_⟩
  obtain ⟨houtcome, hagrees, hlast⟩ := h.runFor fuel
  exact ⟨houtcome, hagrees, hagrees.live, hagrees.frameLocals, hlast⟩

/-- Over slots full of old values, a local that was never written is null. -/
theorem unobservable_local :
    let body : Function :=
      ⟨#[Opcode.get.byte, 0x80, 0, Opcode.retValue.byte], 1, 0, none, {}⟩
    let program : Linked :=
      ⟨#[Opcode.closure.byte, 0, 0, 0, 0, Opcode.call.byte, 0, 0], #[.function body], {}⟩
    let old : Stack := ⟨Array.replicate 4 (.bool true), 0, Nat.zero_le _⟩
    ∃ m, Machine.start program ⟨4, 2, 0, none⟩ #[] firstStamp = .ok m ∧
      m.Agrees { m with stack := old } ∧
      ({ m with stack := old }.runFor 2).2.stack.live = (m.runFor 2).2.stack.live ∧
      (m.runFor 2).2.stack.live.map Value.kind = [.closure, .null] ∧
      ({ m with stack := old }.runFor 5).1 = .done := by
  intro body program old
  obtain ⟨m, hstart⟩ : ∃ m, Machine.start program ⟨4, 2, 0, none⟩ #[] firstStamp = .ok m := ⟨_, rfl⟩
  have hagrees : m.Agrees { m with stack := old } := by
    obtain ⟨-, -, rfl⟩ := Machine.start_eq hstart
    exact ⟨⟨rfl, by simp [old, Stack.ofCapacity], fun i hi => absurd hi (Nat.not_lt_zero i)⟩, rfl⟩
  obtain ⟨-, -, hrun⟩ := hagrees.unobservable
  refine ⟨m, hstart, hagrees, (hrun 2).2.2.1, ?_, (hrun 5).1.trans ?_⟩
  · obtain ⟨-, -, rfl⟩ := Machine.start_eq hstart
    decide +kernel
  · obtain ⟨-, -, rfl⟩ := Machine.start_eq hstart
    decide +kernel

end Machine.Agrees

end StackScript
