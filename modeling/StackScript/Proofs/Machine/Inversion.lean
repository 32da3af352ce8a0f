import StackScript.Proofs.Machine.Preservation

/-! # What a step has done

A step of compiled code that succeeds has computed the result of an instruction, jumped, entered a
closure, returned to a caller or ended the program.
-/

namespace StackScript

/-- The innermost call is about to return `result`: what `return` finds on top of the stack, or null. -/
def Machine.Yields (m : Machine) (f : Frame) (result : Value) : Prop :=
  f.ip = f.body.code.size ∧ result = .null ∨
    ∃ i next, f.body.code.decode f.ip = .ok (i, next) ∧
      (i.op = .ret ∧ result = .null ∨ i.op = .retValue ∧ m.stack.live.getLast? = some result)

/-- What a step that succeeds has done. -/
inductive Machine.Takes (m : Machine) (w : World) (m' : Machine) : Prop
  | computes {f : Frame} {fs : List Frame} {x : Extent} {j : Item} {l args : List Value} {r : Result}
      (h : m.Faces w f fs x j l args) (straight : j.op.straight = true)
      (plain : j.op = .call → ∀ stamp body free, args.head? ≠ some (.closure stamp body free))
      (result : m.compute f j.toInstruction args = .ok r)
      (becomes : (m.fetched f fs (f.ip + j.op.length)).Becomes f m.stack.capacity l r m')
  | jumps {f : Frame} {fs : List Frame} {x : Extent} {j : Item} {l args : List Value} {t : Nat}
      (h : m.Faces w f fs x j l args) (jump : j.op = .jump ∨ j.op = .jumpIfFalse)
      (target : t ∈ j.targets) (moves : (m.fetched f fs t).Moves m.stack.capacity l m')
  | calls {f : Frame} {fs : List Frame} {x : Extent} {j : Item} {l args : List Value} {stamp : Nat}
      {body : Function} {free : List Value} {s : Stack}
      (h : m.Faces w f fs x j l (.closure stamp body free :: args)) (call : j.op = .call)
      (arity : args.length = body.params)
      (holds : s.Holds m.stack.capacity (l ++ .closure stamp body free :: args ++
        List.replicate (body.locals - args.length) .null))
      (state : m' = { m.fetched f fs (f.ip + j.op.length) with
        stack := s
        frames := ⟨stamp, body, free, 0, l.length + 1⟩ :: { f with ip := f.ip + j.op.length } :: fs })
  | returns {f g : Frame} {fs : List Frame} {result : Value} {s : Stack} {executed : Nat}
      (frames : m.frames = f :: g :: fs) (base : 1 ≤ f.base) (yields : m.Yields f result)
      (holds : s.Holds m.stack.capacity (m.stack.live.take (f.base - 1) ++ [result]))
      (state : m' = { m with stack := s, frames := g :: fs, executed := executed })
  | ends {f : Frame} {result : Value} {s : Stack} {executed : Nat} (frames : m.frames = [f])
      (yields : m.Yields f result) (holds : s.Holds m.stack.capacity [])
      (state : m' = { m with stack := s, frames := [], executed := executed })

section Facing

variable {m m' : Machine} {w : World} {f : Frame} {fs : List Frame} {x : Extent} {j : Item}
  {l args : List Value}

/-- Leaving a call from a machine that differs from `m` only in the stack above the base of the call
and in the instructions counted. -/
theorem Framed.left {k : Nat} {m₁ : Machine} {f₁ : Frame} (result : Option Value)
    (hframed : Framed w k f fs) (hf : m.frames = f :: fs)
    (hm₁ : m₁ = { m with stack := m₁.stack, frames := f₁ :: fs, executed := m₁.executed })
    (hf₁ : f₁.base = f.base) (hs : m₁.stack.Holds m.stack.capacity l) (hl : l <+: m.stack.live)
    (hbase : f.base ≤ l.length) (hroom : 0 < m.stack.capacity)
    (hyields : m.Yields f (result.getD .null)) (hend : fs = [] → result = none → l.length ≤ 1) :
    Gives (Exec.leave result) m₁ (fun _ m' => m.Takes w m') (fun _ _ => False) := by
  have hframes : m₁.frames = f₁ :: fs := by rw [hm₁]
  have hstate (s : Stack) (gs : List Frame) : ({ m₁ with stack := s, frames := gs } : Machine) =
      { m with stack := s, frames := gs, executed := m₁.executed } := by rw [hm₁]
  cases fs with
  | nil =>
    cases result with
    | none =>
      refine (Exec.leave_end_gives hframes hs (hend rfl rfl)).mono ?_ fun _ _ he => he
      rintro _ _ ⟨s, hs', -, rfl⟩
      exact .ends hf hyields hs' (hstate s [])
    | some v =>
      refine (Exec.leave_main_gives hframes hs hroom v).mono ?_ fun _ _ he => he
      rintro _ _ ⟨s, hs', -, rfl⟩
      exact .ends hf hyields hs' (hstate s [])
  | cons g fs =>
    obtain ⟨hone, -, -, -⟩ := hframed
    refine (Exec.leave_gives hframes (List.cons_ne_nil _ _) hs (hf₁ ▸ hone) (hf₁ ▸ hbase)
      result).mono ?_ fun _ _ he => he
    rintro _ _ ⟨s, hs', rfl⟩
    have htake : l.take (f₁.base - 1) = m.stack.live.take (f.base - 1) := by
      obtain ⟨rest, hrest⟩ := hl
      rw [hf₁, ← hrest, List.take_append_of_le_length (by omega)]
    rw [htake] at hs'
    exact .returns hf hone hyields hs' (hstate s (g :: fs))

namespace Machine.Faces

variable (h : m.Faces w f fs x j l args)
include h

theorem takes_jump (ho : j.op = .jump) :
    Gives Exec.step m (fun _ m' => m.Takes w m') (m.Fails w) := by
  obtain ⟨is, final, hruns, hj⟩ := h.runs
  obtain ⟨t, ht⟩ := List.length_eq_one_iff.mp ((hruns.listed.fits j hj).1.trans (by rw [ho]; rfl))
  obtain rfl : args = [] := by
    rw [← List.length_eq_zero_iff, h.pops]
    simp [Instruction.pops, ho]
  refine h.step_gives ?_
  rw [ho, ht]
  refine (Exec.setIp_gives (m := m.fetched f fs (f.ip + Opcode.jump.length)) rfl t).mono ?_
    fun _ _ he => he.elim
  rintro _ _ rfl
  refine .jumps h (.inl ho) (t := t) (by simp [Item.targets, ho, ht]) ⟨m.stack, ⟨?_, rfl⟩, rfl⟩
  rw [h.live, List.append_nil]

theorem takes_jumpIfFalse (ho : j.op = .jumpIfFalse) :
    Gives Exec.step m (fun _ m' => m.Takes w m') (m.Fails w) := by
  obtain ⟨is, final, hruns, hj⟩ := h.runs
  obtain ⟨t, ht⟩ := List.length_eq_one_iff.mp ((hruns.listed.fits j hj).1.trans (by rw [ho]; rfl))
  obtain ⟨v, rfl⟩ : ∃ v, args = [v] := by
    rw [← List.length_eq_one_iff, h.pops]
    simp [Instruction.pops, ho]
  have hholds : m.stack.Holds m.stack.capacity (l ++ [v]) := ⟨h.live, rfl⟩
  refine h.step_gives ?_
  rw [ho, ht]
  refine (Exec.jumpIfFalse_gives (m := m.fetched f fs (f.ip + Opcode.jumpIfFalse.length)) rfl hholds
    t _).mono ?_ fun _ _ he => he.elim
  rintro _ _ ⟨s, hs', rfl⟩
  refine .jumps h (.inr ho) (t := if v.truthy then f.ip + j.op.length else t) ?_ ⟨s, hs', ?_⟩
  · cases v.truthy <;> simp [Item.targets, ho, ht, h.offset]
  · cases v.truthy <;> simp [Machine.fetched, ho]

theorem takes_call {stamp : Nat} {body : Function} {free rest : List Value} (hs : m.Sound w)
    (ho : j.op = .call) (ha : args = .closure stamp body free :: rest) :
    Gives Exec.step m (fun _ m' => m.Takes w m') (m.Fails w) := by
  subst ha
  obtain ⟨is, final, hruns, hj⟩ := h.runs
  obtain ⟨n, hn⟩ := List.length_eq_one_iff.mp ((hruns.listed.fits j hj).1.trans (by rw [ho]; rfl))
  obtain rfl : rest.length = n := by
    have := h.pops
    simpa [Instruction.pops, ho, hn] using this
  have hcallable : w.Callable m.nextStamp (.closure stamp body free) := by
    cases hs.stack (.closure stamp body free) (by simp [h.live]) with
    | closure hcallable _ => exact hcallable
  obtain ⟨-, -, -, js, literal, hcompiled, -⟩ := hcallable
  obtain ⟨constants, hlisted⟩ := hcompiled.listed
  have hholds : m.stack.Holds m.stack.capacity (l ++ .closure stamp body free :: rest) := ⟨h.live, rfl⟩
  have hargs : m.stack.Holds m.stack.capacity (l ++ [.closure stamp body free] ++ rest) := by
    simpa using hholds
  refine h.step_gives ?_
  rw [ho, hn]
  refine Exec.call_closure_gives (m := m.fetched f fs (f.ip + Opcode.call.length)) hholds
    (Gives.mono (Exec.callClosure_gives (m := m.fetched f fs (f.ip + Opcode.call.length)) hargs
      hlisted.params stamp free) ?_ ?_) _
  · rintro _ _ ⟨hparams, s, hs', rfl⟩
    exact .calls h ho hparams (by simpa using hs') (by simp [Machine.fetched, ho])
  · rintro e _ ⟨rfl, rfl | rfl | rfl⟩ <;>
      exact ⟨.of_plain rfl rfl, rfl, Nat.le_refl _, h.stops rfl⟩

theorem takes_return (hs : m.Sound w) (ho : j.op = .ret ∨ j.op = .retValue) :
    Gives Exec.step m (fun _ m' => m.Takes w m') (m.Fails w) := by
  have hbase : f.base ≤ l.length := Nat.le_trans (Nat.le_add_right ..) h.below
  have hyields (result : Value) (hop : j.op = .ret ∧ result = .null ∨
      j.op = .retValue ∧ m.stack.live.getLast? = some result) : m.Yields f result :=
    .inr ⟨_, _, h.decode, hop⟩
  refine h.step_gives ?_
  rcases ho with ho | ho
  · obtain rfl : args = [] := by
      rw [← List.length_eq_zero_iff, h.pops]
      simp [Instruction.pops, ho]
    have hholds : m.stack.Holds m.stack.capacity l := ⟨by simpa using h.live, rfl⟩
    rw [ho]
    refine Gives.mono (h.framed.left (some .null) h.frames rfl rfl hholds ?_ hbase hs.room
      (hyields .null (.inl ⟨ho, rfl⟩)) fun _ hnone => by cases hnone) (fun _ _ hk => hk)
      fun _ _ he => he.elim
    exact h.live ▸ List.prefix_append l []
  · obtain ⟨v, rfl⟩ : ∃ v, args = [v] := by
      rw [← List.length_eq_one_iff, h.pops]
      simp [Instruction.pops, ho]
    have hholds : m.stack.Holds m.stack.capacity (l ++ [v]) := ⟨h.live, rfl⟩
    rw [ho]
    refine Gives.bind (Exec.pop_gives (m := m.fetched f fs (f.ip + Opcode.retValue.length)) hholds)
      (fun _ _ he => he.elim) ?_
    rintro v _ ⟨rfl, ⟨s, hs', rfl⟩, -⟩
    refine Gives.mono (h.framed.left (some v) h.frames rfl rfl hs' ?_ hbase hs.room
      (hyields v (.inr ⟨ho, by simp [h.live]⟩)) fun _ hnone => by cases hnone) (fun _ _ hk => hk)
      fun _ _ he => he.elim
    exact h.live ▸ List.prefix_append l [v]

end Machine.Faces

/-- A step takes the instruction that the machine faces, or raises a fault of the program. -/
theorem Machine.Sound.takes (hs : m.Sound w) (hf : m.frames ≠ []) :
    Gives Exec.step m (fun _ m' => m.Takes w m') (m.Fails w) := by
  obtain ⟨f, fs, hframes⟩ := List.exists_cons_of_ne_nil hf
  rcases hs.faces hframes with ⟨x, j, l, args, h⟩ | ⟨hip, hbase⟩
  · by_cases hstraight : j.op.straight = true
    · by_cases hcall : ∃ stamp body free, j.op = .call ∧ args.head? = some (.closure stamp body free)
      · obtain ⟨stamp, body, free, ho, hhead⟩ := hcall
        obtain ⟨rest, rfl⟩ := List.head?_eq_some_iff.mp hhead
        exact h.takes_call hs ho rfl
      · have hplain : j.op = .call → ∀ stamp body free,
            args.head? ≠ some (.closure stamp body free) :=
          fun ho stamp body free hhead => hcall ⟨stamp, body, free, ho, hhead⟩
        refine (h.computes hs hstraight hplain).mono ?_ fun _ _ he => he
        rintro _ _ ⟨r, hr, hbecomes⟩
        exact .computes h hstraight hplain hr hbecomes
    · cases ho : j.op with
      | jump => exact h.takes_jump ho
      | jumpIfFalse => exact h.takes_jumpIfFalse ho
      | ret => exact h.takes_return hs (.inl ho)
      | retValue => exact h.takes_return hs (.inr ho)
      | _ => simp [ho, Opcode.straight] at hstraight
  · obtain ⟨hat, hframed⟩ := hs.frames f fs hframes
    refine Exec.step_end hframes hip (Gives.mono (hframed.left none hframes (by rw [← hframes])
      rfl ⟨rfl, rfl⟩ (List.prefix_refl _) hbase hs.room (.inl ⟨hip, rfl⟩) ?_) (fun _ _ hk => hk)
      fun _ _ he => he.elim)
    rintro rfl -
    obtain ⟨hzero, -, -, is, x, final, hruns, hfinal, hlocals⟩ := hframed
    obtain ⟨height, loaded, hsp, hstands, -⟩ := hat is x final hruns.listed
    have hheight := hruns.listed.height_at_end hip hstands
    have := hruns.listed.locals
    omega

end Facing

end StackScript
