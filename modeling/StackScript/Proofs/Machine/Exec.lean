import StackScript.Machine.Run
import StackScript.Proofs.Machine.Stack
import StackScript.Proofs.Scope.Lexical

/-! # What instructions do

The effect of every instruction on the list of values on the stack and on the rest of the state. A
fault leaves everything as it was, but for the stack and the stamps.
-/

namespace StackScript

variable {m : Machine} {n : Nat} {l vs : List Value} {v : Value}

/-- What a fault can have changed. -/
def Machine.Halts (m m' : Machine) : Prop :=
  ∃ s stamp, m.nextStamp ≤ stamp ∧ m' = { m with stack := s, nextStamp := stamp }

/-- The stack has changed, and nothing else. -/
def Machine.Moves (m : Machine) (n : Nat) (l : List Value) (m' : Machine) : Prop :=
  ∃ s : Stack, s.Holds n l ∧ m' = { m with stack := s }

theorem Machine.Halts.refl (m : Machine) : m.Halts m := ⟨m.stack, m.nextStamp, Nat.le_refl _, rfl⟩

theorem Machine.Moves.refl (h : m.stack.Holds n l) : m.Moves n l m := ⟨m.stack, h, rfl⟩

theorem Machine.Moves.halts {m' m'' : Machine} (h : m.Moves n l m') (h' : m'.Halts m'') :
    m.Halts m'' := by
  obtain ⟨s, -, rfl⟩ := h
  exact h'

theorem Machine.Moves.trans {k : Nat} {l' : List Value} {m' m'' : Machine} (h : m.Moves k l' m')
    (h' : m'.Moves n l m'') : m.Moves n l m'' := by
  obtain ⟨s, -, rfl⟩ := h
  exact h'

theorem Machine.Moves.holds {m' : Machine} (h : m.Moves n l m') : m'.stack.Holds n l := by
  obtain ⟨s, hs, rfl⟩ := h
  exact hs

namespace Exec

theorem onStack_gives {α : Type} {step : Stacking α} {Q : α → Stack → Prop}
    {E : Fault → Stack → Prop} (h : Gives step m.stack Q E) :
    Gives (onStack step) m (fun a m' => ∃ s, Q a s ∧ m' = { m with stack := s })
      (fun e m' => ∃ s, E e s ∧ m' = { m with stack := s }) := by
  unfold Gives at h ⊢
  unfold onStack
  rcases hs : step m.stack with ⟨e | a, s⟩ <;> rw [hs] at h <;> simp only [hs]
  · exact ⟨s, h, rfl⟩
  · exact ⟨s, h, rfl⟩

theorem onStack_ok {α : Type} {step : Stacking α} {Q : α → Stack → Prop}
    (h : Gives step m.stack Q fun _ _ => False) :
    Gives (onStack step) m (fun a m' => ∃ s, Q a s ∧ m' = { m with stack := s })
      (fun _ _ => False) := by
  refine (onStack_gives h).mono (fun _ _ h => h) ?_
  rintro _ _ ⟨_, h, _⟩
  exact h

theorem push_gives (h : m.stack.Holds n l) (v : Value) :
    Gives (push v) m (fun _ m' => m.Moves n (l ++ [v]) m')
      (fun e m' => m' = m ∧ e = .stackOverflow n ∧ l.length = n) := by
  refine (onStack_gives (Stacking.push_gives h v)).mono (fun _ _ h => h) ?_
  rintro e m' ⟨s, ⟨rfl, he⟩, rfl⟩
  exact ⟨rfl, he⟩

theorem push_room (h : m.stack.Holds n l) (hl : l.length < n) (v : Value) :
    Gives (push v) m (fun _ m' => m.Moves n (l ++ [v]) m') (fun _ _ => False) :=
  (push_gives h v).mono (fun _ _ h => h) fun _ _ he => by omega

theorem pop_gives (h : m.stack.Holds n (l ++ [v])) :
    Gives pop m (fun w m' => w = v ∧ m.Moves n l m' ∧ m'.lastPopped = v) (fun _ _ => False) := by
  refine (onStack_gives (Stacking.pop_gives h)).mono ?_ ?_
  · rintro w m' ⟨s, ⟨rfl, hs, hp⟩, rfl⟩
    exact ⟨rfl, ⟨s, hs, rfl⟩, hp⟩
  · rintro e m' ⟨s, h, -⟩
    exact h

theorem lt_sp_of_peek {distance : Nat} {v : Value} {m' : Machine}
    (h : onStack (Stacking.peek distance) m = (.ok v, m')) :
    m' = m ∧ distance < m.stack.sp := by
  by_cases hlt : distance < m.stack.sp
  · simp only [onStack, Stacking.peek, hlt, dif_pos] at h
    cases h
    exact ⟨rfl, hlt⟩
  · simp only [onStack, Stacking.peek, hlt] at h
    cases h

theorem ofExcept_gives {α : Type} (x : Except Fault α) :
    Gives (ofExcept x) m (fun a m' => x = .ok a ∧ m' = m) (fun e m' => x = .error e ∧ m' = m) := by
  cases x <;> exact ⟨rfl, rfl⟩

theorem get_gives : Gives (get : Exec Machine) m (fun a m' => a = m ∧ m' = m) (fun _ _ => False) := ⟨rfl, rfl⟩

theorem modify_gives (g : Machine → Machine) :
    Gives (modify g : Exec Unit) m (fun _ m' => m' = g m) (fun _ _ => False) := rfl

theorem frame_gives {f : Frame} {fs : List Frame} (h : m.frames = f :: fs) :
    Gives frame m (fun g m' => g = f ∧ m' = m) (fun _ _ => False) := by
  unfold Gives frame
  simp only [bind_apply, get_apply, h]
  exact ⟨rfl, rfl⟩

theorem setIp_gives {f : Frame} {fs : List Frame} (h : m.frames = f :: fs) (ip : Nat) :
    Gives (setIp ip) m (fun _ m' => m' = { m with frames := { f with ip := ip } :: fs })
      (fun _ _ => False) := by
  unfold Gives setIp
  simp only [modify_apply, h]

theorem freshStamp_gives :
    Gives freshStamp m (fun stamp m' => stamp = m.nextStamp ∧
      m' = { m with nextStamp := m.nextStamp + 1 }) (fun _ _ => False) := ⟨rfl, rfl⟩

theorem copied_gives (v : Value) :
    Gives (copied v) m (fun w m' => w = (v.copy m.nextStamp).1 ∧
      m' = { m with nextStamp := (v.copy m.nextStamp).2 }) (fun _ _ => False) := ⟨rfl, rfl⟩

end Exec

/-- The value that a call finds in a place. -/
def Machine.valueAt? (m : Machine) (f : Frame) (p : Place) : Option Value :=
  match p.storage with
  | .globalSlot => m.globals[p.index]?
  | .localSlot => m.stack.live[f.base + p.index]?
  | .builtin => some (.builtin p.index)
  | .captured => f.free[p.index]?
  | .self => some f.closure

theorem Machine.valueAt?_congr {m m' : Machine} {f : Frame} {p : Place} (hg : m'.globals = m.globals)
    (hl : p.storage = .localSlot →
      m'.stack.live[f.base + p.index]? = m.stack.live[f.base + p.index]?) :
    m'.valueAt? f p = m.valueAt? f p := by
  obtain ⟨storage, index⟩ := p
  cases storage with
  | globalSlot => simp only [Machine.valueAt?, hg]
  | localSlot => exact hl rfl
  | _ => rfl

/-- The fault of a place that has no value. -/
def Place.fault (p : Place) (globals : Nat) : Fault :=
  match p.storage with
  | .globalSlot => .globalOutOfRange p.index globals
  | .captured => .missingFreeVariable p.index
  | _ => .stackUnderflow

namespace Exec

variable {f : Frame} {fs : List Frame} {p : Place}

theorem loadSlot_gives (hf : m.frames = f :: fs) (hs : p.storage ≠ .self)
    (hi : p.index < Storage.slotLimit) :
    Gives (loadSlot p.operand) m (fun v m' => m' = m ∧ m.valueAt? f p = some v)
      (fun e m' => m' = m ∧ m.valueAt? f p = none ∧ e = p.fault m.globals.size) := by
  unfold loadSlot Machine.valueAt? Place.fault
  rw [Place.operand, Storage.decode_encode hs hi]
  obtain ⟨storage, index⟩ := p
  cases storage with
  | globalSlot =>
    simp only
    refine get_gives.bind (fun _ _ h => h.elim) ?_
    rintro _ _ ⟨rfl, rfl⟩
    split
    · next v hv => exact ⟨rfl, hv⟩
    · next hv => exact ⟨rfl, hv, rfl⟩
  | localSlot =>
    refine (frame_gives hf).bind (fun _ _ h => h.elim) ?_
    rintro g m ⟨rfl, rfl⟩
    have hlive : m.stack.Holds m.stack.capacity m.stack.live := ⟨rfl, rfl⟩
    refine (onStack_gives (Stacking.read_gives hlive (g.base + index))).mono ?_ ?_
    · rintro v m' ⟨s, ⟨hv, rfl⟩, rfl⟩
      exact ⟨rfl, hv⟩
    · rintro e m' ⟨s, ⟨hv, rfl, rfl⟩, rfl⟩
      exact ⟨rfl, hv, rfl⟩
  | builtin => exact ⟨rfl, rfl⟩
  | captured =>
    simp only
    refine (frame_gives hf).bind (fun _ _ h => h.elim) ?_
    rintro _ _ ⟨rfl, rfl⟩
    split
    · next v hv => exact ⟨rfl, hv⟩
    · next hv => exact ⟨rfl, hv, rfl⟩
  | self => exact absurd rfl hs

end Exec

end StackScript
