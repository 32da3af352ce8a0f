import StackScript.Proofs.Machine.Invariants

/-! # Machines with a margin

A machine that has more of something than another one (more slots, more globals, more constants, a
budget, output from before) does the same with its next instruction, until the other one fails for
want of it. What is left in slots above the top of the stack does not matter either.
-/

namespace StackScript

section Tracks

variable {ε σ α β : Type} {R : σ → σ → Prop} {excused : ε → Prop} {x y : ExceptT ε (StateM σ) α}
  {f g : α → ExceptT ε (StateM σ) β} {s : σ}

/-- From `s` the step `x` ends as `y` does from every state beside `s`, unless its error is
excused; and the states are beside each other again. -/
def Tracks (R : σ → σ → Prop) (excused : ε → Prop) (x y : ExceptT ε (StateM σ) α) (s : σ) : Prop :=
  ∀ s', R s s' → match x s with
    | (.ok a, s₁) => ∃ s₁', y s' = (.ok a, s₁') ∧ R s₁ s₁'
    | (.error e, s₁) => excused e ∨ ∃ s₁', y s' = (.error e, s₁') ∧ R s₁ s₁'

namespace Tracks

theorem bind (h : Tracks R excused x y s)
    (hf : ∀ a s₁, x s = (.ok a, s₁) → Tracks R excused (f a) (g a) s₁) :
    Tracks R excused (x >>= f) (y >>= g) s := by
  intro s' hs
  have hx := h s' hs
  simp only [bind_apply]
  rcases hr : x s with ⟨e | a, s₁⟩ <;> rw [hr] at hx
  · refine hx.imp_right ?_
    rintro ⟨s₁', hy, hs₁⟩
    exact ⟨s₁', by rw [hy], hs₁⟩
  · obtain ⟨s₁', hy, hs₁⟩ := hx
    rw [hy]
    exact hf a s₁ hr s₁' hs₁

theorem congr_of {x' : ExceptT ε (StateM σ) α} (hx : x s = x' s)
    (h : ∀ s', R s s' → ∃ y' : ExceptT ε (StateM σ) α, y s' = y' s' ∧ Tracks R excused x' y' s) :
    Tracks R excused x y s := by
  intro s' hs
  obtain ⟨y', hy, h'⟩ := h s' hs
  rw [hx, hy]
  exact h' s' hs

theorem pure (a : α) : Tracks R excused (pure a) (pure a) s := fun s' hs => ⟨s', rfl, hs⟩

theorem throw (e : ε) :
    Tracks R excused (MonadExcept.throw e : ExceptT ε (StateM σ) α) (MonadExcept.throw e) s :=
  fun s' hs => .inr ⟨s', rfl, hs⟩

theorem throw_unless {e : ε} (h : ¬ excused e → y = MonadExcept.throw e) :
    Tracks R excused (MonadExcept.throw e) y s := by
  by_cases he : excused e
  · exact fun _ _ => .inl he
  · rw [h he]
    exact .throw e

theorem get {f g : σ → ExceptT ε (StateM σ) β}
    (h : ∀ s', R s s' → Tracks R excused (f s) (g s') s) :
    Tracks R excused (get >>= f) (get >>= g) s := fun s' hs => h s' hs s' hs

theorem modify {k k' : σ → σ} (h : ∀ s', R s s' → R (k s) (k' s')) :
    Tracks R excused (modify k : ExceptT ε (StateM σ) PUnit) (modify k') s :=
  fun s' hs => ⟨k' s', rfl, h s' hs⟩

theorem modifyGet {k : σ → α × σ} (h : ∀ s', R s s' → (k s').1 = (k s).1 ∧ R (k s).2 (k s').2) :
    Tracks R excused (modifyGet k : ExceptT ε (StateM σ) α) (modifyGet k) s := by
  intro s' hs
  obtain ⟨ha, hs₁⟩ := h s' hs
  exact ⟨(k s').2, by rw [modifyGet_apply, ha], hs₁⟩

theorem discard (h : Tracks R excused x y s) : Tracks R excused (discard x) (discard y) s := by
  intro s' hs
  have hx := h s' hs
  simp only [discard_apply]
  rcases hr : x s with ⟨e | a, s₁⟩ <;> rw [hr] at hx
  · refine hx.imp_right ?_
    rintro ⟨s₁', hy, hs₁⟩
    exact ⟨s₁', by rw [hy], hs₁⟩
  · obtain ⟨s₁', hy, hs₁⟩ := hx
    exact ⟨s₁', by rw [hy], hs₁⟩

theorem ite {c : Prop} [Decidable c] {x' y' : ExceptT ε (StateM σ) α}
    (h : Tracks R excused x y s) (h' : Tracks R excused x' y' s) :
    Tracks R excused (if c then x else x') (if c then y else y') s := by
  split
  · exact h
  · exact h'

end Tracks

end Tracks

/-! ## Stacks -/

def Stack.widen (n : Nat) (s : Stack) : Stack :=
  ⟨s.slots ++ Array.replicate n .null, s.sp, by
    rw [Array.size_append]
    exact Nat.le_add_right_of_le s.sp_le⟩

theorem Stack.widen_zero (s : Stack) : s.widen 0 = s := by
  simp [Stack.widen]

theorem Stack.live_widen (n : Nat) (s : Stack) : (s.widen n).live = s.live := by
  have := s.sp_le
  simp [Stack.live_eq, Stack.widen, List.take_append_of_le_length, this]

/-- A slot that is not there reads as a slot that is null. -/
theorem getD_append_null (a : Array Value) (n i : Nat) :
    (a ++ Array.replicate n .null)[i]?.getD .null = a[i]?.getD .null := by
  rw [Array.getElem?_append]
  split
  · rfl
  · next h => grind

theorem Stack.lastPopped_widen (n : Nat) (s : Stack) : (s.widen n).lastPopped = s.lastPopped :=
  getD_append_null s.slots n s.sp

theorem Stack.cleared_append {slots : Array Value} {start n : Nat} (more : Array Value)
    (h : n = 0 ∨ start + n ≤ slots.size) :
    Stack.cleared (slots ++ more) start n = Stack.cleared slots start n ++ more := by
  induction n generalizing slots start with
  | zero => rfl
  | succ n ih =>
    have hlt : start < slots.size := by omega
    have hset : (slots ++ more).setIfInBounds start Value.null =
        slots.setIfInBounds start .null ++ more := by
      rw [Array.setIfInBounds_append_left hlt]
    rw [Stack.cleared, hset, ih (by rw [Array.size_setIfInBounds]; omega), Stack.cleared]

theorem Stack.getElem?_cleared (slots : Array Value) (start n i : Nat) :
    (Stack.cleared slots start n)[i]? =
      if start ≤ i ∧ i < start + n ∧ i < slots.size then some .null else slots[i]? := by
  induction n generalizing slots start with
  | zero =>
    rw [if_neg (by omega)]
    rfl
  | succ n ih =>
    rw [Stack.cleared, ih, Array.size_setIfInBounds]
    grind

/-- The stacks have the same slots and hold the same values. -/
structure Stack.SameLive (s s' : Stack) : Prop where
  sp : s'.sp = s.sp
  size : s'.slots.size = s.slots.size
  live : ∀ i < s.sp, s'.slots[i]? = s.slots[i]?

/-- Every step on the stack ends alike on stacks that are beside each other. Slots are reserved above
the values in use. -/
structure Stacking.Respects (S : Stack → Stack → Prop) (excused : Fault → Prop) : Prop where
  sp : ∀ {s s'}, S s s' → s'.sp = s.sp
  push : ∀ v s, Tracks S excused (push v) (push v) s
  pop : ∀ s, Tracks S excused pop pop s
  peek : ∀ distance s, Tracks S excused (peek distance) (peek distance) s
  window : ∀ n s, Tracks S excused (window n) (window n) s
  discard : ∀ n s, Tracks S excused (discard n) (discard n) s
  read : ∀ index s, Tracks S excused (read index) (read index) s
  write : ∀ index v s, Tracks S excused (write index v) (write index v) s
  reserve : ∀ {clearFrom} sp {s}, clearFrom ≤ s.sp →
    Tracks S excused (reserve clearFrom sp) (reserve clearFrom sp) s
  truncate : ∀ sp s, Tracks S excused (truncate sp) (truncate sp) s

namespace Stacking

variable {excused : Fault → Prop}

section Widen

variable {n : Nat}

theorem push_widen (hfull : ∀ capacity, 0 < n → excused (.stackOverflow capacity)) (v : Value)
    (s : Stack) :
    Tracks (fun s s' => s' = s.widen n) excused (push v) (push v) s := by
  rintro _ rfl
  obtain ⟨slots, sp, le⟩ := s
  by_cases hlt : sp < slots.size
  · have hlt' : sp < slots.size + n := by omega
    simp [push, Stack.widen, hlt, hlt', Array.set_append_left]
  · rcases Nat.eq_zero_or_pos n with rfl | hn
    · simp [push, Stack.widen, hlt]
    · simp only [push, hlt, dif_neg, not_false_eq_true]
      exact .inl (hfull _ hn)

theorem pop_widen (s : Stack) : Tracks (fun s s' => s' = s.widen n) excused pop pop s := by
  rintro _ rfl
  obtain ⟨slots, _ | sp, le⟩ := s
  · exact .inr ⟨_, rfl, rfl⟩
  · have hlt : sp < slots.size := le
    simp [pop, Stack.widen, Array.getElem_append_left hlt]

theorem peek_widen (distance : Nat) (s : Stack) :
    Tracks (fun s s' => s' = s.widen n) excused (peek distance) (peek distance) s := by
  rintro _ rfl
  have hle := s.sp_le
  by_cases h : distance < s.sp
  · have hlt : s.sp - (distance + 1) < s.slots.size := by omega
    simp [peek, Stack.widen, h, Array.getElem_append_left hlt]
  · simp [peek, Stack.widen, h]

theorem window_widen (k : Nat) (s : Stack) :
    Tracks (fun s s' => s' = s.widen n) excused (window k) (window k) s := by
  rintro _ rfl
  have hle := s.sp_le
  by_cases h : k ≤ s.sp
  · have hin : s.sp - s.slots.size = 0 := by omega
    simp [window, Stack.widen, h, hin]
  · simp [window, Stack.widen, h]

theorem discard_widen (k : Nat) (s : Stack) :
    Tracks (fun s s' => s' = s.widen n) excused (discard k) (discard k) s := by
  rintro _ rfl
  by_cases h : k ≤ s.sp
  · simp [discard, Stack.widen, h]
  · simp [discard, Stack.widen, h]

theorem read_widen (index : Nat) (s : Stack) :
    Tracks (fun s s' => s' = s.widen n) excused (read index) (read index) s := by
  rintro _ rfl
  by_cases h : index < s.sp
  · have hlt : index < s.slots.size := Nat.lt_of_lt_of_le h s.sp_le
    simp [read, Stack.widen, h, Array.getElem_append_left hlt]
  · simp [read, Stack.widen, h]

theorem write_widen (index : Nat) (v : Value) (s : Stack) :
    Tracks (fun s s' => s' = s.widen n) excused (write index v) (write index v) s := by
  rintro _ rfl
  obtain ⟨slots, sp, le⟩ := s
  by_cases h : index < sp
  · have hlt : index < slots.size := Nat.lt_of_lt_of_le h le
    simp [write, Stack.widen, h, Array.set_append_left hlt]
  · simp [write, Stack.widen, h]

theorem reserve_widen (hfull : ∀ capacity, 0 < n → excused (.stackOverflow capacity))
    {clearFrom : Nat} (sp : Nat) (s : Stack) :
    Tracks (fun s s' => s' = s.widen n) excused (reserve clearFrom sp) (reserve clearFrom sp) s := by
  rintro _ rfl
  obtain ⟨slots, old, le⟩ := s
  by_cases hle : sp ≤ slots.size
  · have hle' : sp ≤ slots.size + n := by omega
    have hclear := Stack.cleared_append (Array.replicate n .null)
      (show sp - clearFrom = 0 ∨ clearFrom + (sp - clearFrom) ≤ slots.size by omega)
    simp [reserve, Stack.widen, hle, hle', hclear]
  · rcases Nat.eq_zero_or_pos n with rfl | hn
    · simp [reserve, Stack.widen, hle]
    · simp only [reserve, hle, dif_neg, not_false_eq_true]
      exact .inl (hfull _ hn)

theorem truncate_widen (sp : Nat) (s : Stack) :
    Tracks (fun s s' => s' = s.widen n) excused (truncate sp) (truncate sp) s := by
  rintro _ rfl
  exact ⟨_, rfl, rfl⟩

/-- Only a full stack tells how many slots there are. -/
theorem respects_widen (h : ∀ capacity, 0 < n → excused (.stackOverflow capacity)) :
    Respects (fun s s' => s' = s.widen n) excused where
  sp h := by rw [h]; rfl
  push := push_widen h
  pop := pop_widen
  peek := peek_widen
  window := window_widen
  discard := discard_widen
  read := read_widen
  write := write_widen
  reserve sp _ _ := reserve_widen h sp _
  truncate := truncate_widen

end Widen

theorem getElem_eq_of_getElem? {a b : Array Value} {i : Nat} {ha : i < a.size} {hb : i < b.size}
    (h : a[i]? = b[i]?) : a[i] = b[i] := by
  rw [Array.getElem?_eq_getElem ha, Array.getElem?_eq_getElem hb] at h
  exact Option.some.inj h

theorem push_sameLive (v : Value) (s : Stack) :
    Tracks Stack.SameLive excused (push v) (push v) s := by
  obtain ⟨slots, sp, le⟩ := s
  rintro ⟨slots', sp', le'⟩ ⟨hsp, hsize, hlive⟩
  obtain rfl : sp = sp' := hsp.symm
  simp only at hsize hlive
  by_cases hlt : sp < slots.size
  · have hlt' : sp < slots'.size := by omega
    simp only [push, hlt, hlt', dif_pos]
    refine ⟨_, rfl, rfl, by simpa using hsize, fun i hi => ?_⟩
    grind
  · simp only [push, hlt, dif_neg, not_false_eq_true, hsize]
    exact .inr ⟨_, rfl, rfl, hsize, hlive⟩

theorem pop_sameLive (s : Stack) : Tracks Stack.SameLive excused pop pop s := by
  obtain ⟨slots, sp, le⟩ := s
  rintro ⟨slots', sp', le'⟩ ⟨hsp, hsize, hlive⟩
  obtain rfl : sp = sp' := hsp.symm
  cases sp with
  | zero => exact .inr ⟨_, rfl, rfl, hsize, hlive⟩
  | succ sp =>
    have hget : slots'[sp] = slots[sp] := getElem_eq_of_getElem? (hlive sp (Nat.lt_succ_self sp))
    simp only [pop, hget]
    exact ⟨_, rfl, rfl, hsize, fun i hi => hlive i (Nat.lt_succ_of_lt hi)⟩

theorem peek_sameLive (distance : Nat) (s : Stack) :
    Tracks Stack.SameLive excused (peek distance) (peek distance) s := by
  intro s' hs
  have hle := s.sp_le
  by_cases h : distance < s.sp
  · have hlt : s.sp - (distance + 1) < s.slots.size := by omega
    have hlt' : s.sp - (distance + 1) < s'.slots.size := by rw [hs.size]; exact hlt
    have hget : s'.slots[s.sp - (distance + 1)] = s.slots[s.sp - (distance + 1)] :=
      getElem_eq_of_getElem? (hs.live _ (by omega))
    simp only [peek, hs.sp, h, dif_pos, hget]
    exact ⟨s', rfl, hs⟩
  · simp only [peek, hs.sp, h, dif_neg, not_false_eq_true]
    exact .inr ⟨s', rfl, hs⟩

theorem window_sameLive (k : Nat) (s : Stack) :
    Tracks Stack.SameLive excused (window k) (window k) s := by
  intro s' hs
  by_cases h : k ≤ s.sp
  · have hextract : s'.slots.extract (s.sp - k) s.sp = s.slots.extract (s.sp - k) s.sp := by
      refine Array.ext_getElem? fun i => ?_
      rw [Array.getElem?_extract, Array.getElem?_extract, hs.size]
      split
      · exact hs.live _ (by omega)
      · rfl
    simp only [window, hs.sp, h, if_true, hextract]
    exact ⟨s', rfl, hs⟩
  · simp only [window, hs.sp, h, if_false]
    exact .inr ⟨s', rfl, hs⟩

theorem discard_sameLive (k : Nat) (s : Stack) :
    Tracks Stack.SameLive excused (discard k) (discard k) s := by
  obtain ⟨slots, sp, le⟩ := s
  rintro ⟨slots', sp', le'⟩ ⟨hsp, hsize, hlive⟩
  obtain rfl : sp = sp' := hsp.symm
  simp only at hsize hlive
  by_cases h : k ≤ sp
  · simp only [discard, h, if_true]
    exact ⟨_, rfl, rfl, hsize, fun i hi => hlive i (Nat.lt_of_lt_of_le hi (Nat.sub_le _ _))⟩
  · simp only [discard, h, if_false]
    exact .inr ⟨_, rfl, rfl, hsize, hlive⟩

theorem read_sameLive (index : Nat) (s : Stack) :
    Tracks Stack.SameLive excused (read index) (read index) s := by
  intro s' hs
  have hle := s.sp_le
  by_cases h : index < s.sp
  · have hlt : index < s.slots.size := by omega
    have hlt' : index < s'.slots.size := by rw [hs.size]; exact hlt
    have hget : s'.slots[index] = s.slots[index] := getElem_eq_of_getElem? (hs.live index h)
    simp only [read, hs.sp, h, dif_pos, hget]
    exact ⟨s', rfl, hs⟩
  · simp only [read, hs.sp, h, dif_neg, not_false_eq_true]
    exact .inr ⟨s', rfl, hs⟩

theorem write_sameLive (index : Nat) (v : Value) (s : Stack) :
    Tracks Stack.SameLive excused (write index v) (write index v) s := by
  obtain ⟨slots, sp, le⟩ := s
  rintro ⟨slots', sp', le'⟩ ⟨hsp, hsize, hlive⟩
  obtain rfl : sp = sp' := hsp.symm
  simp only at hsize hlive
  by_cases h : index < sp
  · simp only [write, h, dif_pos]
    refine ⟨_, rfl, rfl, by simpa using hsize, fun i hi => ?_⟩
    grind
  · simp only [write, h, dif_neg, not_false_eq_true]
    exact .inr ⟨_, rfl, rfl, hsize, hlive⟩

theorem reserve_sameLive {clearFrom : Nat} (sp : Nat) {s : Stack} (hclear : clearFrom ≤ s.sp) :
    Tracks Stack.SameLive excused (reserve clearFrom sp) (reserve clearFrom sp) s := by
  obtain ⟨slots, old, le⟩ := s
  rintro ⟨slots', old', le'⟩ ⟨hsp, hsize, hlive⟩
  obtain rfl : old = old' := hsp.symm
  simp only at hsize hlive hclear
  by_cases h : sp ≤ slots.size
  · have h' : sp ≤ slots'.size := by omega
    simp only [reserve, h, h', dif_pos]
    refine ⟨_, rfl, rfl, by simpa [Stack.size_cleared] using hsize, fun i hi => ?_⟩
    simp only [Stack.getElem?_cleared]
    grind
  · simp only [reserve, h, dif_neg, not_false_eq_true, hsize]
    exact .inr ⟨_, rfl, rfl, hsize, hlive⟩

theorem truncate_sameLive (sp : Nat) (s : Stack) :
    Tracks Stack.SameLive excused (truncate sp) (truncate sp) s := by
  obtain ⟨slots, old, le⟩ := s
  rintro ⟨slots', old', le'⟩ ⟨hsp, hsize, hlive⟩
  obtain rfl : old = old' := hsp.symm
  exact ⟨_, rfl, rfl, hsize, fun i hi => hlive i (Nat.lt_of_lt_of_le hi (Nat.min_le_left _ _))⟩

/-- No step reads a slot above the top. -/
theorem respects_sameLive (excused : Fault → Prop) : Respects Stack.SameLive excused where
  sp h := h.sp
  push := push_sameLive
  pop := pop_sameLive
  peek := peek_sameLive
  window := window_sameLive
  discard := discard_sameLive
  read := read_sameLive
  write := write_sameLive
  reserve := reserve_sameLive
  truncate := truncate_sameLive

end Stacking

/-! ## More of everything -/

/-- What a machine has more than another one, and how its stack and its calls differ. -/
structure Margin where
  stack : Stack → Stack → Prop
  slots : Nat := 0
  frames : Nat := 0
  globals : Nat := 0
  budget : Option Nat → Option Nat := id
  constants : Array Value := #[]
  executed : Nat := 0
  printed : String := ""
  calls : List Frame → List Frame := id

/-- The machine with a margin and with the stack `s`: its printed text and its executed instructions
lie before those of `m`, everything else behind. -/
def Machine.widen (w : Margin) (s : Stack) (m : Machine) : Machine where
  constants := m.constants ++ w.constants
  stack := s
  frames := w.calls m.frames
  globals := m.globals ++ Array.replicate w.globals .null
  limits := ⟨m.limits.stack + w.slots, m.limits.frames + w.frames, m.limits.globals + w.globals,
    w.budget m.limits.budget⟩
  executed := w.executed + m.executed
  nextStamp := m.nextStamp
  output := w.printed ++ m.output

def Machine.Beside (w : Margin) (m m' : Machine) : Prop :=
  ∃ s, w.stack m.stack s ∧ m' = m.widen w s

namespace Margin

/-- The faults that only a machine without the margin has. -/
def Excuses (w : Margin) : Fault → Prop
  | .stackOverflow _ => 0 < w.slots
  | .frameOverflow _ => 0 < w.frames
  | .globalOutOfRange _ _ => 0 < w.globals
  | .missingConstant _ => 0 < w.constants.size
  | _ => False

/-- Instructions other than jumps see of a call only its locals and what it captured. -/
structure Alike (w : Margin) : Prop where
  stack : Stacking.Respects w.stack w.Excuses
  nil : w.calls [] = []
  head : ∀ f fs, ∃ g : Frame, w.calls (f :: fs) = g :: w.calls fs ∧ g.base = f.base ∧ g.free = f.free
  /-- A call is entered from another one. -/
  enter : ∀ f g fs, w.calls (f :: g :: fs) = f :: w.calls (g :: fs)

theorem Alike.length {w : Margin} (hw : w.Alike) (fs : List Frame) :
    (w.calls fs).length = fs.length := by
  induction fs with
  | nil => rw [hw.nil]
  | cons f fs ih =>
    obtain ⟨g, hg, -⟩ := hw.head f fs
    rw [hg, List.length_cons, ih, List.length_cons]

theorem Alike.isEmpty {w : Margin} (hw : w.Alike) (fs : List Frame) :
    (w.calls fs).isEmpty = fs.isEmpty := by
  cases fs with
  | nil => rw [hw.nil]
  | cons f fs =>
    obtain ⟨g, hg, -⟩ := hw.head f fs
    rw [hg]
    rfl

/-- The calls are the same, and the one stack is the other with more slots. -/
theorem Alike.widen {w : Margin} (hstacks : w.stack = fun s s' => s' = s.widen w.slots)
    (hcalls : w.calls = id) : w.Alike where
  stack := by
    rw [hstacks]
    exact Stacking.respects_widen fun _ h => h
  nil := by rw [hcalls]; rfl
  head f fs := ⟨f, by rw [hcalls]; rfl, rfl, rfl⟩
  enter f g fs := by rw [hcalls]; rfl

abbrev Tracks {α : Type} (w : Margin) (x y : Exec α) (m : Machine) : Prop :=
  StackScript.Tracks (Machine.Beside w) w.Excuses x y m

end Margin

variable {w : Margin} {m m' : Machine}

theorem Machine.Beside.frames (h : m.Beside w m') : m'.frames = w.calls m.frames := by
  obtain ⟨s, -, rfl⟩ := h
  rfl

theorem Machine.Beside.constants (h : m.Beside w m') (index : Nat) :
    (∃ v, m.constants[index]? = some v ∧ m'.constants[index]? = some v) ∨
    (m.constants[index]? = none ∧
      (¬ w.Excuses (.missingConstant index) → m'.constants[index]? = none)) := by
  obtain ⟨s, -, rfl⟩ := h
  cases h : m.constants[index]? with
  | some v => exact .inl ⟨v, rfl, by grind [Machine.widen]⟩
  | none =>
    refine .inr ⟨rfl, fun hw => ?_⟩
    have hempty : w.constants = #[] := Array.size_eq_zero_iff.mp (Nat.eq_zero_of_not_pos hw)
    simpa [Machine.widen, hempty] using h

theorem Machine.Beside.globals (h : m.Beside w m') :
    m'.globals = m.globals ++ Array.replicate w.globals .null := by
  obtain ⟨s, -, rfl⟩ := h
  rfl

theorem Machine.Beside.globals_eq (h : m.Beside w m') (hnone : ¬ 0 < w.globals) :
    m'.globals = m.globals := by
  rw [h.globals, Nat.eq_zero_of_not_pos hnone]
  simp

theorem Storage.decode_ne_self (operand : Nat) : (Storage.decode operand).1 ≠ .self := by
  unfold Storage.decode
  split <;> exact nofun

namespace Exec

theorem onStack_tracks {α : Type} {step : Stacking α}
    (h : StackScript.Tracks w.stack w.Excuses step step m.stack) :
    w.Tracks (onStack step) (onStack step) m := by
  rintro _ ⟨s', hs, rfl⟩
  have hstep := h s' hs
  unfold onStack
  simp only [Machine.widen]
  rcases hr : step m.stack with ⟨e | a, s₁⟩ <;> rw [hr] at hstep <;> simp only
  · refine hstep.imp_right ?_
    rintro ⟨s₁', hy, hs₁⟩
    exact ⟨Machine.widen w s₁' { m with stack := s₁ }, by rw [hy]; rfl, s₁', hs₁, rfl⟩
  · obtain ⟨s₁', hy, hs₁⟩ := hstep
    exact ⟨Machine.widen w s₁' { m with stack := s₁ }, by rw [hy]; rfl, s₁', hs₁, rfl⟩

theorem onStack_frames {α : Type} {step : Stacking α} {a : α} {m' : Machine}
    (h : onStack step m = (.ok a, m')) : m'.frames = m.frames := by
  have hgives : Gives (onStack step) m (fun _ m' => m'.frames = m.frames) fun _ _ => True := by
    refine (onStack_gives (Gives.any step m.stack)).mono ?_ fun _ _ _ => trivial
    rintro _ _ ⟨s, -, rfl⟩
    rfl
  exact hgives.of_ok h

theorem freshStamp_tracks : w.Tracks freshStamp freshStamp m := by
  refine .modifyGet ?_
  rintro _ ⟨s, hs, rfl⟩
  exact ⟨rfl, s, hs, rfl⟩

theorem copied_tracks (v : Value) : w.Tracks (copied v) (copied v) m := by
  refine .modifyGet ?_
  rintro _ ⟨s, hs, rfl⟩
  exact ⟨rfl, s, hs, rfl⟩

theorem ofExcept_tracks {α : Type} (r : Except Fault α) : w.Tracks (ofExcept r) (ofExcept r) m := by
  cases r with
  | error fault => exact .throw fault
  | ok a => exact .pure a

section Alike

variable (hw : w.Alike)
include hw

theorem push_tracks (v : Value) : w.Tracks (push v) (push v) m :=
  onStack_tracks (hw.stack.push v m.stack)

theorem pop_tracks : w.Tracks pop pop m := onStack_tracks (hw.stack.pop m.stack)

theorem take_tracks {α : Type} {k : List Value → Exec α} (n discarded : Nat)
    (h : ∀ vs m', w.Tracks (k vs) (k vs) m') :
    w.Tracks (do
        let vs ← onStack (Stacking.window n)
        onStack (Stacking.discard discarded)
        k vs)
      (do
        let vs ← onStack (Stacking.window n)
        onStack (Stacking.discard discarded)
        k vs) m :=
  (onStack_tracks (hw.stack.window n _)).bind fun vs _ _ =>
    (onStack_tracks (hw.stack.discard discarded _)).bind fun _ m' _ => h vs m'

theorem makeArray_tracks (length : Nat) : w.Tracks (makeArray length) (makeArray length) m :=
  take_tracks hw length length fun _ _ => freshStamp_tracks.bind fun _ _ _ => push_tracks hw _

theorem makeHash_tracks (length : Nat) : w.Tracks (makeHash length) (makeHash length) m := by
  refine take_tracks hw length length fun items m' => ?_
  split
  · exact freshStamp_tracks.bind fun _ _ _ => push_tracks hw _
  · exact .throw _

theorem makeClosure_tracks (constant captured : Nat) :
    w.Tracks (makeClosure constant captured) (makeClosure constant captured) m := by
  refine .get fun m' hm' => ?_
  rcases hm'.constants constant with ⟨v, h, h'⟩ | ⟨h, h'⟩ <;> simp only [h]
  · rw [h']
    cases v with
    | function f =>
      exact take_tracks hw captured captured fun _ _ => freshStamp_tracks.bind fun _ _ _ =>
        push_tracks hw _
    | _ => exact .throw _
  · refine .throw_unless fun hw => ?_
    rw [h' hw]

theorem callBuiltin_tracks (index argc : Nat) :
    w.Tracks (callBuiltin index argc) (callBuiltin index argc) m := by
  unfold callBuiltin
  cases Builtin.ofIndex? index with
  | none => exact .throw _
  | some b =>
    refine (onStack_tracks (hw.stack.window argc _)).bind fun args _ _ =>
      freshStamp_tracks.bind fun stamp _ _ => ?_
    cases b.apply stamp args with
    | error refusal => exact .throw _
    | ok reply =>
      refine Tracks.bind (.modify ?_) fun _ _ _ =>
        (onStack_tracks (hw.stack.discard _ _)).bind fun _ _ _ => push_tracks hw _
      rintro _ ⟨s, hs, rfl⟩
      exact ⟨s, hs, by simp only [Machine.widen, String.append_assoc]⟩

theorem frame_tracks {α : Type} {k : Frame → Exec α}
    (h : ∀ f g fs, m.frames = f :: fs → w.calls (f :: fs) = g :: w.calls fs → g.base = f.base →
      g.free = f.free → w.Tracks (k f) (k g) m) :
    w.Tracks (frame >>= k) (frame >>= k) m := by
  unfold frame
  rw [bind_assoc]
  refine .get fun m' hm' => ?_
  have hframes := hm'.frames
  cases hf : m.frames with
  | nil =>
    rw [hf, hw.nil] at hframes
    simp only [hframes]
    exact .throw _
  | cons f fs =>
    obtain ⟨g, hg, hbase, hfree⟩ := hw.head f fs
    rw [hf, hg] at hframes
    simp only [hframes]
    exact h f g fs hf hg hbase hfree

theorem loadSlot_tracks (operand : Nat) : w.Tracks (loadSlot operand) (loadSlot operand) m := by
  unfold loadSlot
  rcases hd : Storage.decode operand with ⟨storage, index⟩
  cases storage with
  | globalSlot =>
    refine .get fun m' hm' => ?_
    cases h : m.globals[index]? with
    | some v =>
      have h' : m'.globals[index]? = some v := by grind [hm'.globals]
      simp only [h, h']
      exact .pure _
    | none =>
      simp only [h]
      refine .throw_unless fun hnot => ?_
      simp only [hm'.globals_eq hnot, h]
  | localSlot =>
    refine frame_tracks hw fun f g fs _ _ hbase _ => ?_
    rw [hbase]
    exact onStack_tracks (hw.stack.read _ _)
  | builtin => exact .pure _
  | captured =>
    refine frame_tracks hw fun f g fs _ _ _ hfree => ?_
    rw [hfree]
    split
    · exact .pure _
    · exact .throw _
  | self => exact absurd (congrArg Prod.fst hd) (Storage.decode_ne_self operand)

theorem storeSlot_tracks (operand : Nat) (v : Value) :
    w.Tracks (storeSlot operand v) (storeSlot operand v) m := by
  unfold storeSlot
  rcases Storage.decode operand with ⟨storage, index⟩
  cases storage with
  | globalSlot =>
    refine .get fun m' hm' => ?_
    by_cases h : index < m.globals.size
    · have h' : index < m'.globals.size := by
        rw [hm'.globals, Array.size_append]
        omega
      simp only [h, h', if_true]
      refine .modify ?_
      rintro _ ⟨s, hs, rfl⟩
      exact ⟨s, hs, by simp only [Machine.widen, Array.setIfInBounds_append_left h]⟩
    · simp only [h, if_false]
      refine .throw_unless fun hnot => ?_
      simp only [hm'.globals_eq hnot, h, if_false]
  | localSlot =>
    refine frame_tracks hw fun f g fs _ _ hbase _ => ?_
    rw [hbase]
    exact onStack_tracks (hw.stack.write _ _ _)
  | _ => exact .throw _

theorem setElement_tracks (operand : Nat) :
    w.Tracks (setElement operand) (setElement operand) m :=
  (pop_tracks hw).bind fun v _ _ => (copied_tracks v).bind fun _ _ _ =>
    (pop_tracks hw).bind fun _ _ _ => (loadSlot_tracks hw operand).bind fun _ _ _ =>
      freshStamp_tracks.bind fun _ _ _ => (ofExcept_tracks _).bind fun _ _ _ =>
        (storeSlot_tracks hw operand _).bind fun _ _ _ => push_tracks hw _

theorem callClosure_tracks (hne : m.frames ≠ []) {argc : Nat} (hargc : argc ≤ m.stack.sp)
    (stamp : Nat) (body : Function) (free : List Value) :
    w.Tracks (callClosure stamp body free argc) (callClosure stamp body free argc) m := by
  unfold callClosure
  by_cases hargs : argc = body.params
  · simp only [hargs, ne_eq, not_true_eq_false, if_false]
    refine .get ?_
    rintro _ ⟨s, hs, rfl⟩
    have hsp : (m.widen w s).stack.sp = m.stack.sp := hw.stack.sp hs
    by_cases hfull : m.limits.frames ≤ m.frames.length
    · simp only [hfull, if_true]
      refine .throw_unless fun hnot => ?_
      have hzero : w.frames = 0 := Nat.eq_zero_of_not_pos hnot
      simp [Machine.widen, hzero, hw.length, hfull]
    · have hfull' : ¬ (m.widen w s).limits.frames ≤ (m.widen w s).frames.length := by
        simp only [Machine.widen, hw.length]
        omega
      simp only [hfull, hfull', if_false, hsp]
      refine Tracks.bind (onStack_tracks (hw.stack.reserve _ (by omega))) fun _ m' hm' =>
        .modify ?_
      rintro _ ⟨s', hs', rfl⟩
      obtain ⟨g, gs, hg⟩ := List.exists_cons_of_ne_nil (onStack_frames hm' ▸ hne)
      exact ⟨s', hs', by simp only [Machine.widen, hg, hw.enter]⟩
  · simp only [hargs, ne_eq, not_false_eq_true, if_true]
    exact .throw _

theorem call_tracks (hne : m.frames ≠ []) (argc : Nat) : w.Tracks (call argc) (call argc) m := by
  refine (onStack_tracks (hw.stack.peek argc _)).bind fun v m' hm' => ?_
  obtain ⟨rfl, hlt⟩ := lt_sp_of_peek hm'
  cases v with
  | closure stamp body free => exact callClosure_tracks hw hne (Nat.le_of_lt hlt) stamp body free
  | builtin index => exact callBuiltin_tracks hw index argc
  | _ => exact .throw _

theorem leave_tracks (result : Option Value) : w.Tracks (leave result) (leave result) m := by
  unfold leave
  refine frame_tracks hw fun f g fs hf hg hbase _ => ?_
  refine Tracks.bind (.modify ?_) fun _ m₁ _ => .get ?_
  · rintro _ ⟨s, hs, rfl⟩
    exact ⟨s, hs, by simp only [Machine.widen, hf, hg, List.tail_cons]⟩
  · rintro m₁' ⟨s, hs, rfl⟩
    have hempty : (m₁.widen w s).frames.isEmpty = m₁.frames.isEmpty := hw.isEmpty m₁.frames
    have hsp : (m₁.widen w s).stack.sp = m₁.stack.sp := hw.stack.sp hs
    rw [hempty, hbase, hsp]
    refine .ite ?_ ((onStack_tracks (hw.stack.truncate _ _)).bind fun _ _ _ => push_tracks hw _)
    cases result with
    | some v =>
      exact (onStack_tracks (hw.stack.truncate 0 _)).bind fun _ _ _ =>
        (push_tracks hw v).bind fun _ _ _ => (pop_tracks hw).discard
    | none => exact .ite (.pure _) (pop_tracks hw).discard

omit hw in
theorem setIp_tracks {f g : Frame} {fs : List Frame} {a b : Nat} (hf : m.frames = f :: fs)
    (hg : w.calls (f :: fs) = g :: w.calls fs)
    (hmoved : w.calls ({ f with ip := a } :: fs) = { g with ip := b } :: w.calls fs) :
    w.Tracks (setIp a) (setIp b) m := by
  refine .modify ?_
  rintro _ ⟨s, hs, rfl⟩
  refine ⟨s, ?_, ?_⟩
  · simpa only [hf] using hs
  · simp only [Machine.widen, hf, hg, hmoved]

theorem jumpIfFalse_tracks {f g : Frame} {fs : List Frame} {a b : Nat} (hf : m.frames = f :: fs)
    (hg : w.calls (f :: fs) = g :: w.calls fs)
    (hmoved : w.calls ({ f with ip := a } :: fs) = { g with ip := b } :: w.calls fs) (k k' : Nat) :
    w.Tracks (execute .jumpIfFalse a k) (execute .jumpIfFalse b k') m := by
  refine (pop_tracks hw).bind fun v m' hm' => .ite (.pure _) ?_
  exact setIp_tracks ((onStack_frames hm').trans hf) hg hmoved

/-- Every instruction but a jump, and a reference of a function to itself, does the same with the
same operands. -/
theorem execute_tracks (hne : m.frames ≠ []) {op : Opcode}
    (hop : op ≠ .jump ∧ op ≠ .jumpIfFalse ∧ op ≠ .currentClosure) (operand second : Nat) :
    w.Tracks (execute op operand second) (execute op operand second) m := by
  cases op with
  | constant =>
    refine .get fun m' hm' => ?_
    rcases hm'.constants operand with ⟨v, h, h'⟩ | ⟨h, h'⟩ <;> simp only [h]
    · rw [h']
      exact push_tracks hw v
    · refine .throw_unless fun hnot => ?_
      rw [h' hnot]
  | true | false | null => exact push_tracks hw _
  | pop => exact (pop_tracks hw).discard
  | binary op =>
    exact (pop_tracks hw).bind fun _ _ _ => (pop_tracks hw).bind fun _ _ _ =>
      (ofExcept_tracks _).bind fun _ _ _ => push_tracks hw _
  | unary op =>
    exact (pop_tracks hw).bind fun _ _ _ => (ofExcept_tracks _).bind fun _ _ _ => push_tracks hw _
  | jump => exact absurd rfl hop.1
  | jumpIfFalse => exact absurd rfl hop.2.1
  | array => exact makeArray_tracks hw operand
  | hash => exact makeHash_tracks hw operand
  | index =>
    exact (pop_tracks hw).bind fun _ _ _ => (pop_tracks hw).bind fun _ _ _ =>
      (ofExcept_tracks _).bind fun _ _ _ => push_tracks hw _
  | get => exact (loadSlot_tracks hw operand).bind fun _ _ _ => push_tracks hw _
  | set =>
    exact (pop_tracks hw).bind fun _ _ _ => (copied_tracks _).bind fun _ _ _ =>
      storeSlot_tracks hw operand _
  | setElement => exact setElement_tracks hw operand
  | call => exact call_tracks hw hne operand
  | ret => exact leave_tracks hw _
  | retValue => exact (pop_tracks hw).bind fun _ _ _ => leave_tracks hw _
  | closure => exact makeClosure_tracks hw operand second
  | currentClosure => exact absurd rfl hop.2.2

/-! ## Steps -/

variable {f : Frame} {fs : List Frame}

/-- In the same innermost call jumps go to the same place, too. -/
theorem execute_same_tracks (hf : m.frames = f :: fs)
    (hsame : ∀ g, w.calls (g :: fs) = g :: w.calls fs) (op : Opcode) (operand second : Nat) :
    w.Tracks (execute op operand second) (execute op operand second) m := by
  by_cases hjump : op = .jump
  · subst hjump
    exact setIp_tracks hf (hsame f) (hsame _)
  by_cases hbranch : op = .jumpIfFalse
  · subst hbranch
    exact jumpIfFalse_tracks hw hf (hsame f) (hsame _) _ _
  by_cases hself : op = .currentClosure
  · subst hself
    refine frame_tracks hw fun f' g fs' hf' hg _ _ => ?_
    obtain ⟨rfl, rfl⟩ := List.cons.inj (hf.symm.trans hf')
    obtain ⟨rfl, -⟩ := List.cons.inj ((hsame f).symm.trans hg)
    exact push_tracks hw _
  · exact execute_tracks hw (by simp [hf]) ⟨hjump, hbranch, hself⟩ _ _

omit hw in
theorem count_tracks :
    w.Tracks (modify fun m => { m with executed := m.executed + 1 })
      (modify fun m => { m with executed := m.executed + 1 }) m := by
  refine .modify ?_
  rintro _ ⟨s, hs, rfl⟩
  exact ⟨s, hs, by simp only [Machine.widen, Nat.add_assoc]⟩

theorem fetch_tracks (hf : m.frames = f :: fs)
    (hsame : ∀ g, w.calls (g :: fs) = g :: w.calls fs) : w.Tracks (fetch f) (fetch f) m := by
  refine count_tracks.bind fun _ m₁ hm₁ => ?_
  have hf₁ : m₁.frames = f :: fs := congrArg (·.2.frames) hm₁ ▸ hf
  split
  · exact .throw _
  · exact .throw _
  · next i next hd =>
    refine (setIp_tracks hf₁ (hsame f) (hsame _)).bind fun _ m₂ hm₂ => ?_
    have hf₂ : m₂.frames = { f with ip := next } :: fs := by
      have := (setIp_gives hf₁ next).of_ok hm₂
      rw [this]
    exact execute_same_tracks hw hf₂ hsame _ _ _

/-- In the same innermost call, with the same budget left, the same step is taken. -/
theorem step_tracks (hf : m.frames = f :: fs)
    (hsame : ∀ g, w.calls (g :: fs) = g :: w.calls fs) (hbudget : w.budget = id)
    (hexecuted : m.limits.budget = none ∨ w.executed = 0) : w.Tracks step step m := by
  have hfetch := fetch_tracks hw hf hsame
  refine .congr_of (step_eq hf) ?_
  rintro _ ⟨s, hs, rfl⟩
  have hf' : (m.widen w s).frames = f :: w.calls fs := by simp only [Machine.widen, hf, hsame]
  refine ⟨_, step_eq hf', .ite (leave_tracks hw none) ?_⟩
  simp only [Machine.widen, hbudget, id]
  cases hb : m.limits.budget with
  | none => exact hfetch
  | some budget =>
    have hzero : w.executed = 0 := hexecuted.resolve_left (by simp [hb])
    simp only [hzero, Nat.zero_add]
    exact .ite (.throw _) hfetch

end Alike

end Exec

end StackScript
