import StackScript.Proofs.Machine.Control

/-! # Accesses in range

A bare machine knows nothing about its own indices. It takes every element, slice and difference as
it comes, and is stuck where one is out of range. Its steps are those of the machine, whatever the
code: it is never stuck.
-/

namespace StackScript

/-- A machine as it lies in memory, the outermost call first. -/
structure Bare where
  constants : Array Value
  slots : Array Value
  sp : Nat
  frames : Array Frame
  globals : Array Value
  limits : Limits
  executed : Nat
  nextStamp : Nat
  output : String

def Machine.bare (m : Machine) : Bare where
  constants := m.constants
  slots := m.stack.slots
  sp := m.stack.sp
  frames := m.frames.reverse.toArray
  globals := m.globals
  limits := m.limits
  executed := m.executed
  nextStamp := m.nextStamp
  output := m.output

section Bare

variable (m : Machine)

@[simp] theorem Machine.bare_constants : m.bare.constants = m.constants := rfl

@[simp] theorem Machine.bare_slots : m.bare.slots = m.stack.slots := rfl

@[simp] theorem Machine.bare_sp : m.bare.sp = m.stack.sp := rfl

@[simp] theorem Machine.bare_frames : m.bare.frames = m.frames.reverse.toArray := rfl

@[simp] theorem Machine.bare_globals : m.bare.globals = m.globals := rfl

@[simp] theorem Machine.bare_limits : m.bare.limits = m.limits := rfl

@[simp] theorem Machine.bare_executed : m.bare.executed = m.executed := rfl

end Bare

/-- A step of a bare machine: a result or a fault, or nothing when it is stuck. -/
abbrev Access := ExceptT Fault (StateT Bare Option)

namespace Access

variable {α : Type}

def stuck : Access α := fun _ => none

def element (xs : Array α) (i : Nat) : Access α :=
  match xs[i]? with
  | some a => pure a
  | none => stuck

def update (xs : Array α) (i : Nat) (a : α) : Access (Array α) :=
  if i < xs.size then pure (xs.setIfInBounds i a) else stuck

def slice (xs : Array α) (start stop : Nat) : Access (Array α) :=
  if start ≤ stop ∧ stop ≤ xs.size then pure (xs.extract start stop) else stuck

def difference (a b : Nat) : Access Nat := if b ≤ a then pure (a - b) else stuck

/-- A difference that the machine itself checks. -/
def below (a b : Nat) : Access Nat := if b ≤ a then pure (a - b) else throw .stackUnderflow

def ofExcept : Except Fault α → Access α
  | .ok a => pure a
  | .error fault => throw fault

/-! ## The stack -/

def push (v : Value) : Access Unit := do
  let b ← get
  if b.sp < b.slots.size then
    set { b with slots := b.slots.setIfInBounds b.sp v, sp := b.sp + 1 }
  else throw (.stackOverflow b.slots.size)

def pop : Access Value := do
  let b ← get
  if b.sp = 0 then throw .stackUnderflow
  else
    let sp ← difference b.sp 1
    set { b with sp := sp }
    element b.slots sp

def peek (distance : Nat) : Access Value := do
  let b ← get
  element b.slots (← below b.sp (distance + 1))

def window (n : Nat) : Access (List Value) := do
  let b ← get
  return (← slice b.slots (← below b.sp n) b.sp).toList

def discard (n : Nat) : Access Unit := do
  let b ← get
  let sp ← below b.sp n
  set { b with sp := sp }

def read (index : Nat) : Access Value := do
  let b ← get
  if b.sp ≤ index then throw .stackUnderflow else element b.slots index

def write (index : Nat) (v : Value) : Access Unit := do
  let b ← get
  if b.sp ≤ index then throw .stackUnderflow
  else
    let slots ← update b.slots index v
    set { b with slots := slots }

def reserve (clearFrom sp : Nat) : Access Unit := do
  let b ← get
  if b.slots.size < sp then throw (.stackOverflow b.slots.size)
  else set { b with slots := Stack.cleared b.slots clearFrom (sp - clearFrom), sp := sp }

def truncate (sp : Nat) : Access Unit := modify fun b => { b with sp := min b.sp sp }

/-! ## Slots and values -/

def frame : Access Frame := do
  match (← get).frames.back? with
  | some f => return f
  | none => throw .stackUnderflow

def setIp (ip : Nat) : Access Unit := modify fun b =>
  match b.frames.back? with
  | some f => { b with frames := b.frames.pop.push { f with ip := ip } }
  | none => b

def freshStamp : Access Nat :=
  modifyGet fun b => (b.nextStamp, { b with nextStamp := b.nextStamp + 1 })

def copied (v : Value) : Access Value := modifyGet fun b =>
  ((v.copy b.nextStamp).1, { b with nextStamp := (v.copy b.nextStamp).2 })

def index (target i : Value) : Access Value :=
  match target, i with
  | .array _ items, .int n => do element items.toArray (← ofExcept (Value.position items.length n))
  | target, i => ofExcept (target.index i)

def assignIndex (stamp : Nat) (target i v : Value) : Access Value :=
  match target, i with
  | .array _ items, .int n => do
    let items' ← update items.toArray (← ofExcept (Value.position items.length n)) v
    return .array stamp items'.toList
  | target, i => ofExcept (target.assignIndex stamp i v)

def loadSlot (operand : Nat) : Access Value := do
  let (storage, index) := Storage.decode operand
  match storage with
  | .globalSlot =>
    let globals := (← get).globals
    match globals[index]? with
    | some v => return v
    | none => throw (.globalOutOfRange index globals.size)
  | .localSlot => read ((← frame).base + index)
  | .builtin => return .builtin index
  | .captured =>
    match (← frame).free[index]? with
    | some v => return v
    | none => throw (.missingFreeVariable index)
  | .self => return (← frame).closure

def storeSlot (operand : Nat) (v : Value) : Access Unit := do
  let (storage, index) := Storage.decode operand
  match storage with
  | .globalSlot =>
    let capacity := (← get).globals.size
    if index < capacity then
      modify fun b => { b with globals := b.globals.setIfInBounds index v }
    else throw (.globalOutOfRange index capacity)
  | .localSlot => write ((← frame).base + index) v
  | storage => throw (.invalidStoreTarget storage)

def setElement (operand : Nat) : Access Unit := do
  let v ← copied (← pop)
  let i ← pop
  let target ← loadSlot operand
  let updated ← assignIndex (← freshStamp) target i v
  storeSlot operand updated
  push v

/-- Chunks of two; a last value without a partner is dropped. -/
def chunks : List Value → List (Array Value)
  | k :: v :: rest => #[k, v] :: chunks rest
  | _ => []

def pairs : List (Array Value) → Access (List (Value × Value))
  | [] => return []
  | chunk :: rest => do
    let key ← element chunk 0
    let value ← element chunk 1
    return (key, value) :: (← pairs rest)

def makeArray (length : Nat) : Access Unit := do
  let items ← window length
  discard length
  push (.array (← freshStamp) items)

def makeHash (length : Nat) : Access Unit := do
  let items ← pairs (chunks (← window length))
  discard length
  match Entries.ofPairs [] items with
  | .ok entries => push (.hash (← freshStamp) entries)
  | .error kind => throw (.unhashableKey kind)

def makeClosure (constant captured : Nat) : Access Unit := do
  match (← get).constants[constant]? with
  | some (.function f) =>
    let free ← window captured
    discard captured
    push (.closure (← freshStamp) f free)
  | some _ => throw (.notAFunction constant)
  | none => throw (.missingConstant constant)

/-! ## Calls and steps -/

def callClosure (stamp : Nat) (body : Function) (free : List Value) (argc : Nat) : Access Unit := do
  if argc ≠ body.params then throw (.wrongArity argc body.params)
  let b ← get
  if b.limits.frames ≤ b.frames.size then throw (.frameOverflow b.limits.frames)
  let base ← difference b.sp argc
  reserve (base + argc) (base + max body.locals argc)
  modify fun b => { b with frames := b.frames.push ⟨stamp, body, free, 0, base⟩ }

def callBuiltin (index argc : Nat) : Access Unit := do
  match Builtin.ofIndex? index with
  | none => throw (.unknownBuiltin index)
  | some builtin =>
    let args ← window argc
    match builtin.apply (← freshStamp) args with
    | .error refusal => throw (.builtin refusal)
    | .ok reply =>
      modify fun b => { b with output := b.output ++ reply.printed }
      discard (argc + 1)
      push reply.value

def call (argc : Nat) : Access Unit := do
  match ← peek argc with
  | .closure stamp body free => callClosure stamp body free argc
  | .builtin index => callBuiltin index argc
  | v => throw (.notCallable v.kind)

def leave (result : Option Value) : Access Unit := do
  let f ← frame
  modify fun b => { b with frames := b.frames.pop }
  let b ← get
  if b.frames.isEmpty then
    match result with
    | some v =>
      truncate 0
      push v
      Functor.discard pop
    | none => if b.sp = 0 then pure () else Functor.discard pop
  else
    -- The only difference that stops at zero.
    truncate (f.base - 1)
    push (result.getD .null)

def execute (op : Opcode) (operand second : Nat) : Access Unit := do
  match op with
  | .constant =>
    match (← get).constants[operand]? with
    | some v => push v
    | none => throw (.missingConstant operand)
  | .true => push (.bool true)
  | .false => push (.bool false)
  | .null => push .null
  | .pop => Functor.discard pop
  | .binary op =>
    let right ← pop
    let left ← pop
    push (← ofExcept (op.apply left right))
  | .unary op =>
    let v ← pop
    push (← ofExcept (op.apply v))
  | .jump => setIp operand
  | .jumpIfFalse => if (← pop).truthy then pure () else setIp operand
  | .array => makeArray operand
  | .hash => makeHash operand
  | .index =>
    let i ← pop
    let target ← pop
    push (← index target i)
  | .get => push (← loadSlot operand)
  | .set => storeSlot operand (← copied (← pop))
  | .setElement => setElement operand
  | .call => call operand
  | .ret => leave (some .null)
  | .retValue => leave (some (← pop))
  | .closure => makeClosure operand second
  | .currentClosure => push (← frame).closure

def step (depth : Nat) : Access Unit := do
  let b ← get
  let f ← element b.frames depth
  if f.body.code.size ≤ f.ip then leave none
  else
    match b.limits.budget with
    | some budget => if budget ≤ b.executed then throw (.budgetExhausted budget)
    | none => pure ()
    modify fun b => { b with executed := b.executed + 1 }
    match f.body.code.decode f.ip with
    | .error (.unknownOpcode byte offset) => throw (.unknownOpcode byte offset)
    | .error (.truncated offset) => throw (.truncatedInstruction offset)
    | .ok (i, next) =>
      let frames ← update (← get).frames depth { f with ip := next }
      modify fun b => { b with frames := frames }
      execute i.op (i.operands[0]?.getD 0) (i.operands[1]?.getD 0)

def frameLocals (depth : Nat) : Access (Option (List Value)) := do
  let b ← get
  match b.frames[depth]? with
  | none => return none
  | some f =>
    let live ← slice b.slots 0 b.sp
    let locals ← slice live (min f.base live.size) (min (f.base + f.body.locals) live.size)
    return some locals.toList

end Access

/-- From `m` the bare step ends as the other does, and is not stuck. -/
def Follows {α : Type} (x : Access α) (y : Exec α) (m : Machine) : Prop :=
  x m.bare = some ((y m).1, (y m).2.bare)

namespace Follows

variable {α β : Type} {m : Machine} {x : Access α} {y : Exec α} {f : α → Access β} {g : α → Exec β}

theorem bind (h : Follows x y m) (hf : ∀ a m', y m = (.ok a, m') → Follows (f a) (g a) m') :
    Follows (x >>= f) (y >>= g) m := by
  have hx : (x >>= f) m.bare = (x m.bare).bind fun r => ExceptT.bindCont f r.1 r.2 := rfl
  unfold Follows at h ⊢
  rw [hx, h, bind_apply]
  rcases hy : y m with ⟨e | a, m'⟩
  · rfl
  · exact hf a m' hy

theorem pure (a : α) : Follows (pure a) (pure a) m := rfl

theorem throw (e : Fault) : Follows (throw e : Access α) (throw e) m := rfl

theorem ofExcept (r : Except Fault α) : Follows (Access.ofExcept r) (Exec.ofExcept r) m := by
  cases r <;> rfl

theorem get {f : Bare → Access β} {g : Machine → Exec β} (h : Follows (f m.bare) (g m) m) :
    Follows (MonadState.get >>= f) (MonadState.get >>= g) m := h

theorem get_left {f : Bare → Access α} (h : Follows (f m.bare) y m) :
    Follows (MonadState.get >>= f) y m := h

theorem get_right {g : Machine → Exec α} (h : Follows x (g m) m) :
    Follows x (MonadState.get >>= g) m := h

theorem modify {f : Bare → Bare} {g : Machine → Machine} (h : f m.bare = (g m).bare) :
    Follows (modify f) (modify g) m := by
  change some (Except.ok _, f m.bare) = some (Except.ok _, (g m).bare)
  rw [h]

theorem discard (h : Follows x y m) : Follows (discard x) (discard y) m := by
  have hx : Functor.discard x = ExceptT.map (fun _ => PUnit.unit) x := rfl
  unfold Follows at h ⊢
  rw [hx, discard_apply]
  simp only [ExceptT.map, ExceptT.mk, Bind.bind, StateT.bind, h]
  rcases y m with ⟨e | a, m'⟩ <;> rfl

theorem ite {c : Prop} [Decidable c] {x' : Access α} {y' : Exec α} (h : c → Follows x y m)
    (h' : ¬ c → Follows x' y' m) : Follows (if c then x else x') (if c then y else y') m := by
  by_cases hc : c
  · simpa only [hc, if_true] using h hc
  · simpa only [hc, if_false] using h' hc

theorem onStack {step : Stacking α}
    (h : x m.bare = some ((step m.stack).1,
      { m.bare with slots := (step m.stack).2.slots, sp := (step m.stack).2.sp })) :
    Follows x (Exec.onStack step) m := h

end Follows

namespace Access

variable {m : Machine}

section Primitive

variable {α β : Type}

theorem pure_bind_apply (a : α) (f : α → Access β) (b : Bare) :
    ((pure a : Access α) >>= f) b = f a b := rfl

theorem get_bind_apply (f : Bare → Access β) (b : Bare) : (get >>= f) b = f b b := rfl

theorem set_bind_apply (b' : Bare) (f : PUnit → Access β) (b : Bare) :
    (set b' >>= f) b = f ⟨⟩ b' := rfl

theorem element_eq {xs : Array α} {i : Nat} (h : i < xs.size) : element xs i = pure xs[i] := by
  simp [element, h]

theorem update_eq {xs : Array α} {i : Nat} (h : i < xs.size) (a : α) :
    update xs i a = pure (xs.set i a) := by
  simp [update, h, Array.setIfInBounds]

theorem slice_eq {xs : Array α} {start stop : Nat} (h : start ≤ stop) (h' : stop ≤ xs.size) :
    slice xs start stop = pure (xs.extract start stop) := if_pos ⟨h, h'⟩

theorem difference_eq {a b : Nat} (h : b ≤ a) : difference a b = pure (a - b) := if_pos h

theorem below_eq {a b : Nat} (h : b ≤ a) : below a b = pure (a - b) := if_pos h

end Primitive

theorem push_follows (v : Value) : Follows (push v) (Exec.push v) m := by
  refine .onStack ?_
  obtain ⟨constants, ⟨slots, sp, le⟩, frames, globals, limits, executed, nextStamp, output⟩ := m
  by_cases h : sp < slots.size
  · simp only [push, get_bind_apply, Stacking.push, Machine.bare, h, if_true, Array.setIfInBounds]
    rfl
  · simp only [push, get_bind_apply, Stacking.push, Machine.bare, h, if_false]
    rfl

theorem pop_follows : Follows pop Exec.pop m := by
  refine .onStack ?_
  obtain ⟨constants, ⟨slots, sp, le⟩, frames, globals, limits, executed, nextStamp, output⟩ := m
  cases sp with
  | zero => rfl
  | succ sp =>
    simp only [pop, get_bind_apply, Machine.bare, Nat.add_one_ne_zero, if_false,
      difference_eq (Nat.le_add_left 1 sp), pure_bind_apply, set_bind_apply, Nat.add_sub_cancel,
      element_eq (Nat.lt_of_succ_le le)]
    rfl

theorem peek_follows (distance : Nat) :
    Follows (peek distance) (Exec.onStack (Stacking.peek distance)) m := by
  refine .onStack ?_
  have hle := m.stack.sp_le
  by_cases h : distance < m.stack.sp
  · have hlt : m.stack.sp - (distance + 1) < m.stack.slots.size := by omega
    simp only [peek, get_bind_apply, Stacking.peek, Machine.bare, h, dif_pos,
      below_eq (Nat.succ_le_of_lt h), pure_bind_apply, element_eq hlt]
    rfl
  · simp only [peek, get_bind_apply, Stacking.peek, Machine.bare, h, below, Nat.add_one_le_iff,
      if_false]
    rfl

theorem window_follows (n : Nat) : Follows (window n) (Exec.onStack (Stacking.window n)) m := by
  refine .onStack ?_
  by_cases h : n ≤ m.stack.sp
  · simp only [window, get_bind_apply, Stacking.window, Machine.bare, h, if_true, below_eq h,
      pure_bind_apply, slice_eq (Nat.sub_le _ _) m.stack.sp_le]
    rfl
  · simp only [window, get_bind_apply, Stacking.window, Machine.bare, h, below, if_false]
    rfl

theorem discard_follows (n : Nat) : Follows (discard n) (Exec.onStack (Stacking.discard n)) m := by
  refine .onStack ?_
  by_cases h : n ≤ m.stack.sp
  · simp only [discard, get_bind_apply, Stacking.discard, Machine.bare, h, if_true, below_eq h,
      pure_bind_apply]
    rfl
  · simp only [discard, get_bind_apply, Stacking.discard, Machine.bare, h, below, if_false]
    rfl

theorem read_follows (index : Nat) : Follows (read index) (Exec.onStack (Stacking.read index)) m := by
  refine .onStack ?_
  by_cases h : index < m.stack.sp
  · have hlt := Nat.lt_of_lt_of_le h m.stack.sp_le
    simp only [read, get_bind_apply, Stacking.read, Machine.bare, h, dif_pos, Nat.not_le.mpr h,
      if_false, element_eq hlt]
    rfl
  · simp only [read, get_bind_apply, Stacking.read, Machine.bare, h, Nat.not_lt.mp h, if_true]
    rfl

theorem write_follows (index : Nat) (v : Value) :
    Follows (write index v) (Exec.onStack (Stacking.write index v)) m := by
  refine .onStack ?_
  by_cases h : index < m.stack.sp
  · have hlt := Nat.lt_of_lt_of_le h m.stack.sp_le
    simp only [write, get_bind_apply, Stacking.write, Machine.bare, h, dif_pos, Nat.not_le.mpr h,
      if_false, update_eq hlt, pure_bind_apply]
    rfl
  · simp only [write, get_bind_apply, Stacking.write, Machine.bare, h, Nat.not_lt.mp h, if_true]
    rfl

theorem reserve_follows (clearFrom sp : Nat) :
    Follows (reserve clearFrom sp) (Exec.onStack (Stacking.reserve clearFrom sp)) m := by
  refine .onStack ?_
  by_cases h : sp ≤ m.stack.slots.size
  · simp only [reserve, get_bind_apply, Stacking.reserve, Machine.bare, h, dif_pos,
      Nat.not_lt.mpr h, if_false]
    rfl
  · simp only [reserve, get_bind_apply, Stacking.reserve, Machine.bare, h, Nat.not_le.mp h, if_true]
    rfl

theorem truncate_follows (sp : Nat) :
    Follows (truncate sp) (Exec.onStack (Stacking.truncate sp)) m := rfl

theorem back?_bare (m : Machine) : m.bare.frames.back? = m.frames.head? := by
  simp [Machine.bare]

theorem frame_follows : Follows frame Exec.frame m := by
  refine .get ?_
  rw [back?_bare]
  cases m.frames <;> rfl

theorem setIp_follows (ip : Nat) : Follows (setIp ip) (Exec.setIp ip) m := by
  refine .modify ?_
  rw [back?_bare]
  cases hf : m.frames with
  | nil => rfl
  | cons f fs => simp [Machine.bare, hf]

theorem freshStamp_follows : Follows freshStamp Exec.freshStamp m := rfl

theorem copied_follows (v : Value) : Follows (copied v) (Exec.copied v) m := rfl

theorem index_follows (target i : Value) :
    Follows (index target i) (Exec.ofExcept (target.index i)) m := by
  unfold index
  split
  · next stamp items n =>
    simp only [Value.index]
    cases hp : Value.position items.length n with
    | error e => rfl
    | ok k =>
      have hk : k < items.length := (Value.position_ok_iff.mp hp).2
      have hget : element items.toArray k = pure items[k] := element_eq hk
      simp only [ofExcept, pure_bind, hget]
      simp [Except.bind, bind, hk]
      rfl
  · exact .ofExcept _

theorem assignIndex_follows (stamp : Nat) (target i v : Value) :
    Follows (assignIndex stamp target i v) (Exec.ofExcept (target.assignIndex stamp i v)) m := by
  unfold assignIndex
  split
  · next old items n =>
    simp only [Value.assignIndex]
    cases hp : Value.position items.length n with
    | error e => rfl
    | ok k =>
      have hk : k < items.toArray.size := (Value.position_ok_iff.mp hp).2
      simp only [ofExcept, pure_bind, update_eq hk]
      simp [Except.bind, bind]
      rfl
  · exact .ofExcept _

theorem loadSlot_follows (operand : Nat) : Follows (loadSlot operand) (Exec.loadSlot operand) m := by
  unfold loadSlot Exec.loadSlot
  rcases Storage.decode operand with ⟨storage, index⟩
  cases storage with
  | globalSlot =>
    refine .get ?_
    simp only [Machine.bare_globals]
    cases m.globals[index]? <;> rfl
  | localSlot => exact frame_follows.bind fun f m' _ => read_follows _
  | builtin => rfl
  | captured =>
    refine frame_follows.bind fun f m' _ => ?_
    cases f.free[index]? <;> rfl
  | self => exact frame_follows.bind fun f m' _ => .pure _

theorem storeSlot_follows (operand : Nat) (v : Value) :
    Follows (storeSlot operand v) (Exec.storeSlot operand v) m := by
  unfold storeSlot Exec.storeSlot
  rcases Storage.decode operand with ⟨storage, index⟩
  cases storage with
  | globalSlot =>
    refine .get ?_
    exact .ite (fun _ => .modify rfl) fun _ => .throw _
  | localSlot => exact frame_follows.bind fun f m' _ => write_follows _ _
  | _ => rfl

theorem setElement_follows (operand : Nat) :
    Follows (setElement operand) (Exec.setElement operand) m := by
  refine pop_follows.bind fun v m₁ _ => (copied_follows v).bind fun w m₂ _ =>
    pop_follows.bind fun i m₃ _ => (loadSlot_follows operand).bind fun target m₄ _ =>
      freshStamp_follows.bind fun stamp m₅ _ => (assignIndex_follows _ _ _ _).bind fun updated m₆ _ =>
        (storeSlot_follows _ _).bind fun _ m₇ _ => push_follows _

theorem pairs_chunks (vs : List Value) : pairs (chunks vs) = pure (Value.pairUp vs) := by
  fun_induction chunks vs with
  | case1 k v rest ih =>
    have hfst : element #[k, v] 0 = pure k := rfl
    have hsnd : element #[k, v] 1 = pure v := rfl
    simp only [pairs, Value.pairUp, ih, hfst, hsnd, pure_bind]
  | case2 vs h =>
    unfold Value.pairUp
    split
    · next k v rest => exact absurd rfl (h k v rest)
    · rfl

theorem makeArray_follows (length : Nat) : Follows (makeArray length) (Exec.makeArray length) m :=
  (window_follows length).bind fun _ _ _ => (discard_follows length).bind fun _ _ _ =>
    freshStamp_follows.bind fun _ _ _ => push_follows _

theorem makeHash_follows (length : Nat) : Follows (makeHash length) (Exec.makeHash length) m := by
  refine (window_follows length).bind fun items m₁ _ => ?_
  simp only [pairs_chunks, pure_bind]
  refine (discard_follows length).bind fun _ m₂ _ => ?_
  cases Entries.ofPairs [] (Value.pairUp items) with
  | error kind => rfl
  | ok entries => exact freshStamp_follows.bind fun _ _ _ => push_follows _

theorem makeClosure_follows (constant captured : Nat) :
    Follows (makeClosure constant captured) (Exec.makeClosure constant captured) m := by
  refine .get ?_
  simp only [Machine.bare_constants]
  cases m.constants[constant]? with
  | none => rfl
  | some v =>
    cases v with
    | function f =>
      exact (window_follows captured).bind fun _ _ _ => (discard_follows captured).bind fun _ _ _ =>
        freshStamp_follows.bind fun _ _ _ => push_follows _
    | _ => rfl

/-- The callee lies below the arguments, so the base is in the stack. -/
theorem callClosure_follows {argc : Nat} (hsp : argc ≤ m.stack.sp) (stamp : Nat) (body : Function)
    (free : List Value) :
    Follows (callClosure stamp body free argc) (Exec.callClosure stamp body free argc) m := by
  refine .ite (fun _ => rfl) fun _ => .get ?_
  simp only [Machine.bare_limits, Machine.bare_frames, List.size_toArray, List.length_reverse,
    Machine.bare_sp, difference_eq hsp, pure_bind]
  refine .ite (fun _ => rfl) fun _ => (reserve_follows _ _).bind fun _ m' _ => .modify ?_
  simp [Machine.bare]

theorem callBuiltin_follows (index argc : Nat) :
    Follows (callBuiltin index argc) (Exec.callBuiltin index argc) m := by
  unfold callBuiltin Exec.callBuiltin
  cases Builtin.ofIndex? index with
  | none => rfl
  | some builtin =>
    refine (window_follows argc).bind fun args m₁ _ => freshStamp_follows.bind fun stamp m₂ _ => ?_
    cases builtin.apply stamp args with
    | error refusal => rfl
    | ok reply =>
      exact Follows.bind (.modify rfl) fun _ _ _ => (discard_follows _).bind fun _ _ _ =>
        push_follows _

theorem call_follows (argc : Nat) : Follows (call argc) (Exec.call argc) m := by
  refine (peek_follows argc).bind fun v m' h => ?_
  obtain ⟨rfl, hlt⟩ := Exec.lt_sp_of_peek h
  cases v with
  | closure stamp body free => exact callClosure_follows (Nat.le_of_lt hlt) stamp body free
  | builtin index => exact callBuiltin_follows index argc
  | _ => rfl

theorem leave_follows (result : Option Value) : Follows (leave result) (Exec.leave result) m := by
  refine frame_follows.bind fun f m₁ _ => Follows.bind (.modify ?_) fun _ m₂ _ => .get ?_
  · cases hf : m₁.frames <;> simp [Machine.bare, hf]
  simp only [Machine.bare_frames, List.isEmpty_toArray, List.isEmpty_reverse, Machine.bare_sp]
  refine .ite (fun _ => ?_) fun _ => (truncate_follows _).bind fun _ _ _ => push_follows _
  cases result with
  | some v =>
    exact (truncate_follows 0).bind fun _ _ _ => (push_follows v).bind fun _ _ _ =>
      pop_follows.discard
  | none => exact .ite (fun _ => .pure _) fun _ => pop_follows.discard

theorem execute_follows (op : Opcode) (operand second : Nat) :
    Follows (execute op operand second) (Exec.execute op operand second) m := by
  cases op with
  | constant =>
    refine .get ?_
    simp only [Machine.bare_constants]
    cases m.constants[operand]? with
    | none => rfl
    | some v => exact push_follows v
  | true | false | null => exact push_follows _
  | pop => exact pop_follows.discard
  | binary op =>
    exact pop_follows.bind fun _ _ _ => pop_follows.bind fun _ _ _ =>
      (Follows.ofExcept _).bind fun _ _ _ => push_follows _
  | unary op =>
    exact pop_follows.bind fun _ _ _ => (Follows.ofExcept _).bind fun _ _ _ => push_follows _
  | jump => exact setIp_follows operand
  | jumpIfFalse =>
    refine pop_follows.bind fun v _ _ => ?_
    split
    · rfl
    · exact setIp_follows operand
  | array => exact makeArray_follows operand
  | hash => exact makeHash_follows operand
  | index =>
    exact pop_follows.bind fun _ _ _ => pop_follows.bind fun _ _ _ =>
      (index_follows _ _).bind fun _ _ _ => push_follows _
  | get => exact (loadSlot_follows operand).bind fun _ _ _ => push_follows _
  | set =>
    exact pop_follows.bind fun _ _ _ => (copied_follows _).bind fun _ _ _ => storeSlot_follows _ _
  | setElement => exact setElement_follows operand
  | call => exact call_follows operand
  | ret => exact leave_follows _
  | retValue => exact pop_follows.bind fun _ _ _ => leave_follows _
  | closure => exact makeClosure_follows operand second
  | currentClosure => exact frame_follows.bind fun _ _ _ => push_follows _

theorem frame_eq {f : Frame} {fs : List Frame} (hf : m.frames = f :: fs) :
    Exec.frame m = (.ok f, m) := by
  simp only [Exec.frame, bind_apply, get_apply, hf]
  rfl

theorem element_frame_follows {f : Frame} {fs : List Frame} (hf : m.frames = f :: fs) :
    Follows (element m.bare.frames fs.length) Exec.frame m := by
  have hlt : fs.length < m.bare.frames.size := by simp [hf]
  have hget : m.bare.frames[fs.length] = f := by simp [hf]
  unfold Follows
  rw [element_eq hlt, hget, frame_eq hf]
  rfl

theorem fetch_follows {f : Frame} {fs : List Frame} (hf : m.frames = f :: fs) :
    Follows (do
      modify fun b => { b with executed := b.executed + 1 }
      match f.body.code.decode f.ip with
      | .error (.unknownOpcode byte offset) => throw (.unknownOpcode byte offset)
      | .error (.truncated offset) => throw (.truncatedInstruction offset)
      | .ok (i, next) =>
        let frames ← update (← get).frames fs.length { f with ip := next }
        modify fun b => { b with frames := frames }
        execute i.op (i.operands[0]?.getD 0) (i.operands[1]?.getD 0))
      (do
      modify fun m => { m with executed := m.executed + 1 }
      match f.body.code.decode f.ip with
      | .error (.unknownOpcode byte offset) => throw (.unknownOpcode byte offset)
      | .error (.truncated offset) => throw (.truncatedInstruction offset)
      | .ok (i, next) =>
        Exec.setIp next
        Exec.execute i.op (i.operands[0]?.getD 0) (i.operands[1]?.getD 0)) m := by
  refine Follows.bind (.modify rfl) fun _ m₁ h₁ => ?_
  have hf₁ : m₁.frames = f :: fs := by
    cases h₁
    exact hf
  split
  · rfl
  · rfl
  · next i next _ =>
    refine .get_left ?_
    have hlt : fs.length < m₁.bare.frames.size := by simp [hf₁]
    simp only [update_eq hlt, pure_bind]
    refine Follows.bind (.modify ?_) fun _ m₂ _ => execute_follows _ _ _
    simp [Machine.bare, hf₁]

/-- The bare machine takes the steps of the machine, as long as a call is active. -/
theorem step_follows {f : Frame} {fs : List Frame} (hf : m.frames = f :: fs) :
    Follows (step fs.length) Exec.step m := by
  refine .get_left ((element_frame_follows hf).bind fun g m' h => ?_)
  rw [frame_eq hf] at h
  cases h
  refine .ite (fun _ => leave_follows none) fun _ => .get_right ?_
  simp only [Machine.bare_limits, Machine.bare_executed]
  cases m.limits.budget with
  | none => exact fetch_follows hf
  | some budget => exact .ite (fun _ => rfl) fun _ => fetch_follows hf

theorem extract_clamped {α : Type} (xs : Array α) (start stop : Nat) :
    xs.extract (min start xs.size) (min stop xs.size) = xs.extract start stop := by
  apply Array.ext
  · simp only [Array.size_extract]
    omega
  · intro i h h'
    simp only [Array.size_extract] at h'
    have hstart : min start xs.size = start := by omega
    simp only [Array.getElem_extract, hstart]

/-- A base above the top of the stack gives no locals, and an end above it fewer. -/
theorem frameLocals_eq (m : Machine) (depth : Nat) :
    frameLocals depth m.bare = some (.ok (m.frames.reverse[depth]?.map m.frameLocals), m.bare) := by
  simp only [frameLocals, get_bind_apply, Machine.bare_frames, List.getElem?_toArray]
  cases m.frames.reverse[depth]? with
  | none => rfl
  | some f =>
    simp only [Machine.bare_slots, Machine.bare_sp, slice_eq (Nat.zero_le _) m.stack.sp_le,
      pure_bind_apply]
    rw [slice_eq (by omega) (Nat.min_le_right _ _), extract_clamped]
    rfl

end Access

end StackScript
