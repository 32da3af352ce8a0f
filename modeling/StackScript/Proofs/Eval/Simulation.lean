import StackScript.Proofs.Eval.Evaluator
import StackScript.Proofs.Eval.Plain
import StackScript.Proofs.Machine.Preservation

/-! # Code that follows an evaluation

A piece of the code of a program follows a part of its evaluation: from the same variables, the
machine comes behind the piece with the value on the stack, or it leaves for the loop around, or it
ends or fails, whatever the evaluation does. Pieces are composed like the evaluations they follow.
-/

namespace StackScript

abbrev Value.Plain (v : Value) : Prop := v.All fun u => u.kind ≠ .closure

/-- A program without functions that runs by itself: its code with the listing, on a stack of `room`
slots. -/
structure Text where
  pool : Array Value
  body : Function
  items : List Item
  extent : Extent
  final : Nat
  room : Nat
  listed : Listed pool body items extent final
  locals : extent.locals = 0
  outside : extent.inFunction = false
  fits : ∀ i ∈ items, i.height < room
  plain : Closureless items

def Text.frame (t : Text) (ip : Nat) : Frame := ⟨mainStamp, t.body, [], ip, 0⟩

structure Machine.Shows (m : Machine) (st : Store) : Prop where
  globals : ∀ i v, m.globals[i]? = some v → st.vars i = v
  output : m.output = st.output

structure Text.At (t : Text) (m : Machine) (ip : Nat) (l : List Value) (st : Store) : Prop where
  frames : m.frames = [t.frame ip]
  stack : m.stack.Holds t.room l
  constants : m.constants = t.pool
  budget : m.limits.budget = none
  size : t.extent.globals ≤ m.globals.size
  shows : m.Shows st
  stamp : m.nextStamp = st.nextStamp
  plain : ∀ v ∈ l, v.Plain
  vars : ∀ i, (st.vars i).Plain

def Text.Comes (t : Text) (m : Machine) (ip : Nat) (l : List Value) (st : Store) : Prop :=
  ∃ m', m.Steps m' ∧ t.At m' ip l st

def Machine.EndsWith (m : Machine) (v : Value) (st : Store) : Prop :=
  ∃ m', m.Steps m' ∧ m'.frames = [] ∧ m'.lastPopped = v ∧ m'.Shows st

def Machine.FailsWith (m : Machine) (e : Fault) (st : Store) : Prop :=
  ∃ m₁ m', m.Steps m₁ ∧ m₁.frames ≠ [] ∧ Exec.step m₁ = (.error e, m') ∧ m'.Shows st

/-- What the machine does where the evaluation does not get to the end of a node. -/
def Text.Leaves (t : Text) (out : Option LoopExit) (base : List Value) (m : Machine) :
    Eval.Exit → Store → Prop
  | .fault e, st => m.FailsWith e st
  | .returned v, st => m.EndsWith v st
  | .broke, st => ∃ x, out = some x ∧ t.Comes m x.breakTo base st
  | .continued, st => ∃ x, out = some x ∧ t.Comes m x.continueTo base st
  | .exhausted, _ => True
  | .meaningless, _ => False

/-- From `ip`, with the values `l`, the machine follows `x`. The loop around has the exits `out`,
where the values `base` are on the stack. -/
def Text.Follows (t : Text) (out : Option LoopExit) (base : List Value) {α : Type} (ip : Nat)
    (l : List Value) (x : Eval α) (next : α → Nat) (after : α → List Value) : Prop :=
  ∀ m st, t.At m ip l st → Gives x st (fun a st' => t.Comes m (next a) (after a) st')
    (fun e st' => t.Leaves out base m e st')

/-- The machine goes from one place to another, and nothing else changes. -/
def Text.Goes (t : Text) (ip : Nat) (l : List Value) (ip' : Nat) (l' : List Value) : Prop :=
  ∀ m st, t.At m ip l st → t.Comes m ip' l' st

section Composition

variable {t : Text} {out : Option LoopExit} {base l l' : List Value} {α β : Type} {ip ip' : Nat}
  {m m' : Machine} {st : Store} {x : Eval α}

theorem Text.Comes.after (h : m.Steps m') (h' : t.Comes m' ip l st) : t.Comes m ip l st := by
  obtain ⟨m₁, hsteps, hat⟩ := h'
  exact ⟨m₁, h.trans hsteps, hat⟩

theorem Text.Leaves.after {e : Eval.Exit} (h : m.Steps m') (h' : t.Leaves out base m' e st) :
    t.Leaves out base m e st := by
  cases e with
  | fault e =>
    obtain ⟨m₁, m₂, hsteps, hrest⟩ := h'
    exact ⟨m₁, m₂, h.trans hsteps, hrest⟩
  | returned v =>
    obtain ⟨m₁, hsteps, hrest⟩ := h'
    exact ⟨m₁, h.trans hsteps, hrest⟩
  | broke =>
    obtain ⟨y, hy, hcomes⟩ := h'
    exact ⟨y, hy, hcomes.after h⟩
  | continued =>
    obtain ⟨y, hy, hcomes⟩ := h'
    exact ⟨y, hy, hcomes.after h⟩
  | exhausted => trivial
  | meaningless => exact h'.elim

theorem Text.Goes.refl : t.Goes ip l ip l := fun m _ hm => ⟨m, .refl, hm⟩

theorem Text.Goes.trans {ip'' : Nat} {l'' : List Value} (h : t.Goes ip l ip' l')
    (h' : t.Goes ip' l' ip'' l'') : t.Goes ip l ip'' l'' := by
  intro m st hm
  obtain ⟨m', hsteps, hat⟩ := h m st hm
  exact (h' m' st hat).after hsteps

namespace Text.Follows

variable {next next' : α → Nat} {after after' : α → List Value}

theorem pure {a : α} (h : t.Goes ip l (next a) (after a)) :
    t.Follows out base ip l (Pure.pure a) next after := h

theorem bind_of {f : α → Eval β} {last : β → Nat} {final : β → List Value}
    (h : t.Follows out base ip l x next after)
    (hf : ∀ a, (∃ st st', x st = (.ok a, st')) →
      t.Follows out base (next a) (after a) (f a) last final) :
    t.Follows out base ip l (x >>= f) last final := by
  intro m st hm
  have hx := h m st hm
  unfold Gives at hx ⊢
  rw [bind_apply]
  rcases hr : x st with ⟨e | a, st'⟩ <;> rw [hr] at hx
  · exact hx
  · obtain ⟨m', hsteps, hat⟩ := hx
    have hrest := hf a ⟨st, st', hr⟩ m' st' hat
    exact hrest.mono (fun _ _ hc => hc.after hsteps) fun _ _ he => he.after hsteps

theorem bind {f : α → Eval β} {last : β → Nat} {final : β → List Value}
    (h : t.Follows out base ip l x next after)
    (hf : ∀ a, t.Follows out base (next a) (after a) (f a) last final) :
    t.Follows out base ip l (x >>= f) last final :=
  h.bind_of fun a _ => hf a

theorem before (h : t.Goes ip l ip' l') (hx : t.Follows out base ip' l' x next after) :
    t.Follows out base ip l x next after := by
  intro m st hm
  obtain ⟨m', hsteps, hat⟩ := h m st hm
  exact (hx m' st hat).mono (fun _ _ hc => hc.after hsteps) fun _ _ he => he.after hsteps

theorem behind (hx : t.Follows out base ip l x next after)
    (h : ∀ a, t.Goes (next a) (after a) (next' a) (after' a)) :
    t.Follows out base ip l x next' after' := by
  intro m st hm
  refine (hx m st hm).mono ?_ fun _ _ he => he
  rintro a st' ⟨m', hsteps, hat⟩
  exact (h a m' st' hat).after hsteps

end Text.Follows

end Composition

def Result.onVariables (r : Result) (vars : Nat → Value) (i : Nat) : Value :=
  match r.written with
  | some (⟨.globalSlot, index⟩, v) => if i = index then v else vars i
  | _ => vars i

/-- An evaluation step has the result `y`, above the values `l`, or the fault. -/
structure Eval.Has {α : Type} (x : Eval α) (st : Store) (y : Except Fault Result) (f : Frame)
    (l : List Value) (after : α → List Value) : Prop where
  ok : ∀ r, y = .ok r → r.onLocals f l = l ∧ ∃ a, after a = l ++ r.pushed.toList ∧
    x st = (.ok a, ⟨r.onVariables st.vars, r.stamp, st.output ++ r.printed⟩)
  error : ∀ e, y = .error e → ∃ stamp, x st = (.error (.fault e), { st with nextStamp := stamp })

section Steps

variable {t : Text} {out : Option LoopExit} {base l args : List Value} {α : Type} {m : Machine}
  {st : Store} {j : Item} {ip : Nat}

theorem Result.shows_onVariables (r : Result) {globals : Array Value} {vars : Nat → Value}
    (h : ∀ (i : Nat) v, globals[i]? = some v → vars i = v) (i : Nat) (v : Value)
    (hv : (r.onGlobals globals)[i]? = some v) : r.onVariables vars i = v := by
  obtain ⟨pushed, written, stamp, printed⟩ := r
  rcases written with _ | ⟨⟨storage, index⟩, w⟩
  · exact h i v hv
  cases storage with
  | globalSlot =>
    simp only [Result.onGlobals, Array.getElem?_setIfInBounds] at hv
    by_cases hi : index = i
    · rw [if_pos hi] at hv
      split at hv
      · cases hv
        exact if_pos hi.symm
      · cases hv
    · rw [if_neg hi] at hv
      exact (if_neg fun heq => hi heq.symm).trans (h i v hv)
  | _ => exact h i v hv

theorem Result.onVariables_all (r : Result) {P : Value → Prop} {vars : Nat → Value}
    (h : ∀ i, (vars i).All P) (hw : ∀ p v, r.written = some (p, v) → v.All P) (i : Nat) :
    (r.onVariables vars i).All P := by
  unfold Result.onVariables
  split
  · next index v he =>
    split
    · exact hw _ v he
    · exact h i
  · exact h i

theorem Item.Names.within {x : Extent} {p : Place} (h : j.Names x (· ≠ .self))
    (ho : j.operands = [p.operand]) (hself : p.storage ≠ .self) (hlt : p.index < Storage.slotLimit) :
    p.Within x := by
  obtain ⟨q, hq, hstorage, hindex, hwithin⟩ := h
  have heq : q.operand = p.operand := by simpa using hq.symm.trans ho
  rw [← Place.ofOperand_operand hself hlt, ← heq, Place.ofOperand_operand hstorage hindex]
  exact hwithin

theorem Text.At.global (hm : t.At m ip l st) {index : Nat} (hj : j ∈ t.items)
    (ho : j.op = .get ∨ j.op = .set ∨ j.op = .setElement)
    (hp : j.operands = [(Place.mk .globalSlot index).operand]) (hlt : index < Storage.slotLimit) :
    m.globals[index]? = some (st.vars index) := by
  have hwithin : Place.Within ⟨.globalSlot, index⟩ t.extent :=
    ((t.listed.sound j hj).names ho).within hp (by simp) hlt
  have hsize : index < m.globals.size := Nat.lt_of_lt_of_le hwithin hm.size
  rw [hm.shows.globals index _ (Array.getElem?_eq_getElem hsize)]
  exact Array.getElem?_eq_getElem hsize

namespace Text.At

theorem ip_lt (hj : j ∈ t.items) : j.offset < t.body.code.size := by
  have := (t.listed.flows.tiled.bounds hj).2
  have := j.op.length_pos
  omega

theorem step_gives (hm : t.At m j.offset l st) (hj : j ∈ t.items)
    {Q : Unit → Machine → Prop} {E : Fault → Machine → Prop}
    (h : Gives (Exec.execute j.op (j.operands[0]?.getD 0) (j.operands[1]?.getD 0))
      (m.fetched (t.frame j.offset) [] (j.offset + j.op.length)) Q E) :
    Gives Exec.step m Q E := by
  refine Exec.step_gives hm.frames (ip_lt hj) (t.listed.decode hj) (fun budget hb => ?_) h
  rw [hm.budget] at hb
  cases hb

/-- The values that an instruction finds contain no closure. -/
theorem supplies (hm : t.At m ip (l ++ args) st) (hj : j ∈ t.items) :
    m.Supplies (t.frame ip) j.toInstruction args fun u => u.kind ≠ .closure := by
  have hsound := t.listed.sound j hj
  refine ⟨fun v hv => hm.plain v (List.mem_append_right l hv), ?_, ?_, ?_, ?_⟩
  · intro ho v hv
    simp only [Item.Sound, ho] at hsound
    obtain ⟨k, u, hoperands, -, hu, e, he⟩ := hsound
    rw [hoperands, List.getElem?_cons_zero, Option.getD_some, hm.constants, hu] at hv
    cases hv
    exact Expr.constant?_all he
  · intro ho v hv
    obtain ⟨p, hp, hself, hlt, hwithin⟩ := hsound.names (ho.imp_right .inr)
    rw [hp, List.getElem?_cons_zero, Option.getD_some, Place.ofOperand_operand hself hlt] at hv
    obtain ⟨storage, index⟩ := p
    cases storage with
    | globalSlot => exact hm.shows.globals index v hv ▸ hm.vars index
    | localSlot =>
      simp only [Place.Within, t.locals] at hwithin
      omega
    | builtin =>
      cases hv
      exact .builtin (by simp [Value.kind])
    | captured => cases hv
    | self => exact absurd rfl hself
  · intro ho
    simp only [Item.Sound, ho, t.outside] at hsound
    cases hsound
  · intro ho
    have hplain := t.plain j hj
    rw [ho] at hplain
    cases hplain

end Text.At

/-- An instruction that neither jumps nor returns follows an evaluation step with the same result. -/
theorem Text.Follows.instruction {x : Eval α} {after : α → List Value} (hj : j ∈ t.items)
    (hstraight : j.op.straight = true) (hpops : args.length = j.pops)
    (hheight : l.length + args.length = j.height)
    (hx : ∀ m st, t.At m j.offset (l ++ args) st →
      x.Has st (m.compute (t.frame j.offset) j.toInstruction args) (t.frame j.offset) l after) :
    t.Follows out base j.offset (l ++ args) x (fun _ => j.offset + j.op.length) after := by
  intro m st hm
  have hsound := t.listed.sound j hj
  have hroom := t.fits j hj
  have hsupplies := hm.supplies hj
  have hnone : j.op = .call → ∀ stamp body free, args.head? ≠ some (.closure stamp body free) := by
    intro _ stamp body free hhead
    have hplain := hm.plain _ (List.mem_append_right l (List.mem_of_head? hhead))
    cases hplain with
    | closure hp => exact hp rfl
  have hstep := hm.step_gives hj (Exec.execute_computes (f := t.frame (j.offset + j.op.length))
    (m := m.fetched (t.frame j.offset) [] (j.offset + j.op.length)) rfl hm.stack hpops
    (hm.constants ▸ hsound) (by rw [t.locals]; exact Nat.zero_le _) hstraight hnone)
  rcases hs : Exec.step m with ⟨e | _, m'⟩
  · obtain ⟨⟨s, stamp, -, rfl⟩, he | ⟨-, hfull⟩⟩ := hstep.of_error hs
    · obtain ⟨stamp', hxe⟩ := (hx m st hm).error e he
      unfold Gives
      rw [hxe]
      refine ⟨m, _, .refl, by simp [hm.frames], hs, hm.shows.globals, hm.shows.output⟩
    · omega
  · obtain ⟨r, hr, s, hholds, rfl⟩ := hstep.of_ok hs
    obtain ⟨hlocals, a, hafter, hxa⟩ := (hx m st hm).ok r hr
    have hkeeps := hsupplies.keeps hr
    unfold Gives
    rw [hxa]
    have hl : r.onLocals (t.frame (j.offset + j.op.length)) l = l := hlocals
    refine ⟨_, .step (by simp [hm.frames]) hs .refl, rfl, ?_, hm.constants, hm.budget, ?_, ⟨?_, ?_⟩,
      rfl, ?_, ?_⟩
    · rw [hafter]
      rw [hl] at hholds
      exact hholds
    · change _ ≤ (r.onGlobals m.globals).size
      rw [r.size_onGlobals]
      exact hm.size
    · exact fun i v hv => r.shows_onVariables hm.shows.globals i v hv
    · exact congrArg (· ++ r.printed) hm.shows.output
    · intro v hv
      rw [hafter] at hv
      rcases List.mem_append.mp hv with hv | hv
      · exact hm.plain v (List.mem_append_left _ hv)
      · exact hkeeps.pushed v (Option.mem_toList.mp hv)
    · exact r.onVariables_all hm.vars hkeeps.written

theorem Machine.steps_of_step {Q : Machine → Prop} (hf : m.frames ≠ [])
    (h : Gives Exec.step m (fun _ m' => Q m') fun _ _ => False) : ∃ m', m.Steps m' ∧ Q m' := by
  rcases hs : Exec.step m with ⟨e | _, m'⟩
  · exact (h.of_error hs).elim
  · exact ⟨m', .step hf hs .refl, h.of_ok hs⟩

namespace Text

theorem At.frames_ne_nil (hm : t.At m ip l st) : m.frames ≠ [] := by simp [hm.frames]

theorem At.goto {s : Stack} {ip' : Nat} {l' : List Value} (hm : t.At m ip l st)
    (hs : s.Holds t.room l') (hl : l' ⊆ l) {executed : Nat} :
    t.At { m with stack := s, frames := [t.frame ip'], executed := executed } ip' l' st :=
  ⟨rfl, hs, hm.constants, hm.budget, hm.size, ⟨hm.shows.globals, hm.shows.output⟩, hm.stamp,
    fun v hv => hm.plain v (hl hv), hm.vars⟩

theorem Goes.jump {target : Nat} (hj : j ∈ t.items) (ho : j.toInstruction = ⟨.jump, [target]⟩) :
    t.Goes j.offset l target l := by
  intro m st hm
  refine Machine.steps_of_step hm.frames_ne_nil (hm.step_gives hj ?_)
  simp only [ho, Exec.execute, List.getElem?_cons_zero, Option.getD_some]
  refine (Exec.setIp_gives rfl target).mono ?_ fun _ _ h => h
  rintro _ _ rfl
  exact hm.goto hm.stack (List.Subset.refl _)

theorem Goes.jumpIfFalse {target : Nat} {v : Value} (hj : j ∈ t.items)
    (ho : j.toInstruction = ⟨.jumpIfFalse, [target]⟩) :
    t.Goes j.offset (l ++ [v]) (if v.truthy then j.offset + Opcode.length .jumpIfFalse else target)
      l := by
  intro m st hm
  have hl : l ⊆ l ++ [v] := List.subset_append_left _ _
  refine Machine.steps_of_step hm.frames_ne_nil (hm.step_gives hj ?_)
  simp only [ho, List.getElem?_cons_zero, Option.getD_some]
  refine Gives.mono (Exec.jumpIfFalse_gives (f := t.frame (j.offset + Opcode.length .jumpIfFalse))
    (m := m.fetched _ _ _) rfl hm.stack _ _) ?_ fun _ _ h => h
  rintro _ _ ⟨s, hs, rfl⟩
  cases v.truthy with
  | true => exact hm.goto hs hl
  | false => exact hm.goto hs hl

theorem Goes.pop {v : Value} (hj : j ∈ t.items) (ho : j.toInstruction = ⟨.pop, []⟩) :
    t.Goes j.offset (l ++ [v]) (j.offset + Opcode.length .pop) l := by
  intro m st hm
  refine Machine.steps_of_step hm.frames_ne_nil (hm.step_gives hj ?_)
  simp only [ho, Exec.execute]
  refine Gives.mono (Exec.pop_gives (m := m.fetched _ _ _) hm.stack).discarded ?_ fun _ _ h => h
  rintro _ _ ⟨_, -, ⟨s, hs, rfl⟩, -⟩
  exact hm.goto hs (List.subset_append_left _ _)

theorem At.returns (hm : t.At m j.offset l st) (hj : j ∈ t.items)
    (ho : j.toInstruction = ⟨.ret, []⟩) : m.EndsWith .null st := by
  have hroom := Nat.zero_lt_of_lt (t.fits j hj)
  refine Machine.steps_of_step hm.frames_ne_nil (hm.step_gives hj ?_)
  simp only [ho, Exec.execute]
  refine Gives.mono (Exec.leave_main_gives (m := m.fetched _ _ _) rfl hm.stack hroom .null) ?_
    fun _ _ h => h
  rintro _ _ ⟨s, hs, hlast, rfl⟩
  exact ⟨rfl, hlast, hm.shows.globals, hm.shows.output⟩

theorem At.returnsValue {v : Value} (hm : t.At m j.offset (l ++ [v]) st) (hj : j ∈ t.items)
    (ho : j.toInstruction = ⟨.retValue, []⟩) : m.EndsWith v st := by
  have hroom := Nat.zero_lt_of_lt (t.fits j hj)
  refine Machine.steps_of_step hm.frames_ne_nil (hm.step_gives hj ?_)
  simp only [ho, Exec.execute]
  refine Gives.bind (Exec.pop_gives (m := m.fetched _ _ _) hm.stack) (fun _ _ h => h) ?_
  rintro v _ ⟨rfl, ⟨s, hs, rfl⟩, -⟩
  refine Gives.mono (Exec.leave_main_gives (m := { m.fetched _ _ _ with stack := s }) rfl hs hroom v)
    ?_ fun _ _ h => h
  rintro _ _ ⟨s', hs', hlast, rfl⟩
  exact ⟨rfl, hlast, hm.shows.globals, hm.shows.output⟩

/-- Behind its last instruction a program ends, with the value on the stack if there is one. -/
theorem At.ends (hm : t.At m t.body.code.size l st) (hl : l.length ≤ 1) :
    ∃ m', m.Steps m' ∧ m'.frames = [] ∧ (∀ v, l = [v] → m'.lastPopped = v) ∧ m'.Shows st := by
  refine Machine.steps_of_step hm.frames_ne_nil (Exec.step_end hm.frames rfl ?_)
  refine (Exec.leave_end_gives hm.frames hm.stack hl).mono ?_ fun _ _ h => h
  rintro _ _ ⟨s, hs, hlast, rfl⟩
  exact ⟨rfl, hlast, hm.shows.globals, hm.shows.output⟩

end Text

end Steps

end StackScript
