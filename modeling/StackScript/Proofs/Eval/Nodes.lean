import StackScript.Proofs.Eval.Simulation

/-! # The code of nodes follows their evaluation

One rule for each kind of node: if the code of its parts follows their evaluation, then its own code
does.
-/

namespace StackScript

/-- The values `l` are on the stack before a node of the top level, and `base` at the exits of the
loop around. -/
structure Setting.Meets (c : Setting) (base l : List Value) : Prop where
  outside : c.env.inner = []
  captured : c.captured = []
  height : l.length = c.height
  below : base <+: l
  exit : ∀ x, c.loop = some x → base.length = x.height

section Settings

variable {c : Setting} {base l : List Value} {env : Lexical}

theorem Setting.Meets.above (h : c.Meets base l) (args : List Value) :
    (c.above args.length).Meets base (l ++ args) :=
  ⟨h.outside, h.captured, by simp [Setting.above, h.height], h.below.trans (List.prefix_append _ _),
    h.exit⟩

theorem Setting.Meets.within (h : c.Meets base l) (henv : env.inner = []) :
    (c.within env).Meets base l :=
  ⟨henv, h.captured, h.height, h.below, h.exit⟩

/-- The body of a loop can be left with the values before the loop. -/
theorem Setting.Meets.inLoop (h : c.Meets base l) (breakTo continueTo : Nat) :
    (c.inLoop ⟨breakTo, continueTo, c.height⟩).Meets l l :=
  ⟨h.outside, h.captured, h.height, List.prefix_refl _, fun _ hx => Option.some.inj hx ▸ h.height⟩

/-- At the top level a name stands for a global or a builtin. -/
theorem Lexical.storage_outside {captured : List String} {name : String} {p : Place}
    (h : env.inner = []) (hp : env.place? captured name = some p) :
    p.storage = .globalSlot ∨ p.storage = .builtin := by
  simp only [Lexical.place?, h, Lexical.outside?] at hp
  split at hp
  · cases hp
    exact .inl rfl
  · cases hp
  · obtain ⟨index, -, rfl⟩ := Option.map_eq_some_iff.mp hp
    exact .inr rfl

theorem Lexical.storage_assignable {captured : List String} {name : String} {p : Place}
    (h : env.inner = []) (hp : env.place? captured name = some p)
    (ha : p.storage.assignable = true) : p.storage = .globalSlot := by
  rcases Lexical.storage_outside h hp with hs | hs
  · exact hs
  · rw [hs] at ha
    cases ha

theorem Lexical.storage_declare {n n' : Nat} {name : String} {p : Place} {env' : Lexical}
    (h : env.inner = []) (hd : env.declare n name = (p, env', n')) : p.storage = .globalSlot := by
  unfold Lexical.declare at hd
  split at hd
  · next place hr =>
    cases hd
    obtain ⟨hp, ha⟩ := Option.filter_eq_some_iff.mp hr
    exact Lexical.storage_assignable h hp ha
  · cases hd
    simp [Lexical.slot, h]

end Settings

section Results

variable {m : Machine} {st : Store} {f : Frame} {l : List Value}

namespace Eval

theorem Has.of_eq {α : Type} {x y : Eval α} {r : Except Fault Result} {after : α → List Value}
    (h : y.Has st r f l after) (hx : x st = y st) : x.Has st r f l after := by
  obtain ⟨hok, herror⟩ := h
  rw [← hx] at hok herror
  exact ⟨hok, herror⟩

theorem ofExcept_has (hm : m.nextStamp = st.nextStamp) (x : Except Fault Value) :
    (ofExcept x).Has st (x.map fun v => { pushed := some v, stamp := m.nextStamp }) f l
      fun v => l ++ [v] := by
  rw [hm]
  refine ⟨fun r hr => ?_, fun e he => ?_⟩
  · obtain ⟨v, rfl, rfl⟩ := Except.map_ok hr
    refine ⟨rfl, v, rfl, ?_⟩
    simp only [String.append_empty]
    rfl
  · cases x with
    | error e' =>
      cases he
      exact ⟨st.nextStamp, rfl⟩
    | ok v => cases he

theorem pure_has (hm : m.nextStamp = st.nextStamp) (v : Value) :
    (pure v : Eval Value).Has st (.ok { pushed := some v, stamp := m.nextStamp }) f l
      fun v => l ++ [v] :=
  ofExcept_has hm (.ok v)

theorem made_has (hm : m.nextStamp = st.nextStamp) (g : Nat → Value) :
    (do return g (← freshStamp) : Eval Value).Has st
      (.ok { pushed := some (g m.nextStamp), stamp := m.nextStamp + 1 }) f l fun v => l ++ [v] := by
  rw [hm]
  refine ⟨fun r hr => ?_, fun _ h => (by cases h)⟩
  cases hr
  refine ⟨rfl, _, rfl, ?_⟩
  simp only [String.append_empty]
  rfl

theorem throw_has (e : Fault) :
    (throw (.fault e) : Eval Value).Has st (.error e) f l fun v => l ++ [v] := by
  refine ⟨fun _ h => (by cases h), fun e' he => ?_⟩
  cases he
  exact ⟨st.nextStamp, rfl⟩

theorem call_has (hm : m.nextStamp = st.nextStamp) (callee : Value) (args : List Value) :
    (call callee args).Has st (m.computeCall callee args) f l fun v => l ++ [v] := by
  cases callee with
  | builtin index =>
    simp only [call, Machine.computeCall]
    cases Builtin.ofIndex? index with
    | none => exact throw_has _
    | some b =>
      rw [hm]
      simp only
      cases hr : b.apply st.nextStamp args with
      | error refusal =>
        refine ⟨fun _ h => (by cases h), fun e he => ?_⟩
        cases he
        refine ⟨st.nextStamp + 1, ?_⟩
        simp only [bind_apply, freshStamp, modifyGet_apply, hr]
        rfl
      | ok reply =>
        refine ⟨fun r h => ?_, fun _ h => (by cases h)⟩
        cases h
        refine ⟨rfl, reply.value, rfl, ?_⟩
        simp only [bind_apply, freshStamp, modifyGet_apply, hr]
        rfl
  | _ => exact throw_has _

end Eval

end Results

/-- The keys and values of a hash, as they lie on the stack. -/
def flattened (ps : List (Value × Value)) : List Value := ps.flatMap fun p => [p.1, p.2]

theorem pairUp_flattened (ps : List (Value × Value)) : Value.pairUp (flattened ps) = ps := by
  induction ps with
  | nil => rfl
  | cons p ps ih => exact congrArg (p :: ·) ih

section Instructions

variable {t : Text} {out : Option LoopExit} {base l args : List Value} {α : Type} {c : Setting}
  {s : Cursor} {span : Span} {i : Instruction} {p : Place} {v w : Value}

namespace Text.Follows

theorem item {n : Nat} {x : Eval α} {after : α → List Value} (hc : c.Meets base l)
    (hj : (c.above n).item s i span ∈ t.items) (hstraight : i.op.straight = true)
    (hn : args.length = n) (hpops : i.pops = n)
    (hx : ∀ m st, t.At m s.offset (l ++ args) st →
      x.Has st (m.compute (t.frame s.offset) i args) (t.frame s.offset) l after) :
    t.Follows out base s.offset (l ++ args) x (fun _ => (s.skip i.op).offset) after := by
  refine .instruction hj hstraight (hn.trans hpops.symm) ?_ hx
  change l.length + args.length = c.height + n
  rw [hc.height, hn]

theorem leaf {x : Eval α} {after : α → List Value} (hc : c.Meets base l)
    (hj : c.item s i span ∈ t.items) (hstraight : i.op.straight = true) (hpops : i.pops = 0)
    (hx : ∀ m st, t.At m s.offset l st →
      x.Has st (m.compute (t.frame s.offset) i []) (t.frame s.offset) l after) :
    t.Follows out base s.offset l x (fun _ => (s.skip i.op).offset) after := by
  have h : t.Follows out base s.offset (l ++ []) x (fun _ => (s.skip i.op).offset) after :=
    item hc (n := 0) hj hstraight rfl hpops (by rw [List.append_nil]; exact hx)
  rwa [List.append_nil] at h

theorem constant {k : Nat} (hc : c.Meets base l) (hj : c.item s ⟨.constant, [k]⟩ span ∈ t.items)
    (hk : t.pool[k]? = some v) :
    t.Follows out base s.offset l (Pure.pure v) (fun _ => (s.skip .constant).offset)
      fun v => l ++ [v] := by
  refine leaf hc hj rfl rfl fun m st hm => ?_
  simp only [Machine.compute, List.getElem?_cons_zero, Option.getD_some, hm.constants, hk]
  exact Eval.pure_has hm.stamp v

theorem bool {b : Bool} (hc : c.Meets base l)
    (hj : c.item s ⟨if b then .true else .false, []⟩ span ∈ t.items) :
    t.Follows out base s.offset l (Pure.pure (.bool b))
      (fun _ => (s.skip (if b then .true else .false)).offset) fun v => l ++ [v] := by
  cases b with
  | true => exact leaf hc hj rfl rfl fun _ _ hm => Eval.pure_has hm.stamp _
  | false => exact leaf hc hj rfl rfl fun _ _ hm => Eval.pure_has hm.stamp _

theorem null (hc : c.Meets base l) (hj : c.item s ⟨.null, []⟩ span ∈ t.items) :
    t.Follows out base s.offset l (Pure.pure .null) (fun _ => (s.skip .null).offset)
      fun v => l ++ [v] :=
  leaf hc hj rfl rfl fun _ _ hm => Eval.pure_has hm.stamp _

theorem load (hc : c.Meets base l) (hj : c.item s p.load span ∈ t.items)
    (hp : p.storage = .globalSlot ∨ p.storage = .builtin) (hlt : p.index < Storage.slotLimit) :
    t.Follows out base s.offset l (Eval.read p) (fun _ => (s.skip p.load.op).offset)
      fun v => l ++ [v] := by
  obtain ⟨storage, index⟩ := p
  rcases hp with rfl | rfl
  · refine leaf hc hj rfl rfl fun m st hm => ?_
    have hget : m.valueAt? (t.frame s.offset) ⟨.globalSlot, index⟩ = some (st.vars index) :=
      hm.global hj (.inl rfl) rfl hlt
    have hplace := Place.ofOperand_operand (p := ⟨.globalSlot, index⟩) (by simp) hlt
    simp only [Place.load, Machine.compute, List.getElem?_cons_zero, Option.getD_some, hplace, hget]
    exact (Eval.pure_has hm.stamp (st.vars index)).of_eq rfl
  · refine leaf hc hj rfl rfl fun m st hm => ?_
    have hplace := Place.ofOperand_operand (p := ⟨.builtin, index⟩) (by simp) hlt
    simp only [Place.load, Machine.compute, List.getElem?_cons_zero, Option.getD_some, hplace]
    exact Eval.pure_has hm.stamp _

theorem unary {op : UnaryOp} (hc : c.Meets base l)
    (hj : (c.above 1).item s ⟨.unary op, []⟩ span ∈ t.items) (v : Value) :
    t.Follows out base s.offset (l ++ [v]) (Eval.ofExcept (op.apply v))
      (fun _ => (s.skip (.unary op)).offset) fun v => l ++ [v] :=
  item hc hj rfl rfl rfl fun _ _ hm => Eval.ofExcept_has hm.stamp _

theorem binary {op : Operator} (hc : c.Meets base l)
    (hj : (c.above 2).item s ⟨.binary op, []⟩ span ∈ t.items) (v w : Value) :
    t.Follows out base s.offset (l ++ [v, w]) (Eval.ofExcept (op.apply v w))
      (fun _ => (s.skip (.binary op)).offset) fun v => l ++ [v] :=
  item hc hj rfl rfl rfl fun _ _ hm => Eval.ofExcept_has hm.stamp _

theorem index (hc : c.Meets base l) (hj : (c.above 2).item s ⟨.index, []⟩ span ∈ t.items)
    (v w : Value) :
    t.Follows out base s.offset (l ++ [v, w]) (Eval.ofExcept (v.index w))
      (fun _ => (s.skip .index).offset) fun v => l ++ [v] :=
  item hc hj rfl rfl rfl fun _ _ hm => Eval.ofExcept_has hm.stamp _

theorem array (hc : c.Meets base l) {n : Nat}
    (hj : (c.above n).item s ⟨.array, [n]⟩ span ∈ t.items) (vs : List Value) (hn : vs.length = n) :
    t.Follows out base s.offset (l ++ vs) (Eval.array vs) (fun _ => (s.skip .array).offset)
      fun v => l ++ [v] :=
  item hc hj rfl hn rfl fun _ _ hm => Eval.made_has hm.stamp fun stamp => .array stamp vs

theorem hash (hc : c.Meets base l) {n : Nat}
    (hj : (c.above n).item s ⟨.hash, [n]⟩ span ∈ t.items) (ps : List (Value × Value))
    (hn : (flattened ps).length = n) :
    t.Follows out base s.offset (l ++ flattened ps) (Eval.hash ps) (fun _ => (s.skip .hash).offset)
      fun v => l ++ [v] := by
  refine item hc hj rfl hn rfl fun m st hm => ?_
  simp only [Machine.compute, pairUp_flattened, Eval.hash]
  cases Entries.ofPairs [] ps with
  | error kind => exact Eval.throw_has _
  | ok entries => exact Eval.made_has hm.stamp fun stamp => .hash stamp entries

theorem call (hc : c.Meets base l) {n : Nat}
    (hj : (c.above (1 + n)).item s ⟨.call, [n]⟩ span ∈ t.items) (callee : Value) (vs : List Value)
    (hn : vs.length = n) :
    t.Follows out base s.offset (l ++ callee :: vs) (Eval.call callee vs)
      (fun _ => (s.skip .call).offset) fun v => l ++ [v] :=
  item hc hj rfl (by simp [hn, Nat.add_comm]) (Nat.add_comm n 1)
    fun _ _ hm => Eval.call_has hm.stamp callee vs

theorem set {index : Nat} (hc : c.Meets base l)
    (hj : (c.above 1).item s ⟨.set, [(Place.mk .globalSlot index).operand]⟩ span ∈ t.items)
    (hlt : index < Storage.slotLimit) (v : Value) :
    t.Follows out base s.offset (l ++ [v]) (Eval.assign ⟨.globalSlot, index⟩ v)
      (fun _ => (s.skip .set).offset) fun _ => l := by
  refine item hc hj rfl rfl rfl fun m st hm => ?_
  have hget : m.valueAt? (t.frame s.offset) ⟨.globalSlot, index⟩ = some (st.vars index) :=
    hm.global hj (.inr (.inl rfl)) rfl hlt
  have hwritable := Exec.Machine.writable_of_value hget
  have hplace := Place.ofOperand_operand (p := ⟨.globalSlot, index⟩) (by simp) hlt
  simp only [Machine.compute, List.getElem?_cons_zero, Option.getD_some, hplace, hwritable, if_true,
    hm.stamp]
  refine ⟨fun r hr => ?_, fun _ h => (by cases h)⟩
  cases hr
  refine ⟨rfl, (v.copy st.nextStamp).1, by simp, ?_⟩
  simp only [String.append_empty]
  rfl

theorem setElement {index : Nat} (hc : c.Meets base l)
    (hj : (c.above 2).item s ⟨.setElement, [(Place.mk .globalSlot index).operand]⟩ span ∈ t.items)
    (hlt : index < Storage.slotLimit) (i v : Value) :
    t.Follows out base s.offset (l ++ [i, v]) (Eval.assignElement ⟨.globalSlot, index⟩ i v)
      (fun _ => (s.skip .setElement).offset) fun v => l ++ [v] := by
  refine item hc hj rfl rfl rfl fun m st hm => ?_
  have hget : m.valueAt? (t.frame s.offset) ⟨.globalSlot, index⟩ = some (st.vars index) :=
    hm.global hj (.inr (.inr rfl)) rfl hlt
  have hplace := Place.ofOperand_operand (p := ⟨.globalSlot, index⟩) (by simp) hlt
  simp only [Machine.compute, List.getElem?_cons_zero, Option.getD_some, hplace, hget, hm.stamp]
  cases hu : (st.vars index).assignIndex (v.copy st.nextStamp).2 i (v.copy st.nextStamp).1 with
  | error e =>
    refine ⟨fun _ h => (by cases h), fun e' he => ?_⟩
    cases he
    refine ⟨(v.copy st.nextStamp).2 + 1, ?_⟩
    simp only [Eval.assignElement, Eval.copied, Eval.read, Eval.freshStamp, bind_apply,
      modifyGet_apply, get_apply, pure_apply, hu]
    rfl
  | ok updated =>
    refine ⟨fun r hr => ?_, fun _ h => (by cases h)⟩
    cases hr
    refine ⟨rfl, (v.copy st.nextStamp).1, rfl, ?_⟩
    simp only [Eval.assignElement, Eval.copied, Eval.read, Eval.freshStamp, bind_apply,
      modifyGet_apply, get_apply, pure_apply, hu, String.append_empty]
    rfl

end Text.Follows

end Instructions

section Control

variable {t : Text} {out : Option LoopExit} {base l : List Value} {c : Setting} {s : Cursor}
  {span : Span}

/-- The values that a loop has on the stack are dropped before it is left. -/
theorem Text.Goes.drops {n : Nat} {dropped : List Value} (hn : dropped.length = n)
    (h : c.drops s span n ⊆ t.items) : t.Goes s.offset (l ++ dropped) (s.offset + n) l := by
  induction n generalizing c s dropped with
  | zero =>
    obtain rfl := List.length_eq_zero_iff.mp hn
    rw [List.append_nil]
    exact .refl
  | succ n ih =>
    obtain ⟨rest, v, rfl⟩ : ∃ rest v, dropped = rest ++ [v] :=
      ⟨_, _, (List.dropLast_append_getLast (List.ne_nil_of_length_eq_add_one hn)).symm⟩
    obtain ⟨hpop, hrest⟩ := List.cons_subset.mp h
    have hlast : t.Goes s.offset (l ++ rest ++ [v]) (s.skip .pop).offset (l ++ rest) :=
      .pop hpop rfl
    have hoffset : (s.skip .pop).offset + n = s.offset + (n + 1) := by
      change s.offset + 1 + n = _
      omega
    rw [← List.append_assoc, ← hoffset]
    exact hlast.trans (ih (by simpa using hn) hrest)

theorem Text.Goes.exit {s₁ : Cursor} {x : LoopExit} {n target : Nat} (hc : c.Meets base l)
    (hx : c.loop = some x) (hh : c.height = x.height + n) (hs : s₁ = { s with offset := s.offset + n })
    (h : c.drops s span n ++ [{ c with height := x.height }.item s₁ ⟨.jump, [target]⟩ span] ⊆ t.items) :
    t.Goes s.offset l target base := by
  obtain ⟨hdrops, hjump⟩ := List.append_subset.mp h
  obtain ⟨dropped, rfl⟩ := hc.below
  have hlength : dropped.length = n := by
    have := hc.height
    have := hc.exit x hx
    rw [List.length_append] at *
    omega
  subst hs
  exact (Text.Goes.drops hlength hdrops).trans (.jump (hjump List.mem_cons_self) rfl)

namespace Text.Follows

theorem round {body : Eval Unit} {x : LoopExit} {inner next : Nat}
    (hbody : t.Follows (some x) l inner l body (fun _ => next) fun _ => l)
    (hnext : t.Goes next l x.continueTo l) :
    t.Follows out base inner l (Eval.round body) (fun b => if b then x.continueTo else x.breakTo)
      fun _ => l := by
  intro m st hm
  have h := hbody m st hm
  unfold Gives at h ⊢
  unfold Eval.round
  rcases hr : body st with ⟨e | _, st'⟩ <;> rw [hr] at h
  · cases e with
    | broke | continued =>
      obtain ⟨y, hy, hcomes⟩ := h
      cases hy
      exact hcomes
    | _ => exact h
  · obtain ⟨m', hsteps, hat⟩ := h
    exact (hnext m' st' hat).after hsteps

/-- The rounds of a loop, by induction on how many there may be. -/
theorem loop {guard : Eval Bool} {body update : Eval Unit} {start inner back stop : Nat}
    (hguard : t.Follows out base start l guard (fun b => if b then inner else stop) fun _ => l)
    (hround : t.Follows out base inner l (Eval.round body) (fun b => if b then back else stop)
      fun _ => l)
    (hupdate : t.Follows out base back l update (fun _ => start) fun _ => l) (fuel : Nat) :
    t.Follows out base start l (Eval.loop fuel guard body update) (fun _ => stop) fun _ => l := by
  induction fuel with
  | zero => exact fun _ _ _ => trivial
  | succ fuel ih =>
    refine hguard.bind fun again => ?_
    cases again with
    | false => exact .pure .refl
    | true =>
      refine hround.bind fun again => ?_
      cases again with
      | false => exact .pure .refl
      | true => exact hupdate.bind fun _ => ih

end Text.Follows

end Control

end StackScript
