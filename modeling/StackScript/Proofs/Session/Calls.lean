import StackScript.Proofs.Machine.Inversion
import StackScript.Proofs.Session.Entries

/-! # Calls and returns

A call leaves what lies below its callee as it was: when it returns, the callee and the arguments have
been replaced by the result, and the calls below are where they were, the caller behind its call.
-/

namespace StackScript

inductive Machine.StepsAbove (n : Nat) : Machine → Machine → Prop
  | refl {m : Machine} : n < m.frames.length → StepsAbove n m m
  | step {m m₁ m₂ : Machine} : n < m.frames.length → Exec.step m = (.ok (), m₁) →
      StepsAbove n m₁ m₂ → StepsAbove n m m₂

structure Machine.AtCall (m : Machine) (f : Frame) (fs : List Frame) (below : List Value)
    (callee : Value) (args : List Value) (next : Nat) : Prop where
  frames : m.frames = f :: fs
  decode : f.body.code.decode f.ip = .ok (⟨.call, [args.length]⟩, next)
  live : m.stack.live = below ++ callee :: args

/-- Until the call that was entered above `below` returns, nothing of `below` and of the calls below it
changes; then its result alone lies on top. -/
structure Machine.Entered (m : Machine) (below : List Value) (callers : List Frame) : Prop where
  active : callers.length < m.frames.length
  keeps : ∀ m', m.StepsAbove callers.length m' →
    below <+: m'.stack.live ∧ ∃ inner, inner ≠ [] ∧ m'.frames = inner ++ callers
  returns : ∀ m' m'', m.StepsAbove callers.length m' → Exec.step m' = (.ok (), m'') →
    m''.frames.length ≤ callers.length → ∃ g result, m'.frames = g :: callers ∧
      m'.Yields g result ∧ m''.frames = callers ∧ m''.stack.live = below ++ [result]

/-- What a call that succeeds leads to. -/
def Machine.Called (m : Machine) (below : List Value) (callers : List Frame) (args : List Value)
    (m' : Machine) : Value → Prop
  | .closure _ _ _ => m'.Entered below callers
  | .builtin index => ∃ b reply, Builtin.ofIndex? index = some b ∧
      b.apply m.nextStamp args = .ok reply ∧ m'.frames = callers ∧
      m'.stack.live = below ++ [reply.value]
  | _ => False

/-- The calls above `callers` use only what lies above `below`. -/
structure Machine.Above (m : Machine) (below : List Value) (callers : List Frame) : Prop where
  prefixed : below <+: m.stack.live
  frames : ∃ inner g, m.frames = inner ++ g :: callers ∧ g.base = below.length + 1 ∧
    ∀ f ∈ inner, below.length < f.base

section Above

variable {m m' : Machine} {w : World} {below : List Value} {callers : List Frame}

theorem Machine.Above.lt_base {f : Frame} {fs : List Frame} (h : m.Above below callers)
    (hf : m.frames = f :: fs) : below.length < f.base := by
  obtain ⟨inner, g, hframes, hbase, hinner⟩ := h.frames
  rw [hf] at hframes
  cases inner with
  | nil =>
    cases hframes
    omega
  | cons f' inner =>
    cases hframes
    exact hinner f List.mem_cons_self

theorem Machine.Above.goto {f : Frame} {fs : List Frame} {t : Nat} (h : m.Above below callers)
    (hf : m.frames = f :: fs) (hf' : m'.frames = { f with ip := t } :: fs)
    (hl : below <+: m'.stack.live) : m'.Above below callers := by
  obtain ⟨inner, g, hframes, hbase, hinner⟩ := h.frames
  rw [hf] at hframes
  refine ⟨hl, ?_⟩
  cases inner with
  | nil =>
    cases hframes
    exact ⟨[], { f with ip := t }, hf', hbase, fun _ hmem => by cases hmem⟩
  | cons f' inner =>
    cases hframes
    refine ⟨{ f with ip := t } :: inner, g, hf', hbase, fun f' hmem => ?_⟩
    rcases List.mem_cons.mp hmem with rfl | hmem
    · exact hinner f List.mem_cons_self
    · exact hinner f' (List.mem_cons_of_mem _ hmem)

theorem Machine.Faces.below_extends {f : Frame} {fs : List Frame} {x : Extent} {j : Item}
    {l args : List Value} (hfaces : m.Faces w f fs x j l args) (h : below <+: m.stack.live)
    (hbase : below.length < f.base) : below <+: l := by
  have hl := hfaces.below
  exact List.prefix_of_prefix_length_le (hfaces.live ▸ h) (List.prefix_append l args) (by omega)

/-- Writing a local changes nothing below the locals. -/
theorem Result.prefix_onLocals {r : Result} {f : Frame} {l : List Value} (h : below <+: l)
    (hbase : below.length < f.base) : below <+: r.onLocals f l := by
  unfold Result.onLocals
  split
  · next index v _ =>
    obtain ⟨rest, rfl⟩ := h
    rw [List.set_append_right _ _ (by omega)]
    exact List.prefix_append _ _
  · exact h

/-- A step that leaves more calls than `callers` active stays above. -/
theorem Machine.Above.takes (h : m.Above below callers) (ht : m.Takes w m')
    (hdepth : callers.length < m'.frames.length) : m'.Above below callers := by
  cases ht with
  | @computes f fs x j l args r hfaces hs hc hr hb =>
    have hbase := h.lt_base hfaces.frames
    obtain ⟨s, hholds, rfl⟩ := hb
    refine h.goto hfaces.frames rfl ?_
    change below <+: s.live
    rw [hholds.live]
    exact (Result.prefix_onLocals (hfaces.below_extends h.prefixed hbase) hbase).trans
      (List.prefix_append _ _)
  | @jumps f fs x j l args t hfaces ho htarget hm =>
    have hbase := h.lt_base hfaces.frames
    obtain ⟨s, hholds, rfl⟩ := hm
    refine h.goto hfaces.frames rfl ?_
    change below <+: s.live
    rw [hholds.live]
    exact hfaces.below_extends h.prefixed hbase
  | @calls f fs x j l args stamp body free s hfaces ho hp hholds hm =>
    subst hm
    have hbase := h.lt_base hfaces.frames
    have hbelow := hfaces.below
    refine ⟨?_, ?_⟩
    · change below <+: s.live
      rw [hholds.live, ← hfaces.live]
      exact h.prefixed.trans (List.prefix_append _ _)
    · have hcaller : (m.fetched f fs (f.ip + j.op.length)).Above below callers :=
        h.goto hfaces.frames rfl h.prefixed
      obtain ⟨inner, g, hframes, hg, hinner⟩ := hcaller.frames
      refine ⟨⟨stamp, body, free, 0, l.length + 1⟩ :: inner, g, ?_, hg, ?_⟩
      · exact congrArg (List.cons _) hframes
      · intro f' hmem
        rcases List.mem_cons.mp hmem with rfl | hmem
        · change below.length < l.length + 1
          omega
        · exact hinner f' hmem
  | @returns f g fs result s executed hf hone hy hholds hm =>
    subst hm
    have hbase := h.lt_base hf
    obtain ⟨inner, g', hframes, hg, hinner⟩ := h.frames
    rw [hf] at hframes
    refine ⟨?_, ?_⟩
    · change below <+: s.live
      rw [hholds.live]
      refine List.IsPrefix.trans ?_ (List.prefix_append _ _)
      refine List.prefix_of_prefix_length_le h.prefixed ⟨_, List.take_append_drop _ _⟩ ?_
      have := h.prefixed.length_le
      rw [List.length_take]
      omega
    · cases inner with
      | nil =>
        cases hframes
        simp at hdepth
      | cons f' inner =>
        simp only [List.cons_append, List.cons.injEq] at hframes
        exact ⟨inner, g', hframes.2, hg, fun f hmem => hinner f (List.mem_cons_of_mem _ hmem)⟩
  | ends hf hy hholds hm =>
    subst hm
    simp at hdepth

/-- A step that does not is the return of the call entered above `below`. -/
theorem Machine.Above.returns (h : m.Above below callers) (hne : callers ≠ []) (ht : m.Takes w m')
    (hdepth : m'.frames.length ≤ callers.length) : ∃ g result, m.frames = g :: callers ∧
      m.Yields g result ∧ m'.frames = callers ∧ m'.stack.live = below ++ [result] := by
  obtain ⟨inner, g', hframes, hg, -⟩ := h.frames
  have hlength := congrArg List.length hframes
  simp only [List.length_append, List.length_cons] at hlength
  cases ht with
  | computes hfaces hs hc hr hb =>
    obtain ⟨s, -, rfl⟩ := hb
    rw [hfaces.frames] at hlength
    simp only [Machine.fetched, List.length_cons] at hlength hdepth
    omega
  | jumps hfaces ho htarget hm =>
    obtain ⟨s, -, rfl⟩ := hm
    rw [hfaces.frames] at hlength
    simp only [Machine.fetched, List.length_cons] at hlength hdepth
    omega
  | calls hfaces ho hp hholds hm =>
    subst hm
    rw [hfaces.frames] at hlength
    simp only [List.length_cons] at hlength hdepth
    omega
  | @returns f g fs result s executed hf hone hy hholds hm =>
    subst hm
    rw [hf] at hframes hlength
    simp only [List.length_cons] at hlength hdepth
    obtain rfl : inner = [] := List.length_eq_zero_iff.mp (by omega)
    cases hframes
    refine ⟨g', result, hf, hy, rfl, ?_⟩
    change s.live = below ++ [result]
    obtain ⟨rest, hrest⟩ := h.prefixed
    rw [hholds.live, hg, Nat.add_sub_cancel, ← hrest, List.take_left]
  | ends hf hy hholds hm =>
    rw [hf] at hlength
    have := List.length_pos_iff.mpr hne
    simp only [List.length_cons, List.length_nil] at hlength
    omega

end Above

section Calls

variable {m m₁ m₂ : Machine} {w : World} {f : Frame} {fs : List Frame} {below args : List Value}
  {callee : Value} {next : Nat} {callers : List Frame}

theorem Machine.StepsAbove.invariant {n : Nat} {I : Machine → Prop} (h : m.StepsAbove n m₁)
    (hm : I m) (hstep : ∀ m m', I m → n < m.frames.length → Exec.step m = (.ok (), m') →
      n < m'.frames.length → I m') : I m₁ ∧ n < m₁.frames.length := by
  induction h with
  | refl hn => exact ⟨hm, hn⟩
  | @step m m₁ m₂ hn hs hrest ih =>
    have hn₁ : n < m₁.frames.length := by
      cases hrest with
      | refl hn₁ => exact hn₁
      | step hn₁ => exact hn₁
    exact ih (hstep m m₁ hm hn hs hn₁)

theorem Machine.Above.entered (h : m.Above below callers) (hs : m.Sound w)
    (hw : ∀ stamp body free, w.known stamp body free) (hne : callers ≠ []) :
    m.Entered below callers := by
  have hnonempty {m : Machine} (hn : callers.length < m.frames.length) : m.frames ≠ [] := by
    rintro hnil
    simp [hnil] at hn
  have hrun {m' : Machine} (hsteps : m.StepsAbove callers.length m') :
      (m'.Sound w ∧ m'.Above below callers) ∧ callers.length < m'.frames.length := by
    refine hsteps.invariant (I := fun m => m.Sound w ∧ m.Above below callers) ⟨hs, h⟩ ?_
    rintro m₁ m₂ ⟨hs₁, h₁⟩ hn hstep hn'
    exact ⟨((hs₁.step (hnonempty hn) (hw _)).of_ok hstep).1,
      h₁.takes ((hs₁.takes (hnonempty hn)).of_ok hstep) hn'⟩
  constructor
  case active =>
    obtain ⟨inner, g, hframes, -⟩ := h.frames
    rw [hframes, List.length_append, List.length_cons]
    omega
  case keeps =>
    intro m' hsteps
    obtain ⟨⟨-, h'⟩, -⟩ := hrun hsteps
    obtain ⟨inner, g, hframes, -⟩ := h'.frames
    refine ⟨h'.prefixed, inner ++ [g], by simp, by simp [hframes]⟩
  case returns =>
    intro m' m'' hsteps hstep hdepth
    obtain ⟨⟨hs', h'⟩, hn⟩ := hrun hsteps
    exact h'.returns hne ((hs'.takes (hnonempty hn)).of_ok hstep) hdepth

theorem Machine.AtCall.split {g : Frame} {gs : List Frame} {x : Extent} {j : Item}
    {l operands : List Value} (h : m.AtCall f fs below callee args next)
    (hfaces : m.Faces w g gs x j l operands) :
    g = f ∧ gs = fs ∧ j.op = .call ∧ f.ip + j.op.length = next ∧ l = below ∧
      operands = callee :: args := by
  have hframes := hfaces.frames
  rw [h.frames] at hframes
  cases hframes
  have hdecode := hfaces.decode
  rw [h.decode] at hdecode
  obtain ⟨hinstr, hnext⟩ := Prod.mk.inj (Except.ok.inj hdecode)
  have ho : j.op = .call := congrArg Instruction.op hinstr.symm
  have hpops : operands.length = (callee :: args).length := by
    rw [hfaces.pops, ← hinstr]
    simp [Instruction.pops]
  obtain ⟨hl, hargs⟩ := List.append_inj' (hfaces.live.symm.trans h.live) hpops
  exact ⟨rfl, rfl, ho, hnext.symm, hl, hargs⟩

theorem Machine.AtCall.not_yields (h : m.AtCall f fs below callee args next) (result : Value) :
    ¬ m.Yields f result := by
  rintro (⟨hip, -⟩ | ⟨i, next', hdecode, hop⟩)
  · have := Code.lt_size_of_decode h.decode
    omega
  · rw [h.decode] at hdecode
    cases hdecode
    rcases hop with ⟨ho, -⟩ | ⟨ho, -⟩ <;> cases ho

theorem Machine.AtCall.called (h : m.AtCall f fs below callee args next) (hs : m.Sound w)
    (hw : ∀ stamp body free, w.known stamp body free) (hstep : Exec.step m = (.ok (), m₁)) :
    m.Called below ({ f with ip := next } :: fs) args m₁ callee := by
  have hne : m.frames ≠ [] := by simp [h.frames]
  have hs₁ := ((hs.step hne (hw _)).of_ok hstep).1
  cases (hs.takes hne).of_ok hstep with
  | @computes g gs x j l operands r hfaces hstraight hplain hr hb =>
    obtain ⟨rfl, rfl, ho, rfl, rfl, rfl⟩ := h.split hfaces
    have hcall : m.computeCall callee args = .ok r := by
      simpa only [Machine.compute, ho] using hr
    obtain ⟨index, b, reply, rfl, hb', hreply, rfl⟩ := Machine.computeCall_ok hcall
    obtain ⟨s, hholds, rfl⟩ := hb
    exact ⟨b, reply, hb', hreply, rfl, hholds.live⟩
  | jumps hfaces ho htarget hm =>
    have hcall := (h.split hfaces).2.2.1
    rcases ho with ho | ho <;> rw [ho] at hcall <;> cases hcall
  | @calls g gs x j l operands stamp body free s hfaces ho hp hholds hm =>
    obtain ⟨rfl, rfl, -, rfl, rfl, hargs⟩ := h.split hfaces
    cases hargs
    subst hm
    refine Machine.Above.entered (w := w) ⟨?_, [], _, rfl, rfl, fun _ hmem => by cases hmem⟩ hs₁ hw
      (List.cons_ne_nil _ _)
    change l <+: s.live
    rw [hholds.live, List.append_assoc]
    exact List.prefix_append _ _
  | returns hf hone hy hholds hm =>
    rw [h.frames] at hf
    cases hf
    exact absurd hy (h.not_yields _)
  | ends hf hy hholds hm =>
    rw [h.frames] at hf
    cases hf
    exact absurd hy (h.not_yields _)

end Calls

/-- Whatever a session has evaluated before, a call that succeeds in a run of a compiled program
replaces its callee and arguments by its result: a builtin at once, a closure when it returns, and
until then nothing below the callee changes. -/
theorem Session.Reachable.calls_framed {s : Session} (hs : s.Reachable) {program : Program}
    {name : String} {o : Object} {limits : Limits} {m₀ m m₁ : Machine}
    (h : s.Begins program name o limits m₀) (hsteps : m₀.Steps m) {f : Frame} {fs : List Frame}
    {below args : List Value} {callee : Value} {next : Nat}
    (hcall : m.AtCall f fs below callee args next) (hstep : Exec.step m = (.ok (), m₁)) :
    m.Called below ({ f with ip := next } :: fs) args m₁ callee := by
  obtain ⟨v, hsound⟩ := hs.sound
  obtain ⟨hm, -⟩ := hsound.begins h (fun _ _ _ => True) trivial fun _ _ _ _ => trivial
  obtain ⟨hm', -⟩ := hm.steps hsteps fun _ _ _ _ => trivial
  exact hcall.called hm' (fun _ _ _ => trivial) hstep

def Machine.entersAbove (n : Int64) (m : Machine) : Bool :=
  match m.frames, m.stack.live, (Exec.step m).1 with
  | f :: _, [.int i, .closure _ _ _], .ok () =>
    i == n && decide (f.body.code.decode f.ip = .ok (⟨.call, [0]⟩, f.ip + 3))
  | _, _, _ => false

theorem Machine.atCall_of_entersAbove {m : Machine} {n : Int64} (h : m.entersAbove n = true) :
    ∃ m₁ f fs stamp body free next, m.AtCall f fs [.int n] (.closure stamp body free) [] next ∧
      Exec.step m = (.ok (), m₁) := by
  unfold Machine.entersAbove at h
  split at h
  · next f fs i stamp body free hframes hlive hok =>
    simp only [Bool.and_eq_true, beq_iff_eq, decide_eq_true_eq] at h
    obtain ⟨rfl, hdecode⟩ := h
    exact ⟨_, f, fs, stamp, body, free, _, ⟨hframes, hdecode, hlive⟩, Prod.ext hok rfl⟩
  · cases h

open StackScript.Stmt StackScript.Expr in
/-- A call that returns out of a loop, with operands of the caller and of the loop pending. -/
theorem Session.calls_framed_out_of_loop :
    let s : Session := { limits := {} }
    let leave : Expr := cond (bool true .nowhere)
      (.mk [ret (some (int 7 .nowhere)) .nowhere] .nowhere) none .nowhere
    let body : Block := .mk [whileLoop (bool true .nowhere)
      (.mk [expr (array [int 2 .nowhere, leave] .nowhere) .nowhere] .nowhere) .nowhere] .nowhere
    let program : Program := ⟨[expr (array [int 1 .nowhere,
      call (function none [] body .nowhere) [] .nowhere] .nowhere) .nowhere]⟩
    s.Reachable ∧ ∃ o m₀ m m₁ f fs stamp f' free next,
      s.Begins program "call" o ⟨8, 2, 1, none⟩ m₀ ∧ m₀.Steps m ∧
      m.AtCall f fs [.int 1] (.closure stamp f' free) [] next ∧
      Exec.step m = (.ok (), m₁) ∧ m₁.Entered [.int 1] ({ f with ip := next } :: fs) := by
  intro s leave body program
  have hs : s.Reachable := .start {}
  have hrun : (s.begin? program "call" ⟨8, 2, 1, none⟩).any
      (fun b => b.2.reaches 2 (Machine.entersAbove 1)) = true := by decide +kernel
  clear_value program
  obtain ⟨⟨o, m₀⟩, hbegin, hreaches⟩ := (Option.any_eq_true ..).mp hrun
  have hbegins := Session.begins_of_begin? hbegin
  obtain ⟨m, hsteps, henters⟩ := Machine.steps_of_reaches hreaches
  obtain ⟨m₁, f, fs, stamp, f', free, next, hcall, hstep⟩ := Machine.atCall_of_entersAbove henters
  exact ⟨hs, o, m₀, m, m₁, f, fs, stamp, f', free, next, hbegins, hsteps, hcall, hstep,
    hs.calls_framed hbegins hsteps hcall hstep⟩

end StackScript
