import StackScript.Proofs.Machine.Discipline

/-! # Steps keep the discipline

Each instruction of a listing keeps the discipline or raises a fault of the program. So no run of
compiled code goes wrong.
-/

namespace StackScript

/-- A machine about to execute the instruction `j` of its innermost call, with the values `l` below
the operands `args`. -/
structure Machine.Faces (m : Machine) (w : World) (f : Frame) (fs : List Frame) (x : Extent)
    (j : Item) (l args : List Value) : Prop where
  frames : m.frames = f :: fs
  position : f.At w.pool m.stack.live.length (m.Loaded f)
  framed : Framed w m.nextStamp f fs
  runs : ∃ is final, f.Runs w m.nextStamp is x final ∧ j ∈ is
  offset : j.offset = f.ip
  live : m.stack.live = l ++ args
  pops : args.length = j.pops
  below : f.base + f.body.locals ≤ l.length

/-- The innermost call was at an instruction, and it is still active. -/
def Machine.Stops (m m' : Machine) : Prop :=
  ∃ f fs ip, m.frames = f :: fs ∧ f.ip < f.body.code.size ∧ m'.frames = { f with ip := ip } :: fs

/-- What a fault leaves: it is one of the program, the globals are unchanged, and the call that raised
it is the innermost one. -/
def Machine.Fails (m : Machine) (w : World) (e : Fault) (m' : Machine) : Prop :=
  e.Proper (m.globals.size < w.globals) ∧ m'.globals = m.globals ∧ m.nextStamp ≤ m'.nextStamp ∧
    m.Stops m'

/-- What a step leaves: the discipline, as many globals, and no stamp to be given again. -/
def Machine.Keeps (m : Machine) (w : World) (m' : Machine) : Prop :=
  m'.Sound w ∧ m'.globals.size = m.globals.size ∧ m.nextStamp ≤ m'.nextStamp

theorem Expr.constant?_all {e : Expr} {v : Value} {P : Value → Prop} (h : e.constant? = some v) :
    v.All P := by
  cases e with
  | int | decimal | str =>
    cases h
    constructor
  | _ => cases h

section Facing

variable {m m' : Machine} {w : World} {f : Frame} {fs : List Frame} {x : Extent} {j : Item}
  {l args : List Value}

/-- At the end of a body there are the operands that its listing ends with. -/
theorem Listed.height_at_end {is : List Item} {final height : Nat} {loaded : List Place}
    (hl : Listed w.pool f.body is x final) (hip : f.ip = f.body.code.size)
    (h : Stands is f.body.code.size final f.ip height loaded) : height = final := by
  rcases h with ⟨i, hi, ho, -⟩ | ⟨-, hheight, -⟩
  · have := (hl.flows.tiled.bounds hi).2
    have := i.op.length_pos
    omega
  · exact hheight

theorem Machine.Sound.faces (h : m.Sound w) (hf : m.frames = f :: fs) :
    (∃ x j l args, m.Faces w f fs x j l args) ∨
      f.ip = f.body.code.size ∧ f.base ≤ m.stack.live.length := by
  obtain ⟨hat, hframed⟩ := h.frames f fs hf
  obtain ⟨is, x, final, hruns⟩ := hframed.runs
  obtain ⟨height, loaded, hsp, ⟨j, hj, ho, rfl, -⟩ | ⟨hip, rfl, -⟩, -⟩ := hat is x final hruns.listed
  · have hpops := (hruns.listed.flows.continues j hj).pops
    have hsplit : m.stack.live = m.stack.live.take (m.stack.live.length - j.pops) ++
        m.stack.live.drop (m.stack.live.length - j.pops) := (List.take_append_drop ..).symm
    refine .inl ⟨x, j, _, _, hf, hat, hframed, ⟨is, final, hruns, hj⟩, ho, hsplit, ?_, ?_⟩
    · rw [List.length_drop]
      omega
    · rw [List.length_take]
      omega
  · exact .inr ⟨hip, by omega⟩

/-- A call is left for its caller, which finds the result; or the program ends. -/
theorem Framed.leave {n : Nat} (hf : m.frames = f :: fs) (hframed : Framed w m.nextStamp f fs)
    (hconstants : m.constants = w.pool) (hstamps : firstStamp ≤ m.nextStamp)
    (hglobals : ∀ v ∈ m.globals, v.All (w.Callable m.nextStamp))
    (hs : m.stack.Holds n l) (hn : 0 < n) (hl : ∀ v ∈ l, v.All (w.Callable m.nextStamp))
    (hbase : f.base ≤ l.length) (result : Option Value)
    (hresult : (result.getD .null).All (w.Callable m.nextStamp))
    (hend : fs = [] → result = none → l.length ≤ 1) :
    Gives (Exec.leave result) m (fun _ m' => m.Keeps w m') (fun _ _ => False) := by
  cases fs with
  | nil =>
    have hended {s : Stack} (hs : s.Holds n []) :
        m.Keeps w { m with stack := s, frames := [] } := by
      refine ⟨⟨hconstants, hs.capacity ▸ hn, hstamps, ?_, hglobals, fun _ => hs.live, nofun⟩, rfl,
        Nat.le_refl _⟩
      intro v hv
      change v ∈ s.live at hv
      simp [hs.live] at hv
    cases result with
    | none =>
      refine (Exec.leave_end_gives hf hs (hend rfl rfl)).mono ?_ fun _ _ he => he
      rintro _ _ ⟨s, hs', -, rfl⟩
      exact hended hs'
    | some v =>
      refine (Exec.leave_main_gives hf hs hn v).mono ?_ fun _ _ he => he
      rintro _ _ ⟨s, hs', -, rfl⟩
      exact hended hs'
  | cons g fs =>
    obtain ⟨hone, -, hat, hrest⟩ := hframed
    refine (Exec.leave_gives hf (List.cons_ne_nil _ _) hs hone hbase result).mono ?_ fun _ _ he => he
    rintro _ _ ⟨s, hs', rfl⟩
    refine ⟨⟨hconstants, hs'.capacity ▸ hn, hstamps, ?_, hglobals, nofun, ?_⟩, rfl, Nat.le_refl _⟩
    · intro v hv
      change v ∈ s.live at hv
      rw [hs'.live] at hv
      rcases List.mem_append.mp hv with hv | hv
      · exact hl v (List.mem_of_mem_take hv)
      · exact List.mem_singleton.mp hv ▸ hresult
    · intro g' gs hg
      cases hg
      have hlength : s.live.length = f.base := by
        rw [hs'.live, List.length_append, List.length_take]
        simp only [List.length_cons, List.length_nil]
        omega
      refine ⟨?_, hrest⟩
      change g.At w.pool s.live.length _
      rw [hlength]
      exact hat.mono fun loaded hloaded => hloaded ▸ Machine.loaded_nil _ _

namespace Machine.Faces

variable (h : m.Faces w f fs x j l args)
include h

theorem ip_lt : f.ip < f.body.code.size := by
  obtain ⟨is, final, hruns, hj⟩ := h.runs
  have := (hruns.listed.flows.tiled.bounds hj).2
  have := j.op.length_pos
  have := h.offset
  omega

theorem decode : f.body.code.decode f.ip = .ok (j.toInstruction, f.ip + j.op.length) := by
  obtain ⟨is, final, hruns, hj⟩ := h.runs
  have hdecode := hruns.listed.decode hj
  rwa [h.offset] at hdecode

theorem sound : j.Sound w.pool x := by
  obtain ⟨is, final, hruns, hj⟩ := h.runs
  exact hruns.listed.sound j hj

theorem locals : x.locals = f.body.locals := by
  obtain ⟨is, final, hruns, hj⟩ := h.runs
  exact hruns.listed.locals

theorem stops {ip : Nat} (hf : m'.frames = { f with ip := ip } :: fs) : m.Stops m' :=
  ⟨f, fs, ip, h.frames, h.ip_lt, hf⟩

theorem step_gives {Q : Unit → Machine → Prop}
    (hx : Gives (Exec.execute j.op (j.operands[0]?.getD 0) (j.operands[1]?.getD 0))
      (m.fetched f fs (f.ip + j.op.length)) Q (m.Fails w)) : Gives Exec.step m Q (m.Fails w) := by
  refine Exec.step_gives h.frames h.ip_lt h.decode (fun budget _ => ?_) hx
  exact ⟨.of_plain rfl rfl, rfl, Nat.le_refl _, h.stops h.frames⟩

/-- Control goes to a target of the instruction, in the same call. -/
theorem goto {t : Nat} (hs : m.Sound w) (ht : t ∈ j.targets)
    (hframes : m'.frames = { f with ip := t } :: fs) (hconstants : m'.constants = m.constants)
    (hroom : 0 < m'.stack.capacity) (hstamp : m.nextStamp ≤ m'.nextStamp)
    (hlive : m'.stack.live.length = l.length + j.pushes)
    (hstack : ∀ v ∈ m'.stack.live, v.All (w.Callable m'.nextStamp))
    (hglobals : ∀ v ∈ m'.globals, v.All (w.Callable m'.nextStamp))
    (hload : ∀ loaded (p : Place), p.index < Storage.slotLimit → j.toInstruction = p.load →
      m.Loaded f loaded → m'.Loaded f (loaded ++ [p])) : m'.Sound w := by
  refine ⟨hconstants.trans hs.constants, hroom, Nat.le_trans hs.stamps hstamp, hstack, hglobals,
    fun he => by simp [he] at hframes, ?_⟩
  intro g gs hg
  rw [hframes] at hg
  cases hg
  refine ⟨?_, (h.framed.mono hstamp).goto t⟩
  refine h.position.advance h.ip_lt h.decode (fun k hk ho => ?_) ?_ (m'.loaded_nil _) hload
  · have htargets : k.targets = j.targets := by
      simp only [Item.targets, hk, ho, h.offset]
    rwa [htargets]
  · have hlength := congrArg List.length h.live
    rw [List.length_append, h.pops] at hlength
    omega

theorem computes (hs : m.Sound w) (hstraight : j.op.straight = true)
    (hc : j.op = .call → ∀ stamp body free, args.head? ≠ some (.closure stamp body free)) :
    Gives Exec.step m (fun _ m' => ∃ r, m.compute f j.toInstruction args = .ok r ∧
      (m.fetched f fs (f.ip + j.op.length)).Becomes f m.stack.capacity l r m') (m.Fails w) := by
  have hsound : j.Sound m.constants x := hs.constants ▸ h.sound
  have hholds : m.stack.Holds m.stack.capacity (l ++ args) := ⟨h.live, rfl⟩
  have hcallable : ∀ v ∈ args, v.All (w.Callable m.nextStamp) := fun v hv =>
    hs.stack v (by rw [h.live]; exact List.mem_append_right l hv)
  obtain ⟨is, final, hruns, hj⟩ := h.runs
  refine h.step_gives ((Exec.execute_computes (m := m.fetched f fs (f.ip + j.op.length))
    (f := { f with ip := f.ip + j.op.length }) rfl hholds h.pops hsound ?_ hstraight hc).mono ?_ ?_)
  · rw [h.locals]
    exact h.below
  · rintro _ m' ⟨r, hr, hb⟩
    exact ⟨r, hr, hb⟩
  · rintro e m' ⟨⟨s, stamp, hstamp, rfl⟩, he | ⟨rfl, -⟩⟩
    · refine ⟨?_, rfl, hstamp, h.stops rfl⟩
      rw [← hruns.globals]
      refine Machine.compute_proper (m := m) (f := f) hsound h.pops ?_ hruns.captured
        ?_ he
      · have := h.below
        rw [h.locals, h.live, List.length_append]
        omega
      · intro index hindex
        cases hcallable _ (List.mem_of_head? hindex) with
        | builtin hb => exact hb
    · exact ⟨.of_plain rfl rfl, rfl, hstamp, h.stops rfl⟩

theorem value_all {p : Place} {v : Value} (hs : m.Sound w) (hp : p.Within x) (hself : p.storage ≠ .self)
    (hv : m.valueAt? f p = some v) : v.All (w.Callable m.nextStamp) := by
  obtain ⟨is, final, hruns, -⟩ := h.runs
  obtain ⟨storage, index⟩ := p
  cases storage with
  | globalSlot => exact hs.globals v (Array.mem_of_getElem? hv)
  | localSlot => exact hs.stack v (List.mem_of_getElem? hv)
  | builtin =>
    cases hv
    exact .builtin hp
  | captured => exact hruns.free v (List.mem_of_getElem? hv)
  | self => exact absurd rfl hself

/-- A closure that is made has a listed body and as many values as that reads. -/
theorem closure_callable {body : Function} {next : Nat} (hs : m.Sound w) (hnext : m.nextStamp < next)
    (ho : j.op = .closure) (hb : w.pool[j.operands[0]?.getD 0]? = some (.function body))
    (hnew : w.known m.nextStamp body args) :
    w.Callable next (.closure m.nextStamp body args) := by
  obtain ⟨is, final, hruns, -⟩ := h.runs
  obtain ⟨literal, hcloses⟩ := h.sound.closes ho
  obtain ⟨k, first, bodySpan, g, js, s, hoperands, -, hg, hcode⟩ := hcloses.body
  have hk : j.operands[0]?.getD 0 = k := by rw [hoperands]; rfl
  obtain rfl : g = body := by
    rw [hk, hg] at hb
    cases hb
    rfl
  refine ⟨hs.stamps, hnext, hnew, js, literal, ⟨hruns.globals ▸ hcloses.below, first, bodySpan, s, hcode⟩,
    ?_⟩
  rw [h.pops]
  simp [Instruction.pops, ho, hoperands]

theorem supplies {r : Result} (hs : m.Sound w) (hr : m.compute f j.toInstruction args = .ok r)
    (hnew : j.op = .closure → ∀ body, m.constants[j.operands[0]?.getD 0]? = some (.function body) →
      w.known m.nextStamp body args) :
    m.Supplies f j.toInstruction args (w.Callable (max m.nextStamp r.stamp)) := by
  have hsound := h.sound
  have hmono {v : Value} (hv : v.All (w.Callable m.nextStamp)) :
      v.All (w.Callable (max m.nextStamp r.stamp)) := World.all_mono hv (Nat.le_max_left ..)
  obtain ⟨is, final, hruns, -⟩ := h.runs
  constructor
  case operands =>
    intro v hv
    exact hmono (hs.stack v (by rw [h.live]; exact List.mem_append_right l hv))
  case constant =>
    intro ho v hv
    rw [hs.constants] at hv
    obtain ⟨k, u, hk, -, hu, e, he⟩ : ∃ k u, j.operands = [k] ∧ k < x.constants ∧
        w.pool[k]? = some u ∧ ∃ e : Expr, e.constant? = some u := by
      simpa only [Item.Sound, ho] using hsound
    simp only [hk, List.getElem?_cons_zero, Option.getD_some, hu, Option.some.injEq] at hv
    subst hv
    exact Expr.constant?_all he
  case value =>
    rintro ho v hv
    obtain ⟨p, hp, hself, hlt, hwithin⟩ := hsound.names (ho.imp_right .inr)
    simp only [hp, List.getElem?_cons_zero, Option.getD_some, Place.ofOperand_operand hself hlt] at hv
    exact hmono (h.value_all hs hwithin hself hv)
  case self =>
    intro ho
    have hx : x.inFunction = true := by simpa only [Item.Sound, ho] using hsound
    exact hmono (.closure (hruns.self hx) hruns.free)
  case closure =>
    intro ho body hb
    have hstamp : r.stamp = m.nextStamp + 1 := by
      rw [Machine.compute_closure ho hb] at hr
      cases hr
      rfl
    exact h.closure_callable hs (by omega) ho (hs.constants ▸ hb) (hnew ho body hb)

theorem straight (hs : m.Sound w) (hstraight : j.op.straight = true)
    (hc : j.op = .call → ∀ stamp body free, args.head? ≠ some (.closure stamp body free))
    (hnew : j.op = .closure → ∀ body, m.constants[j.operands[0]?.getD 0]? = some (.function body) →
      w.known m.nextStamp body args) :
    Gives Exec.step m (fun _ m' => m.Keeps w m') (m.Fails w) := by
  refine (h.computes hs hstraight hc).mono ?_ fun _ _ he => he
  rintro _ _ ⟨r, hr, s, hholds, rfl⟩
  have hkeeps := (h.supplies hs hr hnew).keeps hr
  rw [Nat.max_eq_right hkeeps.stamp] at hkeeps
  have hpushed := Machine.length_pushed hr h.pops
  have hmono {v : Value} (hv : v.All (w.Callable m.nextStamp)) : v.All (w.Callable r.stamp) :=
    World.all_mono hv hkeeps.stamp
  have hbelow : ∀ v ∈ l, v.All (w.Callable r.stamp) := fun v hv =>
    hmono (hs.stack v (by rw [h.live]; exact List.mem_append_left args hv))
  refine ⟨h.goto hs (t := f.ip + j.op.length) ?_ rfl rfl ?_ hkeeps.stamp ?_ ?_ ?_ ?_, ?_,
    hkeeps.stamp⟩
  · rw [Item.targets_of_straight hstraight, h.offset]
    exact List.mem_singleton_self _
  · exact hholds.capacity ▸ hs.room
  · change s.live.length = _
    rw [hholds.live, List.length_append, Result.length_onLocals, hpushed]
  · intro v hv
    change v ∈ s.live at hv
    rw [hholds.live] at hv
    rcases List.mem_append.mp hv with hv | hv
    · exact r.onLocals_all hbelow hkeeps.written v hv
    · exact hkeeps.pushed v (by simpa using hv)
  · exact r.onGlobals_all (fun v hv => hmono (hs.globals v hv)) hkeeps.written
  · intro loaded p hp hload hloaded
    rw [hload] at hr
    obtain ⟨v, hv, rfl⟩ := Machine.compute_load hp hr
    obtain rfl : args = [] := by
      rw [← List.length_eq_zero_iff, h.pops, hload]
      rcases p.load_op with ho | ho <;> simp [Instruction.pops, ho]
    refine hloaded.push rfl ?_ hv
    rw [h.live, List.append_nil]
    exact hholds.live
  · exact r.size_onGlobals _

theorem jump (hs : m.Sound w) (ho : j.op = .jump) :
    Gives Exec.step m (fun _ m' => m.Keeps w m') (m.Fails w) := by
  obtain ⟨is, final, hruns, hj⟩ := h.runs
  obtain ⟨t, ht⟩ := List.length_eq_one_iff.mp ((hruns.listed.fits j hj).1.trans (by rw [ho]; rfl))
  obtain rfl : args = [] := by
    rw [← List.length_eq_zero_iff, h.pops]
    simp [Instruction.pops, ho]
  refine h.step_gives ?_
  rw [ho, ht]
  refine (Exec.setIp_gives (m := m.fetched f fs (f.ip + Opcode.jump.length)) rfl t).mono ?_
    fun _ _ he => he.elim
  rintro _ _ rfl
  refine ⟨h.goto hs (t := t) ?_ rfl rfl hs.room (Nat.le_refl _) ?_ hs.stack hs.globals ?_, rfl,
    Nat.le_refl _⟩
  · simp [Item.targets, ho, ht]
  · change m.stack.live.length = _
    simp [h.live, Instruction.pushes, ho]
  · exact fun _ _ _ hload => absurd hload (Item.ne_load (by simp [ho]) (by simp [ho]))

theorem jumpIfFalse (hs : m.Sound w) (ho : j.op = .jumpIfFalse) :
    Gives Exec.step m (fun _ m' => m.Keeps w m') (m.Fails w) := by
  obtain ⟨is, final, hruns, hj⟩ := h.runs
  obtain ⟨t, ht⟩ := List.length_eq_one_iff.mp ((hruns.listed.fits j hj).1.trans (by rw [ho]; rfl))
  obtain ⟨v, rfl⟩ : ∃ v, args = [v] := by
    rw [← List.length_eq_one_iff, h.pops]
    simp [Instruction.pops, ho]
  have hholds : m.stack.Holds m.stack.capacity (l ++ [v]) := ⟨h.live, rfl⟩
  refine h.step_gives ?_
  rw [ho, ht]
  refine (Exec.jumpIfFalse_gives (m := m.fetched f fs (f.ip + Opcode.jumpIfFalse.length)) rfl hholds
    t _).mono ?_ fun _ _ he => he.elim
  rintro _ _ ⟨s, hs', rfl⟩
  refine ⟨h.goto hs (t := if v.truthy then f.ip + j.op.length else t) ?_ ?_ rfl ?_ (Nat.le_refl _) ?_ ?_
    hs.globals ?_, rfl, Nat.le_refl _⟩
  · cases v.truthy <;> simp [Item.targets, ho, ht, h.offset]
  · cases v.truthy <;> simp [ho]
  · exact hs'.capacity ▸ hs.room
  · change s.live.length = _
    simp [hs'.live, Instruction.pushes, ho]
  · intro u hu
    change u ∈ s.live at hu
    rw [hs'.live] at hu
    exact hs.stack u (by rw [h.live]; exact List.mem_append_left _ hu)
  · exact fun _ _ _ hload => absurd hload (Item.ne_load (by simp [ho]) (by simp [ho]))

theorem callClosure {stamp : Nat} {body : Function} {free rest : List Value} (hs : m.Sound w)
    (ho : j.op = .call) (ha : args = .closure stamp body free :: rest) :
    Gives Exec.step m (fun _ m' => m.Keeps w m') (m.Fails w) := by
  subst ha
  obtain ⟨is, final, hruns, hj⟩ := h.runs
  obtain ⟨n, hn⟩ := List.length_eq_one_iff.mp ((hruns.listed.fits j hj).1.trans (by rw [ho]; rfl))
  obtain rfl : rest.length = n := by
    have := h.pops
    simpa [Instruction.pops, ho, hn] using this
  have hall : ∀ v ∈ l ++ .closure stamp body free :: rest, v.All (w.Callable m.nextStamp) :=
    fun v hv => hs.stack v (h.live ▸ hv)
  obtain ⟨hcallable, hfree⟩ : w.Callable m.nextStamp (.closure stamp body free) ∧
      ∀ v ∈ free, v.All (w.Callable m.nextStamp) := by
    cases hall (.closure stamp body free) (by simp) with
    | closure hcallable hfree => exact ⟨hcallable, hfree⟩
  obtain ⟨-, -, -, js, literal, hcompiled, hnames⟩ := id hcallable
  obtain ⟨constants, hlisted⟩ := hcompiled.listed
  have hholds : m.stack.Holds m.stack.capacity (l ++ .closure stamp body free :: rest) := ⟨h.live, rfl⟩
  have hargs : m.stack.Holds m.stack.capacity (l ++ [.closure stamp body free] ++ rest) := by
    simpa using hholds
  refine h.step_gives ?_
  rw [ho, hn]
  refine Exec.call_closure_gives (m := m.fetched f fs (f.ip + Opcode.call.length)) hholds
    (Gives.mono (Exec.callClosure_gives (m := m.fetched f fs (f.ip + Opcode.call.length)) hargs
      hlisted.params stamp free) ?_ ?_) _
  · rintro _ _ ⟨hparams, s, hs', rfl⟩
    have hlocals := hlisted.params
    refine ⟨⟨hs.constants, hs'.capacity ▸ hs.room, hs.stamps, ?_, hs.globals, nofun, ?_⟩, rfl,
      Nat.le_refl _⟩
    · intro v hv
      change v ∈ s.live at hv
      rw [hs'.live] at hv
      rcases List.mem_append.mp hv with hv | hv
      · exact hall v (by simpa using hv)
      · rw [List.eq_of_mem_replicate hv]
        exact .null
    · intro g gs hg
      cases hg
      refine ⟨.start rfl ?_ (Machine.loaded_nil _ _), ?_, ?_, ?_, h.framed.goto _⟩
      · change s.live.length = _
        simp only [hs'.live, List.length_append, List.length_replicate]
        omega
      · simp
      · exact ⟨js, _, ⟨hlisted, rfl, hnames, fun _ => hcallable, hfree⟩, rfl⟩
      · refine h.position.advance h.ip_lt h.decode (fun k hk hko => ?_) ?_ rfl fun _ p _ hload =>
          absurd hload (Item.ne_load (by simp [ho]) (by simp [ho]))
        · simp [Item.targets, hk, hko, ho]
        · have hlength := congrArg List.length h.live
          simp only [List.length_append, List.length_cons, List.length_nil] at hlength ⊢
          simp only [Instruction.pops, Instruction.pushes, ho, hn, List.getElem?_cons_zero,
            Option.getD_some]
          omega
  · rintro e _ ⟨rfl, rfl | rfl | rfl⟩ <;>
      exact ⟨.of_plain rfl rfl, rfl, Nat.le_refl _, h.stops rfl⟩

theorem returns (hs : m.Sound w) (ho : j.op = .ret ∨ j.op = .retValue) :
    Gives Exec.step m (fun _ m' => m.Keeps w m') (m.Fails w) := by
  have hbelow : ∀ v ∈ l, v.All (w.Callable m.nextStamp) := fun v hv =>
    hs.stack v (by rw [h.live]; exact List.mem_append_left args hv)
  have hbase : f.base ≤ l.length := Nat.le_trans (Nat.le_add_right ..) h.below
  refine h.step_gives ?_
  rcases ho with ho | ho
  · obtain rfl : args = [] := by
      rw [← List.length_eq_zero_iff, h.pops]
      simp [Instruction.pops, ho]
    have hholds : m.stack.Holds m.stack.capacity l := ⟨by simpa using h.live, rfl⟩
    rw [ho]
    refine Gives.mono (Framed.leave (m := m.fetched f fs (f.ip + Opcode.ret.length))
      rfl (h.framed.goto _) hs.constants hs.stamps hs.globals hholds hs.room hbelow hbase
      (some .null) .null nofun) (fun _ _ hk => hk)
      fun _ _ he => he.elim
  · obtain ⟨v, rfl⟩ : ∃ v, args = [v] := by
      rw [← List.length_eq_one_iff, h.pops]
      simp [Instruction.pops, ho]
    have hholds : m.stack.Holds m.stack.capacity (l ++ [v]) := ⟨h.live, rfl⟩
    rw [ho]
    refine Gives.bind (Exec.pop_gives (m := m.fetched f fs (f.ip + Opcode.retValue.length)) hholds)
      (fun _ _ he => he.elim) ?_
    rintro v _ ⟨rfl, ⟨s, hs', rfl⟩, -⟩
    refine Gives.mono (Framed.leave (m := { m.fetched f fs (f.ip + Opcode.retValue.length) with
      stack := s }) rfl (h.framed.goto _) hs.constants hs.stamps hs.globals hs'
      hs.room hbelow hbase (some v) (hs.stack v (by simp [h.live])) nofun) (fun _ _ hk => hk)
      fun _ _ he => he.elim

end Machine.Faces

/-- A step keeps the discipline or raises a fault of the program. If it makes a closure, what is to be
known of closures has to hold of that one. -/
theorem Machine.Sound.step_making (hs : m.Sound w) (hf : m.frames ≠ [])
    (hnew : ∀ {f fs x j l args body}, m.Faces w f fs x j l args → j.op = .closure →
      m.constants[j.operands[0]?.getD 0]? = some (.function body) → w.known m.nextStamp body args) :
    Gives Exec.step m (fun _ m' => m.Keeps w m') (m.Fails w) := by
  obtain ⟨f, fs, hframes⟩ := List.exists_cons_of_ne_nil hf
  rcases hs.faces hframes with ⟨x, j, l, args, h⟩ | ⟨hip, hbase⟩
  · by_cases hstraight : j.op.straight = true
    · by_cases hcall : ∃ stamp body free, j.op = .call ∧ args.head? = some (.closure stamp body free)
      · obtain ⟨stamp, body, free, ho, hhead⟩ := hcall
        obtain ⟨rest, rfl⟩ := List.head?_eq_some_iff.mp hhead
        exact h.callClosure hs ho rfl
      · exact h.straight hs hstraight
          (fun ho stamp body free hhead => hcall ⟨stamp, body, free, ho, hhead⟩)
          fun ho _ hb => hnew h ho hb
    · cases ho : j.op with
      | jump => exact h.jump hs ho
      | jumpIfFalse => exact h.jumpIfFalse hs ho
      | ret => exact h.returns hs (.inl ho)
      | retValue => exact h.returns hs (.inr ho)
      | _ => simp [ho, Opcode.straight] at hstraight
  · obtain ⟨hat, hframed⟩ := hs.frames f fs hframes
    refine Exec.step_end hframes hip (Gives.mono (Framed.leave hframes hframed hs.constants hs.stamps
      hs.globals ⟨rfl, rfl⟩ hs.room hs.stack ?_ none .null ?_) (fun _ _ hk => hk) fun _ _ he => he.elim)
    · exact hbase
    · rintro rfl -
      obtain ⟨hzero, -, -, is, x, final, hruns, hfinal, hlocals⟩ := hframed
      obtain ⟨height, loaded, hsp, hstands, -⟩ := hat is x final hruns.listed
      have hheight := hruns.listed.height_at_end hip hstands
      have := hruns.listed.locals
      omega

theorem Machine.Sound.step (hs : m.Sound w) (hf : m.frames ≠ [])
    (hnew : ∀ body free, w.known m.nextStamp body free) :
    Gives Exec.step m (fun _ m' => m.Keeps w m') (m.Fails w) :=
  hs.step_making hf fun _ _ _ => hnew _ _

theorem Machine.Sound.steps (hs : m.Sound w) (h : m.Steps m')
    (hfresh : ∀ stamp, m.nextStamp ≤ stamp → ∀ body free, w.known stamp body free) :
    m.Keeps w m' := by
  refine h.invariant (I := m.Keeps w) ⟨hs, rfl, Nat.le_refl _⟩ ?_
  rintro m₁ m₂ ⟨hs₁, hsize, hstamp⟩ hf hstep
  obtain ⟨hs₂, hsize₂, hstamp₂⟩ := (hs₁.step hf (hfresh _ hstamp)).of_ok hstep
  exact ⟨hs₂, hsize₂.trans hsize, Nat.le_trans hstamp hstamp₂⟩

end Facing

end StackScript
