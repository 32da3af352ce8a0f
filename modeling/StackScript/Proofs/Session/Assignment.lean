import StackScript.Proofs.Compile.Assignment
import StackScript.Proofs.Session.Calls

/-! # Variables are assigned before they are read

When a settled program runs with fresh globals, no variable is read before it has been written: a global
earlier in the run, a local earlier in the same call, unless it is an argument. For the bodies of
closures this holds because the globals that they see have been written when the closure is made.
-/

namespace StackScript

def Machine.Reads (m : Machine) (f : Frame) (fs : List Frame) (p : Place) : Prop :=
  m.frames = f :: fs ∧ ∃ i next, f.body.code.decode f.ip = .ok (i, next) ∧ i.reads? = some p

def Machine.Writes (m : Machine) (p : Place) : Prop :=
  ∃ f fs i next, m.frames = f :: fs ∧ f.body.code.decode f.ip = .ok (i, next) ∧ i.writes? = some p

/-- In the run from `m₀` to `m` the variable has been written: a global by any call, a local by the call
above `callers` others, which is still active in `m`. -/
inductive Machine.Written (m₀ m : Machine) (callers : Nat) (p : Place) : Prop
  | globalSlot {m₁ m₂ : Machine} (storage : p.storage = .globalSlot) (before : m₀.Steps m₁)
      (writes : m₁.Writes p) (step : Exec.step m₁ = (.ok (), m₂)) (after : m₂.Steps m)
  | localSlot {m₁ m₂ : Machine} (storage : p.storage = .localSlot) (before : m₀.Steps m₁)
      (depth : m₁.frames.length = callers + 1) (writes : m₁.Writes p)
      (step : Exec.step m₁ = (.ok (), m₂)) (after : m₂.StepsAbove callers m)

/-- The variables of a call above `callers` others that the program has given a value: its arguments and
what has been written. -/
def Machine.assigned (m₀ m : Machine) (f : Frame) (callers : Nat) : Set Place :=
  {p | p.storage = .localSlot ∧ p.index < f.body.params ∨ m₀.Written m callers p}

/-- A call is at the end of its body or at a checkpoint that knows only variables among `A`. -/
def Frame.Passes (f : Frame) (pool : Array Value) (A : Set Place) : Prop :=
  ∃ B ks, Checked pool f.body B ks ∧ (Admits ks f.ip A ∨ f.ip = f.body.code.size)

/-- All calls are at checkpoints that know only what has been assigned. -/
def Machine.Covered (m₀ m : Machine) (pool : Array Value) : List Frame → Prop
  | [] => True
  | f :: fs => f.Passes pool (m₀.assigned m f fs.length) ∧ m₀.Covered m pool fs

/-- The globals that the body of a closure sees have been written. -/
def Machine.Ready (m₀ m : Machine) (pool : Array Value) (_ : Nat) (body : Function) (_ : List Value) :
    Prop :=
  ∃ ks, Checked pool body (body.given {p | m₀.Written m 0 p}) ks

/-- A run of checked code: closures can be called, and no call is ahead of what has been assigned. -/
structure Machine.Tracks (m₀ m : Machine) (w : World) : Prop where
  before : m₀.Steps m
  sound : m.Sound { w with known := m₀.Ready m w.pool }
  covered : m₀.Covered m w.pool m.frames

section Written

variable {m₀ m m₁ m' : Machine} {n k : Nat} {p : Place} {f : Frame} {fs : List Frame}
  {pool : Array Value} {A B : Set Place}

theorem Machine.Steps.snoc (h : m.Steps m₁) (hf : m₁.frames ≠ []) (hs : Exec.step m₁ = (.ok (), m')) :
    m.Steps m' := h.trans (.step hf hs .refl)

theorem Machine.StepsAbove.snoc (h : m.StepsAbove n m₁) (hs : Exec.step m₁ = (.ok (), m'))
    (hn : n < m'.frames.length) : m.StepsAbove n m' := by
  induction h with
  | refl hm => exact .step hm hs (.refl hn)
  | step hm hs' _ ih => exact .step hm hs' (ih hs)

theorem Machine.Written.step (h : m₀.Written m n p) (hf : m.frames ≠ [])
    (hs : Exec.step m = (.ok (), m')) (hn : p.storage = .globalSlot ∨ n < m'.frames.length) :
    m₀.Written m' n p := by
  cases h with
  | globalSlot hp hbefore hw hstep hafter => exact .globalSlot hp hbefore hw hstep (hafter.snoc hf hs)
  | localSlot hp hbefore hd hw hstep hafter =>
    have hdeep : n < m'.frames.length := hn.resolve_left fun hg => by cases hp.symm.trans hg
    exact .localSlot hp hbefore hd hw hstep (hafter.snoc hs hdeep)

theorem Machine.Written.of_global (h : m₀.Written m n p) (hp : p.storage = .globalSlot) :
    m₀.Written m k p := by
  cases h with
  | globalSlot _ hbefore hw hstep hafter => exact .globalSlot hp hbefore hw hstep hafter
  | localSlot hl => cases hl.symm.trans hp

theorem Machine.assigned_step (hf : m.frames ≠ []) (hs : Exec.step m = (.ok (), m'))
    (hn : n < m'.frames.length) : m₀.assigned m f n ⊆ m₀.assigned m' f n :=
  fun _ hp => hp.imp_right fun hw => hw.step hf hs (.inr hn)

theorem Frame.Passes.mono (h : f.Passes pool A) (hA : A ⊆ B) : f.Passes pool B := by
  obtain ⟨D, ks, hchecked, hat⟩ := h
  exact ⟨D, ks, hchecked, hat.imp_left fun hin => hin.mono (List.Subset.refl _) hA⟩

theorem Machine.Covered.step (h : m₀.Covered m pool fs) (hf : m.frames ≠ [])
    (hs : Exec.step m = (.ok (), m')) (hn : fs.length ≤ m'.frames.length) : m₀.Covered m' pool fs := by
  induction fs with
  | nil => trivial
  | cons f fs ih => exact ⟨h.1.mono (assigned_step hf hs hn), ih h.2 (Nat.le_of_succ_le hn)⟩

theorem Function.given_mono {f : Function} (h : ∀ p ∈ A, p.storage = .globalSlot → p ∈ B) :
    f.given A ⊆ f.given B :=
  fun p hp => hp.imp_right fun ⟨hg, hA⟩ => ⟨hg, h p hA hg⟩

theorem Machine.Ready.step {stamp : Nat} {body : Function} {free : List Value}
    (h : m₀.Ready m pool stamp body free) (hf : m.frames ≠ []) (hs : Exec.step m = (.ok (), m')) :
    m₀.Ready m' pool stamp body free := by
  obtain ⟨ks, hchecked⟩ := h
  exact ⟨ks, hchecked.mono (Function.given_mono fun p hp hg => Machine.Written.step hp hf hs (.inl hg))⟩

end Written

section Checkpoints

variable {m₀ m m' : Machine} {f : Frame} {fs : List Frame} {pool : Array Value} {A B : Set Place}
  {ks : List Checkpoint} {k : Checkpoint} {i : Instruction} {next t : Nat} {p : Place} {j : Item}

theorem Frame.Passes.at (h : f.Passes pool A) (hd : f.body.code.decode f.ip = .ok (i, next)) :
    ∃ B ks k, Checked pool f.body B ks ∧ k ∈ ks ∧ k.offset = f.ip ∧ k.toInstruction = i ∧ k.known ⊆ A := by
  obtain ⟨B, ks, hchecked, ⟨k, hk, ho, hknown⟩ | hend⟩ := h
  · obtain ⟨x, final, hlisted⟩ := hchecked.listed
    have hdecode := hlisted.decode (List.mem_map_of_mem hk)
    rw [ho, hd] at hdecode
    exact ⟨B, ks, k, hchecked, hk, ho, (Prod.mk.inj (Except.ok.inj hdecode)).1.symm, hknown⟩
  · have := Code.lt_size_of_decode hd
    omega

theorem Checked.assignable (h : Checked pool f.body B ks) (hk : k ∈ ks) (hw : k.writes? = some p) :
    p.storage.assignable = true := by
  obtain ⟨x, final, hlisted⟩ := h.listed
  obtain ⟨ho, hp⟩ := Instruction.writes?_eq_some hw
  obtain ⟨q, hq, ha, hi, -⟩ := (hlisted.sound k.toItem (List.mem_map_of_mem hk)).assignable ho
  rw [hq, List.head?_cons, Option.map_some,
    Place.ofOperand_operand (Place.storage_ne_self ha) hi] at hp
  exact Option.some.inj hp ▸ ha

/-- An instruction leads to a checkpoint that knows only what has been assigned then. -/
theorem Frame.Passes.advance (h : f.Passes pool (m₀.assigned m f fs.length)) (hb : m₀.Steps m)
    (hf : m.frames = f :: fs) (hd : f.body.code.decode f.ip = .ok (j.toInstruction, next))
    (ho : j.offset = f.ip) (ht : t ∈ j.targets) (hs : Exec.step m = (.ok (), m'))
    (hn : fs.length < m'.frames.length) :
    ({ f with ip := t } : Frame).Passes pool (m₀.assigned m' f fs.length) := by
  have hne : m.frames ≠ [] := by simp [hf]
  obtain ⟨B, ks, k, hchecked, hk, hko, hinstr, hknown⟩ := h.at hd
  obtain ⟨D, hchecks⟩ := hchecked.checks
  have htargets : k.targets = j.targets := by simp only [Item.targets, hinstr, hko, ho]
  have hafter : k.assigned k.known ⊆ m₀.assigned m' f fs.length := by
    have hbefore := hknown.trans (Machine.assigned_step hne hs hn)
    unfold Instruction.assigned
    split
    · next p hw =>
      refine Set.insert_subset (.inr ?_) hbefore
      have hwrites : m.Writes p := ⟨f, fs, _, next, hf, hd, hinstr ▸ hw⟩
      have ha := hchecked.assignable hk hw
      cases hp : p.storage with
      | globalSlot => exact .globalSlot hp hb hwrites hs .refl
      | localSlot => exact .localSlot hp hb (by rw [hf]; rfl) hwrites hs (.refl hn)
      | _ => simp [hp, Storage.assignable] at ha
    · exact hbefore
  refine ⟨B, ks, hchecked, ?_⟩
  rcases hchecks.next k hk t (htargets ▸ ht) with hin | ⟨hend, -⟩ | hout
  · exact .inl (hin.mono (List.Subset.refl _) hafter)
  · exact .inr hend
  · exact hout.elim

end Checkpoints

section Tracks

variable {m₀ m m' : Machine} {w : World} {f : Frame} {fs : List Frame} {p : Place}

/-- What a call reads has been assigned. -/
theorem Machine.Tracks.reads (h : m₀.Tracks m w) (hreads : m.Reads f fs p)
    (ha : p.storage.assignable = true) : p ∈ m₀.assigned m f fs.length := by
  obtain ⟨hf, i, next, hd, hr⟩ := hreads
  have hcovered := h.covered
  rw [hf] at hcovered
  obtain ⟨B, ks, k, hchecked, hk, -, rfl, hknown⟩ := hcovered.1.at hd
  obtain ⟨D, hchecks⟩ := hchecked.checks
  exact hknown ((hchecks.ok k hk).reads p hr ha)

/-- When a closure is made, the globals that its body sees have been written. -/
theorem Machine.Tracks.closes {x : Extent} {j : Item} {l args : List Value} {body : Function}
    {known : Nat → Function → List Value → Prop} (h : m₀.Tracks m w)
    (hfaces : m.Faces { w with known := known } f fs x j l args) (ho : j.op = .closure)
    (hbody : m.constants[j.operands[0]?.getD 0]? = some (.function body)) :
    m₀.Ready m w.pool m.nextStamp body args := by
  have hcovered := h.covered
  rw [hfaces.frames] at hcovered
  obtain ⟨B, ks, k, hchecked, hk, -, hinstr, hknown⟩ := hcovered.1.at hfaces.decode
  obtain ⟨D, hchecks⟩ := hchecked.checks
  obtain ⟨y, final, hlisted⟩ := hchecked.listed
  have hop : k.op = .closure := (congrArg Instruction.op hinstr).trans ho
  obtain ⟨literal, hcloses⟩ := (hlisted.sound k.toItem (List.mem_map_of_mem hk)).closes hop
  obtain ⟨index, first, bodySpan, g, is, s, hoperands, -, hg, hcode⟩ := hcloses.body
  obtain rfl : g = body := by
    rw [h.sound.constants, ← hinstr, hoperands, List.getElem?_cons_zero, Option.getD_some, hg] at hbody
    cases hbody
    rfl
  have hsupplied := (hchecks.ok k hk).closes literal hcloses.literal
  obtain ⟨js, hjs⟩ := hcode.checked hcloses.below hsupplied
  refine ⟨js, hjs.mono (Function.given_mono fun p hp hglobal => ?_)⟩
  rcases hknown hp with ⟨hlocal, -⟩ | hwritten
  · cases hlocal.symm.trans hglobal
  · exact hwritten.of_global hglobal

/-- A call begins with its arguments and the globals that its body sees. -/
theorem Machine.Ready.enters {stamp n : Nat} {free : List Value} (h : m₀.Ready m w.pool stamp f.body free)
    (hip : f.ip = 0) : f.Passes w.pool (m₀.assigned m f n) := by
  obtain ⟨ks, hchecked⟩ := h
  obtain ⟨D, hchecks⟩ := hchecked.checks
  have hgiven : f.body.given {p | m₀.Written m 0 p} ⊆ m₀.assigned m f n :=
    fun p hp => hp.imp_right fun ⟨hglobal, hwritten⟩ => hwritten.of_global hglobal
  refine ⟨_, ks, hchecked, ?_⟩
  rw [hip]
  exact hchecks.entry.imp (·.mono (List.Subset.refl _) hgiven) fun hend => hend.2.1

theorem Machine.Tracks.step (h : m₀.Tracks m w) (hf : m.frames ≠ [])
    (hs : Exec.step m = (.ok (), m')) : m₀.Tracks m' w := by
  have hsound : m.Sound { w with known := m₀.Ready m' w.pool } :=
    h.sound.know fun _ _ _ _ hready => hready.step hf hs
  have hkeeps := (hsound.step_making hf fun hfaces ho hbody =>
    (h.closes hfaces ho hbody).step hf hs).of_ok hs
  refine ⟨h.before.snoc hf hs, hkeeps.1, ?_⟩
  have hcovered := h.covered
  cases (hsound.takes hf).of_ok hs with
  | @computes f fs x j l args r hfaces hstraight _ hr hb =>
    obtain ⟨s, hholds, rfl⟩ := hb
    rw [hfaces.frames] at hcovered
    obtain ⟨hpasses, hrest⟩ := hcovered
    refine ⟨hpasses.advance h.before hfaces.frames hfaces.decode hfaces.offset ?_ hs (Nat.lt_succ_self _),
      hrest.step hf hs (Nat.le_succ _)⟩
    rw [Item.targets_of_straight hstraight, hfaces.offset]
    exact List.mem_singleton_self _
  | @jumps f fs x j l args t hfaces ho ht hm =>
    obtain ⟨s, hholds, rfl⟩ := hm
    rw [hfaces.frames] at hcovered
    obtain ⟨hpasses, hrest⟩ := hcovered
    exact ⟨hpasses.advance h.before hfaces.frames hfaces.decode hfaces.offset ht hs (Nat.lt_succ_self _),
      hrest.step hf hs (Nat.le_succ _)⟩
  | @calls f fs x j l args stamp body free s hfaces ho hp hholds hm =>
    rw [hfaces.frames] at hcovered
    obtain ⟨hpasses, hrest⟩ := hcovered
    have hready : m₀.Ready m' w.pool stamp body free := by
      cases hsound.stack (.closure stamp body free) (by simp [hfaces.live]) with
      | closure hcallable _ => exact hcallable.2.2.1
    subst hm
    refine ⟨hready.enters rfl, hpasses.advance h.before hfaces.frames hfaces.decode hfaces.offset ?_ hs
      (Nat.lt_succ_of_lt (Nat.lt_succ_self _)), hrest.step hf hs (Nat.le_add_right _ 2)⟩
    rw [Item.targets_of_straight (by rw [ho]; rfl), hfaces.offset]
    exact List.mem_singleton_self _
  | @returns f g fs result s executed hframes hone hy hholds hm =>
    subst hm
    rw [hframes] at hcovered
    exact hcovered.2.step hf hs (Nat.le_refl _)
  | ends hframes hy hholds hm =>
    subst hm
    trivial

end Tracks

theorem Session.Begins.tracks {program : Program} {name : String} {o : Object} {limits : Limits}
    {m : Machine} (h : ({ limits := limits } : Session).Begins program name o limits m)
    (hsettled : program.settled = true) : ∃ w, m.Tracks m w := by
  obtain ⟨v, -, -, -, hresult⟩ := Compiler.Ready.initial.compile program name
  obtain ⟨c, hcompiled⟩ : ∃ c, Compiler.compile {} program name = (.ok o, c) :=
    ⟨_, Prod.ext h.compiled rfl⟩
  rw [hcompiled] at hresult
  obtain ⟨hconstants, is, s, -, -, hlists⟩ := hresult
  obtain ⟨ks, hchecked⟩ :=
    hlists.checked rfl Compiler.Ready.initial.main_below hsettled (Lexical.assigned_empty [] ∅)
  let w : World := ({ limits := limits } : Session).world program name
  have hpool : w.pool = o.constants := by simp only [w, Session.world, hcompiled, hconstants]
  have hready : m.Ready m w.pool mainStamp o.main [] := ⟨ks, hpool ▸ hchecked.mono (Set.empty_subset _)⟩
  -- Before the first step the only code is that of the top level.
  let known (stamp : Nat) (body : Function) (_ : List Value) : Prop :=
    stamp = mainStamp → body = o.main
  have hfresh (stamp : Nat) (hstamp : firstStamp ≤ stamp) (body : Function) (free : List Value) :
      known stamp body free := by
    rintro rfl
    exact absurd hstamp (by decide)
  obtain ⟨hm, -, hnext⟩ := Session.Sound.initial.begins h known (fun _ => rfl) hfresh
  refine ⟨w, .refl, hm.know fun stamp hstamp body free hknown => ?_, ?_⟩
  · have hmain : stamp = mainStamp := by
      rw [hnext] at hstamp
      exact Nat.lt_one_iff.mp hstamp
    rw [hknown hmain]
    exact hready
  · obtain ⟨p, hlink, hstart⟩ := h.started
    cases hlink
    obtain ⟨-, -, rfl⟩ := Machine.start_eq hstart
    exact ⟨hready.enters rfl, trivial⟩

/-- Whether the machine is about to read the variable. -/
def Machine.atRead (m : Machine) (p : Place) : Bool :=
  match m.frames with
  | f :: _ =>
    match f.body.code.decode f.ip with
    | .ok (i, _) => i.reads? == some p
    | .error _ => false
  | [] => false

theorem Machine.reads_of_atRead {m : Machine} {p : Place} (h : m.atRead p = true) :
    ∃ f fs, m.Reads f fs p := by
  unfold Machine.atRead at h
  split at h
  · next f fs hframes =>
    split at h
    · next i next hdecode => exact ⟨f, fs, hframes, i, next, hdecode, beq_iff_eq.mp h⟩
    · cases h
  · cases h

/-- In every run of a settled program that starts with fresh globals, each variable that a call reads is
an argument of the call or has been written before: a global in the run, a local in the call. -/
theorem compile_assigns_before_reads {program : Program} {name : String} {o : Object} {limits : Limits}
    {linked : Linked} {m₀ m : Machine} {f : Frame} {fs : List Frame} {p : Place}
    (hsettled : program.settled = true) (hcompile : compile program name = .ok o)
    (hlink : link [o] = .ok linked) (hstart : Machine.start linked limits #[] firstStamp = .ok m₀)
    (hsteps : m₀.Steps m) (hreads : m.Reads f fs p) (ha : p.storage.assignable = true) :
    p.storage = .localSlot ∧ p.index < f.body.params ∨ m₀.Written m fs.length p := by
  have hbegins : ({ limits := limits } : Session).Begins program name o limits m₀ :=
    ⟨hcompile, linked, hlink, hstart⟩
  obtain ⟨w, htracks⟩ := hbegins.tracks hsettled
  have hm : m₀.Tracks m w :=
    hsteps.invariant (I := fun m => m₀.Tracks m w) htracks fun _ _ h hf hs => h.step hf hs
  exact hm.reads hreads ha

/-- A global that is read behind its `let`, in a loop with a round that `continue` ends before it. -/
theorem compile_assigns_global :
    let source :=
      "let n = 0; for (; n < 2; n = n + 1) \x7b if (n < 1) \x7b continue; \x7d let y = n; puts(y); \x7d"
    let limits : Limits := ⟨8, 2, 2, none⟩
    ∃ program, parseSource source = .ok program ∧ program.settled = true ∧
      ∃ o linked m₀ m f fs, compile program unitName = .ok o ∧ link [o] = .ok linked ∧
      Machine.start linked limits #[] firstStamp = .ok m₀ ∧ m₀.Steps m ∧
      m.Reads f fs ⟨.globalSlot, 1⟩ ∧ m₀.Written m fs.length ⟨.globalSlot, 1⟩ := by
  intro source limits
  have hrun : (({ limits := limits } : Session).opens? source limits).any (fun (program, _, m) =>
      program.settled && m.reaches 31 (·.atRead ⟨.globalSlot, 1⟩)) = true := by decide +kernel
  obtain ⟨⟨program, o, m₀⟩, hopens, hread⟩ := (Option.any_eq_true ..).mp hrun
  obtain ⟨hsettled, hreaches⟩ := (Bool.and_eq_true ..).mp hread
  obtain ⟨hparsed, hcompile, linked, hlink, hstart⟩ := Session.begins_of_opens? hopens
  obtain ⟨m, hsteps, hat⟩ := Machine.steps_of_reaches hreaches
  obtain ⟨f, fs, hreads⟩ := Machine.reads_of_atRead hat
  have hassigned :=
    compile_assigns_before_reads hsettled hcompile hlink hstart hsteps hreads rfl
  exact ⟨program, hparsed, hsettled, o, linked, m₀, m, f, fs, hcompile, hlink, hstart, hsteps, hreads,
    hassigned.resolve_left (by rintro ⟨⟨⟩, -⟩)⟩

end StackScript
