import StackScript.Proofs.Compile.Spans
import StackScript.Proofs.Session.Entries

/-! # Where faults come from

All code that a program runs is the listing of its top level or of a function literal in it. So a fault
is raised by an instruction that was written for a node of the program, and its span is that of the
node.
-/

namespace StackScript

/-- The bodies of a compiled program, with their listings: the top level, and the function literals of
which the code of a body makes closures. -/
inductive Object.Body (o : Object) (program : Program) : Function → List Item → Prop
  | main {is : List Item} {s : Cursor} : o.Lists {} 0 program.statements is s →
      o.Body program o.main is
  | literal {f g : Function} {is js : List Item} {i : Item} {l : Literal} {k first : Nat}
      {bodySpan : Span} {s : Cursor} : o.Body program f is → i ∈ is → i.op = .closure →
      i.literal = some l → i.operands[0]? = some k → o.constants[k]? = some (.function g) →
      FunctionCode o.constants l.env l.names first l.self l.params l.body bodySpan g js s →
      o.Body program g js

/-- The run from `m` ends in `m'` with an error, and the instruction that raised it is `i`, of a body of
the program. -/
structure Machine.FailsAt (m m' : Machine) (o : Object) (program : Program) (e : RuntimeError)
    (i : Item) : Prop where
  run : m.run = (.failed e, m')
  raised : ∃ m₁ f fs is, m.Steps m₁ ∧ m₁.frames = f :: fs ∧ Exec.step m₁ = (.error e.fault, m') ∧
    o.Body program f.body is ∧ i ∈ is ∧ i.offset = f.ip

namespace Object.Body

variable {o : Object} {program : Program} {f : Function} {is : List Item}

theorem listed (h : o.Body program f is) : ∃ x final, Listed o.constants f is x final := by
  induction h with
  | main h =>
    obtain ⟨final, -, hlisted⟩ := h.listed rfl Compiler.Ready.initial.main_below
    exact ⟨_, final, hlisted⟩
  | @literal f g is js i l k first bodySpan s _ hi ho hl hk hg hcode ih =>
    obtain ⟨x, final, hlisted⟩ := ih
    obtain ⟨l', hcloses⟩ := (hlisted.sound i hi).closes ho
    obtain rfl : l' = l := Option.some.inj (hcloses.literal.symm.trans hl)
    exact ⟨_, 0, hcode.listed hcloses.below⟩

theorem locates (h : o.Body program f is) : f.spans.Locates is := by
  cases h with
  | main h => exact h.spans
  | literal _ _ _ _ _ _ hcode =>
    cases hcode with
    | mk _ _ _ _ _ _ hspans => exact hspans

theorem spans {P : Span → Prop} (h : o.Body program f is) (ho : o.Spans P) : f.spans.All P := by
  cases h with
  | main _ => exact ho.main
  | literal _ _ _ _ _ hg _ => exact ho.constants f (Array.mem_of_getElem? hg)

/-- There is a span for every instruction whose offset can be recorded: that of the first one holds until
another is recorded. -/
theorem spanAt?_isSome {i : Item} (h : o.Body program f is) (hi : i ∈ is)
    (hle : i.offset ≤ Span.maxOffset) : (f.spans.spanAt? i.offset).isSome = true := by
  obtain ⟨x, final, hlisted⟩ := h.listed
  cases is with
  | nil => cases hi
  | cons first rest =>
    obtain ⟨hfirst, -⟩ := hlisted.flows.tiled
    have hlocated := h.locates first (by simp) (by rw [hfirst]; decide)
    rw [hfirst] at hlocated
    exact SpanMap.spanAt?_isSome_of_le (by rw [hlocated]; rfl) (Nat.zero_le _) hle

end Object.Body

section Runs

variable {o : Object} {program : Program} {w : World} {m m' : Machine} {f : Frame} {fs : List Frame}

/-- What is known of closures, and of the top level, while a program runs. -/
def World.Traces (w : World) (o : Object) (program : Program) : Prop :=
  w.pool = o.constants ∧ ∀ stamp body free, w.known stamp body free ↔ ∃ is, o.Body program body is

theorem Machine.Sound.at_item (hs : m.Sound w) (hw : w.Traces o program) (hf : m.frames = f :: fs)
    (hip : f.ip < f.body.code.size) :
    ∃ is i, o.Body program f.body is ∧ i ∈ is ∧ i.offset = f.ip := by
  obtain ⟨hat, hframed⟩ := hs.frames f fs hf
  obtain ⟨is, hbody⟩ := (hw.2 _ _ _).mp (hframed.known f (by simp))
  obtain ⟨x, final, hlisted⟩ := hbody.listed
  obtain ⟨height, loaded, -, ⟨i, hi, ho, -⟩ | ⟨hend, -⟩, -⟩ := hat is x final (hw.1 ▸ hlisted)
  · exact ⟨is, i, hbody, hi, ho⟩
  · omega

theorem Machine.Faces.makes_body {x : Extent} {j : Item} {l args : List Value} {body : Function}
    (h : m.Faces w f fs x j l args) (hs : m.Sound w) (hw : w.Traces o program)
    (ho : j.op = .closure) (hb : m.constants[j.operands[0]?.getD 0]? = some (.function body)) :
    ∃ js, o.Body program body js := by
  obtain ⟨is, i, hbody, hi, hoffset⟩ := hs.at_item hw h.frames h.ip_lt
  obtain ⟨y, final, hlisted⟩ := hbody.listed
  have hij : i.toInstruction = j.toInstruction := by
    have hdecode := hlisted.decode hi
    rw [hoffset, h.decode] at hdecode
    exact (congrArg Prod.fst (Except.ok.inj hdecode)).symm
  have hop : i.op = .closure := (congrArg Instruction.op hij).trans ho
  obtain ⟨literal, hcloses⟩ := (hlisted.sound i hi).closes hop
  obtain ⟨k, first, bodySpan, g, js, s, hoperands, -, hg, hcode⟩ := hcloses.body
  have hk : j.operands[0]?.getD 0 = k := by
    rw [← congrArg Instruction.operands hij, hoperands]
    rfl
  obtain rfl : g = body := by
    rw [hs.constants, hw.1, hk, hg] at hb
    cases hb
    rfl
  exact ⟨js, hbody.literal hi hop hcloses.literal (by rw [hoperands]; rfl) hg hcode⟩

theorem Machine.Sound.traces (hs : m.Sound w) (hw : w.Traces o program) (h : m.Steps m') :
    m'.Sound w := by
  refine h.invariant (I := (·.Sound w)) hs ?_
  intro m₁ m₂ hs₁ hf hstep
  exact ((hs₁.step_making hf fun hfaces ho hb =>
    (hw.2 _ _ _).mpr (hfaces.makes_body hs₁ hw ho hb)).of_ok hstep).1

/-- A run that fails does so at an instruction of the program. If the offset of that instruction can be
recorded then the error has a span, and if no later instruction shares its entry then that of the
instruction; the error has no span that is not in the code. -/
theorem Machine.Sound.failsAt {e : RuntimeError} (hs : m.Sound w) (hw : w.Traces o program)
    (h : m.run = (.failed e, m')) :
    ∃ i, m.FailsAt m' o program e i ∧ (i.offset ≤ Span.maxOffset → e.span.isSome = true) ∧
      (i.offset < Span.maxOffset → e.span = some i.span) ∧
      ∀ P, o.Spans P → ∀ span, e.span = some span → P span := by
  have hcases := m.runFor_cases m.fuel
  rw [show m.runFor m.fuel = _ from h] at hcases
  obtain ⟨m₁, hsteps, hf, hstep, hspan⟩ := hcases
  have hs₁ := hs.traces hw hsteps
  obtain ⟨-, -, -, f, fs, ip, hframes, hip, hstopped⟩ :=
    (hs₁.step_making hf fun hfaces hop hb =>
      (hw.2 _ _ _).mpr (hfaces.makes_body hs₁ hw hop hb)).of_error hstep
  obtain ⟨is, i, hbody, hi, hoffset⟩ := hs₁.at_item hw hframes hip
  have hlookup : e.span = f.body.spans.spanAt? i.offset := by
    rw [hspan f fs hframes]
    simp [Machine.faultSpan?, hstopped, hoffset]
  refine ⟨i, ⟨h, m₁, f, fs, is, hsteps, hframes, hstep, hbody, hi, hoffset⟩, ?_, ?_, ?_⟩
  · intro hle
    rw [hlookup]
    exact hbody.spanAt?_isSome hi hle
  · intro hlt
    rw [hlookup]
    exact hbody.locates i hi hlt
  · intro P hP span he
    exact (hbody.spans hP).spanAt? (hlookup.symm.trans he)

end Runs

theorem Session.Begins.traces {limits : Limits} {program : Program} {name : String} {o : Object}
    {m : Machine} (h : ({ limits := limits } : Session).Begins program name o limits m) :
    ∃ w : World, w.Traces o program ∧ m.Sound w := by
  obtain ⟨v, -, -, -, hresult⟩ := Compiler.Ready.initial.compile program name
  obtain ⟨c, hcompiled⟩ : ∃ c, Compiler.compile {} program name = (.ok o, c) :=
    ⟨_, Prod.ext h.compiled rfl⟩
  rw [hcompiled] at hresult
  obtain ⟨hconstants, is, s, -, -, hlists⟩ := hresult
  -- Before the first step the only code is that of the top level.
  let known (stamp : Nat) (body : Function) (_ : List Value) : Prop :=
    stamp = mainStamp → body = o.main
  have hfresh (stamp : Nat) (hstamp : firstStamp ≤ stamp) (body : Function) (free : List Value) :
      known stamp body free := by
    rintro rfl
    exact absurd hstamp (by decide)
  obtain ⟨hm, -, hnext⟩ := Session.Sound.initial.begins h known (fun _ => rfl) hfresh
  have hbodies (stamp : Nat) (hstamp : stamp < m.nextStamp) (body : Function) (free : List Value)
      (hknown : known stamp body free) : ∃ is, o.Body program body is := by
    have hmain : stamp = mainStamp := by
      rw [hnext] at hstamp
      exact Nat.lt_one_iff.mp hstamp
    rw [hknown hmain]
    exact ⟨is, .main hlists⟩
  refine ⟨_, ⟨?_, fun _ _ _ => Iff.rfl⟩, hm.know hbodies⟩
  simp only [Session.world, hcompiled, hconstants]

end StackScript
