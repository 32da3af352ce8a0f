import Mathlib.Data.List.Induction
import StackScript.Proofs.Session.Diagnostics
import StackScript.Proofs.Session.Growth

/-! # Which entries diagnostics point into

A function keeps the spans of the entry that it was compiled from, and later entries can call it. So
an entry that fails as it runs is labelled in the text of the entry that the failing code is from.
-/

namespace StackScript

theorem Value.All.and {P Q : Value → Prop} {v : Value} (h : v.All P) (h' : v.All Q) :
    v.All fun u => P u ∧ Q u := by
  induction h with
  | null => exact .null
  | bool => exact .bool
  | int => exact .int
  | decimal => exact .decimal
  | str => exact .str
  | array _ ih => exact .array fun u hu => ih u hu (h'.of_items u hu)
  | hash _ ih => exact .hash fun e he => ih e he (h'.of_entries e he)
  | error => exact .error
  | function => exact .function
  | closure hp _ ih =>
    cases h' with
    | closure hq hfree => exact .closure ⟨hp, hq⟩ fun u hu => ih u hu (hfree u hu)
  | builtin hp =>
    cases h' with
    | builtin hq => exact .builtin ⟨hp, hq⟩

theorem Value.AllBodies.mono {P Q : Function → Prop} {v : Value} (h : v.AllBodies P)
    (hPQ : ∀ f, P f → Q f) : v.AllBodies Q := by
  refine Value.All.mono h fun u hu => ?_
  cases u with
  | closure stamp body free => exact hPQ body hu
  | _ => trivial

/-! ## Runs -/

/-- The world in which all code that runs satisfies `F`. -/
def World.running (w : World) (F : Function → Prop) : World :=
  { w with known := fun _ body _ => F body }

/-- The run from `m` ends with an error of its innermost call, which is `f`. -/
structure Machine.FailsIn (m : Machine) (e : RuntimeError) (f : Frame) : Prop where
  raised : ∃ m₁ m' fs, m.Steps m₁ ∧ m₁.frames = f :: fs ∧ Exec.step m₁ = (.error e.fault, m') ∧
    m.run = (.failed e, m')
  span : e.span = f.body.spans.spanAt? f.ip

section Runs

variable {w : World} {F : Function → Prop} {m m' : Machine}

theorem Machine.Sound.step_running (hs : m.Sound (w.running F))
    (hpool : ∀ f, Value.function f ∈ w.pool → F f) (hf : m.frames ≠ []) :
    Gives Exec.step m (fun _ m' => m.Keeps (w.running F) m') (m.Fails (w.running F)) := by
  refine hs.step_making hf fun {_ _ _ _ _ _ body} _ _ hb => hpool body ?_
  rw [hs.constants] at hb
  exact Array.mem_of_getElem? hb

theorem Machine.Sound.steps_running (hs : m.Sound (w.running F))
    (hpool : ∀ f, Value.function f ∈ w.pool → F f) (h : m.Steps m') : m'.Sound (w.running F) := by
  refine h.invariant (I := (·.Sound (w.running F))) hs ?_
  intro m₁ m₂ hs₁ hf hstep
  exact ((hs₁.step_running hpool hf).of_ok hstep).1

theorem Machine.Sound.allBodies (hs : m.Sound (w.running F)) : ∀ u ∈ m.globals, u.AllBodies F := by
  refine fun u hu => (hs.globals u hu).mono fun v hv => ?_
  cases v with
  | closure stamp body free => exact hv.2.2.1
  | _ => trivial

/-- A run leaves known code only, and fails only in such code. -/
theorem Machine.Sound.run_running (hs : m.Sound (w.running F))
    (hpool : ∀ f, Value.function f ∈ w.pool → F f) :
    (∀ u ∈ m.run.2.globals, u.AllBodies F) ∧
      ∀ e, m.run.1 = .failed e → ∃ f, m.FailsIn e f ∧ F f.body := by
  have hcases := m.runFor_cases m.fuel
  rcases hr : m.runFor m.fuel with ⟨outcome, m'⟩
  rw [hr] at hcases
  rw [show m.run = (outcome, m') from hr]
  cases outcome with
  | done => exact ⟨(hs.steps_running hpool hcases.1).allBodies, fun _ he => by cases he⟩
  | running => exact ⟨(hs.steps_running hpool hcases).allBodies, fun _ he => by cases he⟩
  | failed e =>
    obtain ⟨m₁, hsteps, hf, hstep, hspan⟩ := hcases
    have hs₁ := hs.steps_running hpool hsteps
    obtain ⟨-, hglobals, -, f, fs, ip, hframes, -, hstopped⟩ :=
      (hs₁.step_running hpool hf).of_error hstep
    obtain ⟨-, hframed⟩ := hs₁.frames f fs hframes
    refine ⟨hglobals ▸ hs₁.allBodies, ?_⟩
    rintro _ ⟨⟩
    refine ⟨f, ⟨⟨m₁, m', fs, hsteps, hframes, hstep, hr⟩, ?_⟩, hframed.known f List.mem_cons_self⟩
    rw [hspan f fs hframes]
    simp [Machine.faultSpan?, hstopped]

end Runs

/-! ## Entries -/

/-- The text compiles in the session, to a program of which the function is the top level or a constant
that it adds. -/
def Session.Compiles (s : Session) (text : String) (f : Function) : Prop :=
  ∃ program o, parseSource text = .ok program ∧ (s.compiler.compile program unitName).1 = .ok o ∧
    (f = o.main ∨ ∃ k, s.compiler.constants.size ≤ k ∧ o.constants[k]? = some (.function f))

/-- An entry is compiled to the function, and the spans of the function are of the text of that entry. -/
def Function.From (s₀ : Session) (sources : List String) (f : Function) : Prop :=
  ∃ before text later, sources = before ++ text :: later ∧ (s₀.after before).Compiles text f ∧
    f.spans.All (·.Within text)

theorem Function.From.append {s₀ : Session} {sources : List String} {f : Function}
    (h : f.From s₀ sources) (source : String) : f.From s₀ (sources ++ [source]) := by
  obtain ⟨before, text, later, rfl, h⟩ := h
  exact ⟨before, text, later ++ [source], by simp, h⟩

structure Session.Draws (s : Session) (F : Function → Prop) : Prop where
  constants : ∀ f, Value.function f ∈ s.compiler.constants → F f
  globals : ∀ u ∈ s.globals, u.AllBodies F

section Entries

variable {s s₀ : Session} {v : OpenScopes} {sources : List String} {source : String}
  {program : Program} {o : Object} {m : Machine}

theorem Session.Sound.begins_running {F : Function → Prop} {name : String} {limits : Limits}
    (hs : s.Sound v) (h : s.Begins program name o limits m) (hmain : F o.main)
    (hglobals : ∀ u ∈ s.globals, u.AllBodies F) : m.Sound ((s.world program name).running F) := by
  obtain ⟨hm, -, -⟩ := hs.begins h (fun _ _ _ => True) trivial fun _ _ _ _ => trivial
  obtain ⟨p, hlink, hstart⟩ := h.started
  cases hlink
  obtain ⟨-, -, rfl⟩ := Machine.start_eq hstart
  refine ⟨hm.constants, hm.room, hm.stamps, ?_, ?_, nofun, ?_⟩
  · intro u hu
    change u ∈ (Stack.ofCapacity limits.stack).live at hu
    simp [(Stack.holds_ofCapacity limits.stack).live] at hu
  · intro u hu
    have hall : u.AllBodies F := by
      rcases Array.mem_append.mp hu with hu | hu
      · exact hglobals u hu
      · rw [Array.eq_of_mem_replicate hu]
        exact .null
    refine ((hm.globals u hu).and hall).mono fun w hw => ?_
    cases w with
    | closure stamp body free =>
      obtain ⟨⟨hfirst, hnext, -, is, l, ⟨hbelow, hcode⟩, hnames⟩, hF⟩ := hw
      exact ⟨hfirst, hnext, hF, is, l, ⟨hbelow, hcode⟩, hnames⟩
    | builtin index => exact hw.1
    | _ => trivial
  · rintro f fs ⟨⟩
    obtain ⟨hat, hbase, hstamp, -, is, x, final, hruns, hrest⟩ := hm.frames _ _ rfl
    refine ⟨hat, hbase, hstamp, hmain, is, x, final, ?_, hrest⟩
    refine ⟨hruns.listed, hruns.globals, hruns.captured, fun hx => ?_, by simp⟩
    -- the top level is no closure
    obtain ⟨hfirst, -⟩ := hruns.self hx
    exact absurd (show firstStamp ≤ mainStamp from hfirst) (by decide)

/-- What an entry comes to: it is rejected with the diagnostics of a phase, or it runs. -/
theorem Session.Fits.eval_cases (h : s.Fits) (source : String) :
    (s.accepts source = false ∧ ∃ ds, s.eval source = (⟨.error ds, ""⟩, s) ∧
      (parseSource source = .error ds ∨ ∃ program errors, parseSource source = .ok program ∧
        (s.compiler.compile program unitName).1 = .error errors ∧ ds = compileDiagnostics errors)) ∨
    s.accepts source = true ∧ ∃ program o m, parseSource source = .ok program ∧
      s.Begins program unitName o s.limits m ∧
      (s.eval source).1 = m.run.2.evaluation m.run.1 ∧
      (s.eval source).2.compiler = (s.compiler.compile program unitName).2 ∧
      (s.eval source).2.globals = m.run.2.globals := by
  unfold Session.accepts Session.eval
  cases hparsed : parseSource source with
  | error ds => exact .inl ⟨rfl, ds, rfl, .inl rfl⟩
  | ok program =>
    dsimp only
    rcases hc : s.compiler.compile program unitName with ⟨errors | o, c⟩
    · exact .inl ⟨rfl, _, rfl, .inr ⟨program, errors, rfl, by rw [hc], rfl⟩⟩
    · obtain ⟨m, hstart⟩ := Machine.start_isOk ⟨o.code, o.constants, o.spans⟩ s.nextStamp h.valid
        h.globals
      refine .inr ⟨rfl, program, o, m, rfl, ⟨by rw [hc], _, rfl, hstart⟩, ?_⟩
      simp only [link, hstart, and_self, hc]

/-- The functions that compiling an entry adds are from that entry. -/
theorem Session.Begins.from_entry {limits : Limits} {f : Function}
    (h : (s₀.after sources).Begins program unitName o limits m)
    (hs : (s₀.after sources).Sound v) (hsize : source.utf8ByteSize ≤ Span.maxOffset)
    (hparsed : parseSource source = .ok program)
    (hconstants : ∀ f, Value.function f ∈ (s₀.after sources).compiler.constants → f.From s₀ sources)
    (hf : f = o.main ∨ Value.function f ∈ ((s₀.after sources).world program unitName).pool) :
    f.From s₀ (sources ++ [source]) := by
  have hspans := (parseSource_points_into hsize).2 program hparsed
  obtain ⟨-, hok, hpool⟩ := Compiler.compile_spans (c := (s₀.after sources).compiler)
    (F := fun f => f.spans.All (·.Within source) ∨
      Value.function f ∈ (s₀.after sources).compiler.constants)
    hspans (fun _ hall => .inl hall) (fun _ hold => .inr hold) unitName
  rcases hf with rfl | hmem
  · exact ⟨sources, source, [], rfl, ⟨program, o, hparsed, h.compiled, .inl rfl⟩,
      (hok o h.compiled).1⟩
  · by_cases hold : Value.function f ∈ (s₀.after sources).compiler.constants
    · exact (hconstants f hold).append source
    obtain ⟨k, hk⟩ := Array.mem_iff_getElem?.mp hmem
    have hnew : (s₀.after sources).compiler.constants.size ≤ k := by
      refine Nat.le_of_not_lt fun hlt => hold ?_
      obtain ⟨-, -, -, -, hpre, -⟩ := hs.extend program unitName
      have hsame := getElem?_of_extends hpre (Array.getElem?_eq_getElem hlt)
      rw [hsame] at hk
      exact Option.some.inj hk ▸ Array.getElem_mem hlt
    obtain ⟨_, -, -, -, hresult⟩ := hs.ready.compile program unitName
    rw [h.compiled] at hresult
    refine ⟨sources, source, [], rfl, ⟨program, o, hparsed, h.compiled, .inr ⟨k, hnew, ?_⟩⟩,
      (hpool f hmem).resolve_right hold⟩
    rw [hresult.1]
    exact hk

theorem Session.Draws.begins {limits : Limits} (h : (s₀.after sources).Draws (Function.From s₀ sources))
    (hs : (s₀.after sources).Sound v) (hsize : source.utf8ByteSize ≤ Span.maxOffset)
    (hparsed : parseSource source = .ok program)
    (hbegins : (s₀.after sources).Begins program unitName o limits m) :
    m.Sound (((s₀.after sources).world program unitName).running
        (Function.From s₀ (sources ++ [source]))) ∧
      ∀ f, Value.function f ∈ ((s₀.after sources).world program unitName).pool →
        f.From s₀ (sources ++ [source]) := by
  have hentry {f : Function} := hbegins.from_entry (f := f) hs hsize hparsed h.constants
  exact ⟨hs.begins_running hbegins (hentry (.inl rfl)) fun u hu =>
    (h.globals u hu).mono fun _ hf => hf.append source, fun f hf => hentry (.inr hf)⟩

theorem Session.Draws.after (hs : s₀.Sound v) (hfits : s₀.Fits) (h : s₀.Draws (Function.From s₀ []))
    (hsize : ∀ source ∈ sources, source.utf8ByteSize ≤ Span.maxOffset) :
    (s₀.after sources).Draws (Function.From s₀ sources) := by
  induction sources using List.reverseRecOn with
  | nil => exact h
  | append_singleton sources source ih =>
    have hdraws := ih fun other hother => hsize other (List.mem_append_left _ hother)
    obtain ⟨v', hs', -⟩ := hs.after sources
    have heval : s₀.after (sources ++ [source]) = ((s₀.after sources).eval source).2 := by
      rw [Session.after, List.foldl_append]
      rfl
    rw [heval]
    obtain ⟨-, ds, hresult, -⟩ | ⟨-, program, o, m, hparsed, hbegins, -, hcompiler, hglobals⟩ :=
      (hfits.after sources).eval_cases source
    · rw [hresult]
      exact ⟨fun f hf => (hdraws.constants f hf).append source,
        fun u hu => (hdraws.globals u hu).mono fun _ hf => hf.append source⟩
    · obtain ⟨hm, hpool⟩ := hdraws.begins hs' (hsize source (by simp)) hparsed hbegins
      exact ⟨hcompiler ▸ hpool, hglobals ▸ (hm.run_running hpool).1⟩

end Entries

/-- The diagnostics of a rejected entry point into its text. An entry that fails as it runs is labelled
in the text of the entry that the failing function was compiled from, which is that entry or an earlier
one. -/
theorem Session.eval_labelled {limits : Limits} {s₀ : Session} {sources : List String}
    {source : String} {ds : List Diagnostic} (hstart : Session.start limits = .ok s₀)
    (hsize : ∀ text ∈ source :: sources, text.utf8ByteSize < 1 <<< 32)
    (h : ((s₀.after sources).eval source).1.result = .error ds) :
    let s := s₀.after sources
    (s.accepts source = false ∧ ∀ d ∈ ds, d.PointsInto source) ∨
    s.accepts source = true ∧ ∃ program o m e f, s.Begins program unitName o s.limits m ∧
      m.FailsIn e f ∧ ds = [e.diagnostic] ∧ ∃ before text later,
        sources ++ [source] = before ++ text :: later ∧ (s₀.after before).Compiles text f.body ∧
        f.body.spans.All (·.Within text) ∧ ∀ l ∈ e.diagnostic.labels, l.span.Within text := by
  intro s
  obtain ⟨hvalid, rfl⟩ := Session.start_eq hstart
  have hmax : ∀ text ∈ source :: sources, text.utf8ByteSize ≤ Span.maxOffset :=
    fun text htext => Nat.le_of_lt_succ (hsize text htext)
  have hfits : Session.Fits { limits := limits } := ⟨hvalid, Nat.zero_le _⟩
  obtain ⟨v, hs, -⟩ := Session.Sound.initial.after sources
  have hdraws : s.Draws (Function.From { limits := limits } sources) :=
    .after .initial hfits ⟨by simp, by simp⟩ fun text htext => hmax text (List.mem_cons_of_mem _ htext)
  have hsource := hmax source List.mem_cons_self
  obtain ⟨haccepts, ds', heval, hphase⟩ | ⟨haccepts, program, o, m, hparsed, hbegins, heval, -⟩ :=
    (hfits.after sources).eval_cases source
  · obtain rfl : ds' = ds := Except.error.inj ((congrArg (·.1.result) heval).symm.trans h)
    refine .inl ⟨haccepts, ?_⟩
    obtain hparsed | ⟨program, errors, hparsed, hcompiled, rfl⟩ := hphase
    · exact (parseSource_points_into hsource).1 _ hparsed
    · exact s.compiler.rejects_into hsource hparsed hcompiled
  · obtain ⟨hm, hpool⟩ := hdraws.begins hs hsource hparsed hbegins
    rcases hrun : m.run with ⟨outcome, m'⟩
    obtain ⟨e, rfl⟩ : ∃ e, outcome = .failed e := by
      rw [heval, hrun] at h
      cases outcome <;> simp [Machine.evaluation] at h ⊢
    obtain ⟨f, hfails, before, text, later, htext, hcompiles, hall⟩ :=
      (hm.run_running hpool).2 e (by rw [hrun])
    refine .inr ⟨haccepts, program, o, m, e, f, hbegins, hfails, ?_, before, text, later, htext,
      hcompiles, hall, ?_⟩
    · rw [heval, hrun] at h
      exact (Except.error.inj h).symm
    · exact RuntimeError.labels_within fun span hspan => hall.spanAt? (hfails.span.symm.trans hspan)

/-- A division by zero in a function of the first entry, which the second one calls. -/
theorem Session.eval_labelled_quotient :
    let limits : Limits := ⟨8, 2, 2, some 40⟩
    let first := "let f = fn(x) \x7b 1 / x \x7d;"
    ∃ s₀ ds, Session.start limits = .ok s₀ ∧
      ((s₀.after [first]).eval "f(0)").1.result = .error ds ∧
      ∃ m e f, Machine.FailsIn m e f ∧ ds = [e.diagnostic] ∧ e.diagnostic.labels.map (·.span) = [⟨16, 21⟩] ∧
        s₀.Compiles first f.body ∧ f.body.spans.All (·.Within first) ∧
        ∀ l ∈ e.diagnostic.labels, l.span.Within first := by
  intro limits first
  obtain ⟨s₀, hs₀⟩ : ∃ s₀ : Session, s₀ = { limits := limits } := ⟨_, rfl⟩
  have hstart : Session.start limits = .ok s₀ := hs₀ ▸ rfl
  have hmarked : (match ((s₀.after [first]).eval "f(0)").1.result with
      | .error ds => decide (ds.map (·.labels.map (·.span)) = [[⟨16, 21⟩]])
      | .ok _ => false) = true := by
    rw [hs₀]
    decide +kernel
  have haccepts : (s₀.after [first]).accepts "f(0)" = true := by
    rw [hs₀]
    decide +kernel
  cases hresult : ((s₀.after [first]).eval "f(0)").1.result with
  | ok v => simp [hresult] at hmarked
  | error ds =>
    rw [hresult] at hmarked
    rcases Session.eval_labelled hstart (by decide +kernel) hresult with ⟨hrejects, -⟩ | h
    · simp [haccepts] at hrejects
    obtain ⟨-, -, -, m, e, f, -, hfails, rfl, before, text, later, htexts, hcompiles, hall, hlabels⟩ := h
    have hspans : e.diagnostic.labels.map (·.span) = [⟨16, 21⟩] := by
      simpa using of_decide_eq_true hmarked
    rcases before with _ | ⟨_, _ | ⟨_, before⟩⟩
    · cases htexts
      exact ⟨s₀, _, hstart, hresult, m, e, f, hfails, rfl, hspans, hcompiles, hall, hlabels⟩
    · -- the span does not fit in the second entry
      cases htexts
      obtain ⟨l, hl, hspan⟩ : ∃ l ∈ e.diagnostic.labels, l.span = ⟨16, 21⟩ := by
        have hmem : (⟨16, 21⟩ : Span) ∈ e.diagnostic.labels.map (·.span) := by simp [hspans]
        exact List.mem_map.mp hmem
      have hstop := (hlabels l hl).stop_le
      rw [hspan] at hstop
      exact absurd hstop (by decide +kernel)
    · simp at htexts

end StackScript
