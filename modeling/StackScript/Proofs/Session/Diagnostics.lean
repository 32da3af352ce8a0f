import StackScript.Proofs.Session.LongCode

/-! # Where diagnostics point

The diagnostics of a program point into its source: each phase passes on spans of the phases before it,
and the lexer makes them of whole characters.
-/

namespace StackScript

/-- The diagnostic marks where the failure is, and all its labels are on whole characters of the
source. -/
structure Diagnostic.PointsInto (d : Diagnostic) (source : String) : Prop where
  primary : ∃ l ∈ d.labels, l.primary = true
  within : ∀ l ∈ d.labels, l.span.Within source

section Phases

variable {source : String}

theorem LexError.points_into {e : LexError} (h : e.span.Within source) :
    e.diagnostic.PointsInto source :=
  ⟨by simp [LexError.diagnostic, Diagnostic.mark], by simpa [LexError.diagnostic, Diagnostic.mark]⟩

theorem ParseError.points_into {e : ParseError} (h : e.Spans (·.Within source)) :
    e.diagnostic.PointsInto source := by
  have hspan := h.span
  cases hcause : e.cause with
  | unclosedDelimiter delimiter openedAt =>
    have hopened := h.opened delimiter openedAt hcause
    constructor <;>
      simp [ParseError.diagnostic, hcause, Diagnostic.mark, Diagnostic.relate, hspan, hopened]
  | unexpectedToken _ _ | expectedExpression _ | expectedIdentifier _ =>
    constructor <;> simp [ParseError.diagnostic, hcause, Diagnostic.mark, hspan]

/-- However an error of the compiler is worded, it has one label, which is primary. -/
theorem CompileError.labels_diagnostic (e : CompileError) :
    ∃ message, e.diagnostic.labels = [⟨e.span, message, true⟩] := by
  unfold CompileError.diagnostic
  split <;> exact ⟨_, rfl⟩

theorem CompileError.points_into {e : CompileError} (h : e.span.Within source) :
    e.diagnostic.PointsInto source := by
  obtain ⟨message, hlabels⟩ := e.labels_diagnostic
  constructor <;> simp [hlabels, h]

/-- A runtime error has one label, which is primary, when its span is known, and none otherwise. -/
theorem RuntimeError.labels_diagnostic (e : RuntimeError) :
    ∃ message, e.diagnostic.labels = (e.span.map (⟨·, message, true⟩)).toList := by
  unfold RuntimeError.diagnostic
  cases e.span with
  | none => exact ⟨"", rfl⟩
  | some span =>
    dsimp only
    split <;> exact ⟨_, rfl⟩

theorem RuntimeError.labels_within {e : RuntimeError}
    (h : ∀ span, e.span = some span → span.Within source) :
    ∀ l ∈ e.diagnostic.labels, l.span.Within source := by
  obtain ⟨message, hlabels⟩ := e.labels_diagnostic
  intro l hl
  rw [hlabels, Option.mem_toList, Option.map_eq_some_iff] at hl
  obtain ⟨span, hspan, rfl⟩ := hl
  exact h span hspan

theorem RuntimeError.points_into {e : RuntimeError} (hsome : e.span.isSome = true)
    (h : ∀ span, e.span = some span → span.Within source) : e.diagnostic.PointsInto source := by
  refine ⟨?_, labels_within h⟩
  obtain ⟨message, hlabels⟩ := e.labels_diagnostic
  obtain ⟨span, hspan⟩ := Option.isSome_iff_exists.mp hsome
  exact ⟨⟨span, message, true⟩, by rw [hlabels, hspan]; simp, rfl⟩

theorem parseSource_points_into (hsize : source.utf8ByteSize ≤ Span.maxOffset) :
    (∀ ds, parseSource source = .error ds → ∀ d ∈ ds, d.PointsInto source) ∧
      ∀ program, parseSource source = .ok program →
        stmtsSpans (·.Within source) program.statements := by
  have hlexed := Token.lex_within hsize
  have hparsed := parse_spans (Span.Within.closed source)
    (fun t ht => hlexed.tokens t (Array.mem_toList_iff.mp ht))
  unfold parseSource
  dsimp only
  split
  · refine ⟨fun ds hds d hd => ?_, fun _ h => by cases h⟩
    cases hds
    obtain ⟨e, he, rfl⟩ := List.mem_map.mp hd
    exact LexError.points_into (hlexed.errors e (Array.mem_toList_iff.mp he))
  · split
    · refine ⟨fun ds hds d hd => ?_, fun _ h => by cases h⟩
      cases hds
      obtain ⟨e, he, rfl⟩ := List.mem_map.mp hd
      exact ParseError.points_into (hparsed.2 e (Array.mem_toList_iff.mp he))
    · constructor
      · intro _ h
        cases h
      · intro program h
        cases h
        exact hparsed.1

theorem compileSource_cases (source : String) :
    (∃ ds, compileSource source = .error ds ∧ (parseSource source = .error ds ∨
      ∃ program errors, parseSource source = .ok program ∧ compile program unitName = .error errors ∧
        ds = compileDiagnostics errors)) ∨
    ∃ program o, parseSource source = .ok program ∧ compile program unitName = .ok o ∧
      compileSource source = .ok ⟨o.code, o.constants, o.spans⟩ := by
  unfold compileSource
  cases hparsed : parseSource source with
  | error ds => exact .inl ⟨ds, rfl, .inl rfl⟩
  | ok program =>
    cases hcompiled : compile program unitName with
    | error errors =>
      refine .inl ⟨compileDiagnostics errors, ?_, .inr ⟨program, errors, rfl, hcompiled, rfl⟩⟩
      simp only [bind, Except.bind, hcompiled, Except.mapError]
    | ok o =>
      refine .inr ⟨program, o, rfl, hcompiled, ?_⟩
      simp only [bind, Except.bind, hcompiled, Except.mapError, link]

theorem Compiler.rejects_into (c : Compiler) {program : Program} {errors : Array CompileError}
    (hsize : source.utf8ByteSize ≤ Span.maxOffset) (hparsed : parseSource source = .ok program)
    (hcompiled : (c.compile program unitName).1 = .error errors) :
    ∀ d ∈ compileDiagnostics errors, d.PointsInto source := by
  intro d hd
  obtain ⟨e, he, rfl⟩ := List.mem_map.mp hd
  have hspans := (parseSource_points_into hsize).2 program hparsed
  obtain ⟨hwithin, -⟩ := Compiler.compile_spans (F := fun _ => True) hspans (fun _ _ => trivial)
    (fun _ _ => trivial) unitName
  exact CompileError.points_into (hwithin errors hcompiled e (Array.mem_toList_iff.mp he))

theorem compileSource_points_into (hsize : source.utf8ByteSize ≤ Span.maxOffset) {ds : List Diagnostic}
    (h : compileSource source = .error ds) : ∀ d ∈ ds, d.PointsInto source := by
  rcases compileSource_cases source with ⟨ds', hds, hcases⟩ | ⟨_, _, -, -, hok⟩
  · obtain rfl : ds' = ds := Except.error.inj (hds.symm.trans h)
    obtain hparsed | ⟨program, errors, hparsed, hcompiled, rfl⟩ := hcases
    · exact (parseSource_points_into hsize).1 ds' hparsed
    · exact Compiler.rejects_into {} hsize hparsed hcompiled
  · rw [hok] at h
    cases h

end Phases

/-- A source either fails to compile, or its run fails at an instruction of the program. In both cases
everything that is labelled is in the source. What the lexer, the parser and the compiler report has a
primary label; an error of the run has one if the offset of the instruction can be recorded, and its
span is that of the instruction if the offset is not the last such one. -/
theorem runSource_points_into {source : String} {limits : Limits} {ds : List Diagnostic}
    (hsize : source.utf8ByteSize < 1 <<< 32) (hvalid : limits.validate = .ok ())
    (h : (runSource source limits).result = .error ds) :
    (compileSource source = .error ds ∧ ∀ d ∈ ds, d.PointsInto source) ∨
    ∃ program o m m' e i, parseSource source = .ok program ∧ compile program unitName = .ok o ∧
      Machine.start ⟨o.code, o.constants, o.spans⟩ limits #[] firstStamp = .ok m ∧
      m.FailsAt m' o program e i ∧ ds = [e.diagnostic] ∧
      (∀ l ∈ e.diagnostic.labels, l.span.Within source) ∧
      (i.offset ≤ Span.maxOffset → e.diagnostic.PointsInto source) ∧
      (i.offset < Span.maxOffset → e.span = some i.span) := by
  have hmax : source.utf8ByteSize ≤ Span.maxOffset := Nat.le_of_lt_succ hsize
  rcases compileSource_cases source with ⟨ds', hds, -⟩ | ⟨program, o, hparsed, hcompiled, hok⟩
  · obtain rfl : ds' = ds := by simpa [runSource, hds] using h
    exact .inl ⟨hds, compileSource_points_into hmax hds⟩
  obtain ⟨m, hstart⟩ : ∃ m, Machine.start ⟨o.code, o.constants, o.spans⟩ limits #[] firstStamp = .ok m :=
    Machine.start_isOk _ _ hvalid (Nat.zero_le _)
  obtain ⟨w, hw, hsound⟩ := Session.Begins.traces ⟨hcompiled, _, rfl, hstart⟩
  rcases hrun : m.run with ⟨outcome, m'⟩
  obtain ⟨e, rfl⟩ : ∃ e, outcome = .failed e := by
    cases outcome <;> simp [runSource, hok, hstart, hrun, Machine.evaluation] at h ⊢
  obtain ⟨i, hfails, hsome, hspan, hall⟩ := hsound.failsAt hw hrun
  have hspans := (parseSource_points_into hmax).2 program hparsed
  have hwithin := hall _ ((compile_spans hspans unitName).2 o hcompiled)
  refine .inr ⟨program, o, m, m', e, i, hparsed, hcompiled, hstart, hfails, ?_,
    RuntimeError.labels_within hwithin, fun hle => RuntimeError.points_into (hsome hle) hwithin, hspan⟩
  simpa [runSource, hok, hstart, hrun, Machine.evaluation] using h.symm

/-- A division by zero behind a character of two bytes. -/
theorem runSource_points_into_quotient :
    let source := "\"é\"; 1 / 0"
    let limits : Limits := ⟨2, 1, 0, some 5⟩
    ∃ ds, (runSource source limits).result = .error ds ∧ ∃ program o m m' e i,
      parseSource source = .ok program ∧ compile program unitName = .ok o ∧
      Machine.FailsAt m m' o program e i ∧ ds = [e.diagnostic] ∧
      (i.offset ≤ Span.maxOffset → e.diagnostic.PointsInto source) ∧
      (i.offset < Span.maxOffset → e.span = some i.span) := by
  intro source limits
  have hfails : (runSource source limits).result.toBool = false := by decide +kernel
  have hcompiles : (compileSource source).toBool = true := by decide +kernel
  cases hresult : (runSource source limits).result with
  | ok v => simp [hresult, Except.toBool] at hfails
  | error ds =>
    refine ⟨ds, rfl, ?_⟩
    rcases runSource_points_into (by decide +kernel) rfl hresult with ⟨herror, -⟩ | h
    · simp [herror, Except.toBool] at hcompiles
    · obtain ⟨program, o, m, m', e, i, hparsed, hcompiled, -, hat, hds, -, hpoints, hspan⟩ := h
      exact ⟨program, o, m, m', e, i, hparsed, hcompiled, hat, hds, hpoints, hspan⟩

/-- Not every diagnostic has a label: the offset of the failing instruction is `2 ^ 32` here, in the code of
a source of `3 * 2 ^ 30 + 3` bytes. -/
theorem runSource_emptyArrays_unlabelled :
    let source := emptyArrays (1 <<< 30 + 1)
    let limits : Limits := { budget := some (1 <<< 31) }
    source.utf8ByteSize < 1 <<< 32 ∧ limits.validate = .ok () ∧
      ∃ d, (runSource source limits).result = .error [d] ∧ ¬ d.PointsInto source := by
  intro source limits
  have hvalid : limits.validate = .ok () := rfl
  refine ⟨?_, hvalid, _, runSource_emptyArrays hvalid rfl (Nat.lt_succ_self _) (by decide), ?_⟩
  · rw [utf8ByteSize_emptyArrays]
    decide
  · rintro ⟨⟨l, hl, -⟩, -⟩
    cases hl

end StackScript
