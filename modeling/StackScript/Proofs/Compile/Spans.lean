import StackScript.Proofs.Compile.Functions
import StackScript.Proofs.Compile.Loops
import StackScript.Proofs.Compile.Programs
import StackScript.Proofs.Tree.Spans

/-! # Spans in compiled code

The compiler takes the spans of its errors and of its instructions from the tree. So whatever holds of
the spans of a program holds of its compile errors and of the span maps of its code.
-/

namespace StackScript

/-- The spans of the code satisfy `P`, and all function constants `F`. -/
structure Compiler.Spans (P : Span → Prop) (F : Function → Prop) (c : Compiler) : Prop where
  unit : c.unit.spans.All P
  constants : ∀ f, Value.function f ∈ c.constants → F f

theorem SpanMap.All.removeLast {P : Span → Prop} {u : CodeUnit} (h : u.spans.All P) :
    u.removeLast.spans.All P := by
  unfold CodeUnit.removeLast
  split
  · exact h.truncate
  · exact h

namespace Compile

variable {P : Span → Prop} {F : Function → Prop} {α β : Type} {x : Compile α} {f : α → Compile β}
  {span : Span}

/-- The step records spans in `P` only, also in its error, whatever holds of the functions that are
there. -/
def Marks (P : Span → Prop) (x : Compile α) : Prop :=
  ∀ F : Function → Prop, (∀ f, f.spans.All P → F f) → ∀ c : Compiler, c.Spans P F →
    Gives x c (fun _ c' => c'.Spans P F) fun e c' => P e.span ∧ c'.Spans P F

namespace Marks

theorem bind (h : Marks P x) (hf : ∀ a, Marks P (f a)) : Marks P (x >>= f) :=
  fun F hF c hc => (h F hF c hc).bind (fun _ _ he => he) fun a c' hc' => hf a F hF c' hc'

theorem pure (a : α) : Marks P (Pure.pure a) := fun _ _ _ hc => hc

theorem get : Marks P get := fun _ _ _ hc => hc

theorem discard (h : Marks P x) : Marks P (discard x) :=
  fun F hF c hc => (h F hF c hc).discard

theorem map (h : Marks P x) (g : α → β) : Marks P (g <$> x) :=
  fun F hF c hc => ((h F hF c hc).map g).mono (fun _ _ ⟨_, _, hc'⟩ => hc') fun _ _ he => he

theorem ite {b : Prop} [Decidable b] {y : Compile α} (h : Marks P x) (h' : Marks P y) :
    Marks P (if b then x else y) := by
  split
  · exact h
  · exact h'

theorem fail (h : P span) (cause : CompileError.Cause) : Marks P (fail cause span : Compile α) :=
  fun _ _ _ hc => ⟨h, hc⟩

theorem unit : Marks P unit := fun _ _ _ hc => hc

theorem here : Marks P here := fun _ _ _ hc => hc

theorem modifyUnit {g : CodeUnit → CodeUnit} (h : ∀ u, u.spans.All P → (g u).spans.All P) :
    Marks P (modifyUnit g) := fun _ _ _ hc => ⟨h _ hc.unit, hc.constants⟩

theorem onUnit (h : P span) {step : Emit α}
    (hstep : Keeps (fun u : CodeUnit => u.spans.All P) step) : Marks P (onUnit span step) := by
  intro F hF c hc
  have hu := hstep c.unit hc.unit
  unfold Gives at hu ⊢
  unfold Compile.onUnit
  rcases hs : step c.unit with ⟨e | a, u⟩ <;> rw [hs] at hu <;> simp only [hs]
  · exact ⟨h, hu, hc.constants⟩
  · exact ⟨hu, hc.constants⟩

theorem onScopes (h : P span) (step : Scoping α) : Marks P (onScopes span step) := by
  intro F hF c hc
  unfold Gives Compile.onScopes
  rcases hs : step c.scopes with ⟨e | a, t⟩ <;> simp only [hs]
  · exact ⟨h, hc.unit, hc.constants⟩
  · exact ⟨hc.unit, hc.constants⟩

theorem bracket {g k : Compiler → Compiler} (hg : ∀ F c, c.Spans P F → (g c).Spans P F)
    (hk : ∀ F c, c.Spans P F → (k c).Spans P F) {x : Compile Unit} (h : Marks P x) :
    Marks P (do
      modify g
      let result ← observing x
      modify k
      ofExcept result) :=
  fun F hF c hc => Gives.bracket ((h F hF _ (hg F c hc)).mono (fun _ c' hc' => hk F c' hc')
    fun _ c' he => ⟨he.1, hk F c' he.2⟩)

theorem holding (n : Nat) {x : Compile Unit} (h : Marks P x) : Marks P (holding n x) :=
  bracket (g := fun c => { c with unit := c.unit.hold n })
    (k := fun c => { c with unit := c.unit.release n }) (fun _ _ hc => ⟨hc.unit, hc.constants⟩)
    (fun _ _ hc => ⟨hc.unit, hc.constants⟩) h

theorem blockWith (kind : BlockKind) {x : Compile Unit} (h : Marks P x) : Marks P (blockWith kind x) :=
  bracket (g := fun c => { c with scopes := c.scopes.enterBlock kind })
    (k := fun c => { c with scopes := c.scopes.leaveBlock })
    (fun _ _ hc => ⟨hc.unit, hc.constants⟩) (fun _ _ hc => ⟨hc.unit, hc.constants⟩) h

theorem loopWith {x : Compile Unit} (h : Marks P x) : Marks P (loopWith x) := by
  intro F hF c hc
  have hleave (c : Compiler) (hc : c.Spans P F) :
      Compiler.Spans P F { c with unit := c.unit.leaveLoop.2 } := by
    refine ⟨?_, hc.constants⟩
    unfold CodeUnit.leaveLoop
    split <;> exact hc.unit
  have hin := h F hF { c with unit := c.unit.enterLoop } ⟨hc.unit, hc.constants⟩
  exact Gives.loopWith (hin.mono (fun _ c' hc' => hleave c' hc')
    fun _ c' he => ⟨he.1, hleave c' he.2⟩)

end Marks

section Steps

variable (hspan : P span)
include hspan

theorem emit_marks (op : Opcode) (operands : List Nat) : Marks P (emit op operands span) := by
  refine .onUnit hspan ?_
  unfold CodeUnit.emit
  split
  · exact .throw _
  · exact Keeps.get.bind fun u => Keeps.bind (.modify fun _ hu => hu.push hspan) fun _ => .pure _

theorem write_marks (op : Opcode) (operands : List Nat) : Marks P (discard (emit op operands span)) :=
  (emit_marks hspan op operands).discard

theorem emitJump_marks (op : Opcode) : Marks P (emitJump op span) := emit_marks hspan op _

theorem emitJumpTo_marks (op : Opcode) (target : Nat) : Marks P (emitJumpTo op target span) :=
  .ite (write_marks hspan op _) (.fail hspan _)

theorem patchJump_marks (position target : Nat) : Marks P (patchJump position target span) := by
  refine .onUnit hspan ?_
  unfold CodeUnit.patchJump
  exact .ite (Keeps.get.bind fun u => .ite (.modify fun _ hu => hu) (.throw _)) (.throw _)

theorem patchHere_marks (position : Nat) : Marks P (patchHere position span) :=
  Marks.here.bind fun _ => patchJump_marks hspan position _

theorem patchExit_marks (exit : Option Nat) : Marks P (patchExit span exit) := by
  cases exit with
  | none => exact .pure _
  | some position => exact patchHere_marks hspan position

theorem patchAll_marks (target : Nat) (jumps : List Nat) : Marks P (patchAll target span jumps) := by
  induction jumps with
  | nil => exact .pure _
  | cons jump jumps ih => exact (patchJump_marks hspan jump target).bind fun _ => ih

theorem emitPops_marks (n : Nat) : Marks P (emitPops span n) := by
  induction n with
  | zero => exact .pure _
  | succ n ih => exact (write_marks hspan .pop []).bind fun _ => ih

theorem emitLoopExit_marks (outside : CompileError.Cause) : Marks P (emitLoopExit outside span) := by
  refine Marks.unit.bind fun u => ?_
  cases u.exitPops? with
  | none => exact .fail hspan _
  | some pops => exact (emitPops_marks hspan pops).bind fun _ => emitJump_marks hspan .jump

theorem addConstant_marks {v : Value} (hv : ∀ f, v = .function f → f.spans.All P) :
    Marks P (addConstant v span) := by
  refine Marks.get.bind fun c => .ite ?_ (.fail hspan _)
  refine Marks.bind (fun F hF c hc => ?_) fun _ => .pure _
  refine ⟨hc.unit, fun f hf => ?_⟩
  rcases Array.mem_push.mp hf with h | h
  · exact hc.constants f h
  · exact hF f (hv f h.symm)

theorem emitConstant_marks {v : Value} (hv : ∀ f, v ≠ .function f) : Marks P (emitConstant v span) :=
  (addConstant_marks hspan fun f h => absurd h (hv f)).bind fun _ => write_marks hspan .constant _

theorem resolve_marks (name : String) : Marks P (resolve name span) := by
  refine Marks.get.bind fun c => ?_
  split <;> exact .onScopes hspan _

theorem load_marks (s : Symbol) : Marks P (load s span) := by
  unfold load
  split <;> exact write_marks hspan _ _

theorem assignable_marks (name : String) : Marks P (assignable name span) :=
  (resolve_marks hspan name).bind fun _ => .ite (.pure _) (.fail hspan _)

theorem loadCaptured_marks (symbols : List Symbol) : Marks P (loadCaptured span symbols) := by
  induction symbols with
  | nil => exact .pure _
  | cons s symbols ih =>
    exact (resolve_marks hspan s.name).bind fun s => (load_marks hspan s).bind fun _ => ih

theorem keepBlockValue_marks : Marks P (keepBlockValue span) :=
  Marks.unit.bind fun _ => .ite (.modifyUnit fun _ hu => hu.removeLast)
    (write_marks hspan .null [])

theorem returnBodyValue_marks : Marks P (returnBodyValue span) := by
  refine Marks.unit.bind fun u => .ite (.modifyUnit fun u hu => ?_)
    (.ite (.pure _) (write_marks hspan .ret []))
  unfold CodeUnit.returnLast
  split <;> exact hu

theorem closure_marks (self : Option String) (params : List Ident) {written : CodeUnit}
    (hwritten : written.spans.All P) (symbols : FunctionSymbols) :
    Marks P (closure self params span written symbols) := by
  refine (loadCaptured_marks hspan _).bind fun _ => .ite ?_ (.fail hspan _)
  refine (addConstant_marks hspan ?_).bind fun _ => write_marks hspan .closure _
  rintro f hf
  cases hf
  exact hwritten

omit hspan in
theorem inBody_marks (self : Option String) {params : List Ident} (hparams : ∀ p ∈ params, P p.span)
    {step : Compile Unit} (hstep : Marks P step) : Marks P (inBody self params step) := by
  have hdefine : Marks P (defineParams params) := by
    induction params with
    | nil => exact .pure _
    | cons p params ih =>
      exact (Marks.onScopes (hparams p (by simp)) _).discard.bind fun _ =>
        ih fun q hq => hparams q (by simp [hq])
  cases self with
  | none => exact hdefine.bind fun _ => hstep
  | some name =>
    exact Marks.bind (fun _ _ _ hc => ⟨hc.unit, hc.constants⟩) fun _ => hdefine.bind fun _ => hstep

theorem functionWith_marks (self : Option String) {params : List Ident} {bodySpan : Span}
    {body : Compile Unit} (hparams : ∀ p ∈ params, P p.span) (hbodySpan : P bodySpan)
    (hbody : Marks P body) : Marks P (functionWith self params span bodySpan body) := by
  intro F hF c hc
  have hinner := inBody_marks self hparams (hbody.bind fun _ => returnBodyValue_marks hbodySpan)
  refine Gives.functionWith ((hinner F hF (c.enterBody self) ⟨.empty, hc.constants⟩).mono ?_ ?_)
  · exact fun _ c' hc' =>
      closure_marks hspan self params hc'.unit _ F hF _ ⟨hc.unit, hc'.constants⟩
  · exact fun _ c' he => ⟨he.1, hc.unit, he.2.constants⟩

theorem rounds_marks {condition last : Option Expr} {body : Compile Unit} (toStart : Bool)
    (hcondition : ∀ e, condition = some e → P e.span ∧ Marks P (expr e))
    (hlast : ∀ e, last = some e → P e.span ∧ Marks P (expr e)) (hbody : Marks P body) :
    Marks P (rounds condition last toStart body span) := by
  have hguard : Marks P (guard condition) := by
    cases condition with
    | none => exact .pure _
    | some e =>
      obtain ⟨he, hexpr⟩ := hcondition e rfl
      exact hexpr.bind fun _ => (emitJump_marks he _).map _
  have hupdate : Marks P (update last) := by
    cases last with
    | none => exact .pure _
    | some e =>
      obtain ⟨he, hexpr⟩ := hlast e rfl
      exact hexpr.bind fun _ => write_marks he _ _
  exact Marks.here.bind fun _ => hguard.bind fun _ => hbody.loopWith.bind fun _ => Marks.here.bind fun _ =>
    hupdate.bind fun _ => (emitJumpTo_marks hspan _ _).bind fun _ =>
      (patchExit_marks hspan _).bind fun _ => Marks.here.bind fun _ =>
        (patchAll_marks hspan _ _).bind fun _ => patchAll_marks hspan _ _

end Steps

mutual

theorem expr_marks : (e : Expr) → e.Spans P → Marks P (expr e)
  | .int _ _, h | .decimal _ _, h | .str _ _, h => emitConstant_marks h (by simp)
  | .bool _ _, h | .null _, h => write_marks h _ _
  | .ident name _, h => (resolve_marks h name).bind fun s => load_marks h s
  | .unary _ e _, h => (expr_marks e h.1).bind fun _ => write_marks h.2 _ _
  | .binary op left right _, h => by
    obtain ⟨hl, hr, hspan⟩ := h
    rw [expr]
    cases op.operator? with
    | none => exact .fail hspan _
    | some operator =>
      exact (expr_marks left hl).bind fun _ => ((expr_marks right hr).holding 1).bind fun _ =>
        write_marks hspan _ _
  | .cond condition consequence alternative span, h => by
    obtain ⟨hc, hb, ha, hspan⟩ := h
    rw [expr_cond]
    have halternative : Marks P (Compile.alternative span alternative) := by
      cases alternative with
      | none => exact write_marks hspan _ _
      | some b => exact branch_marks b ha
    exact (expr_marks condition hc).bind fun _ => (emitJump_marks hspan _).bind fun _ =>
      (branch_marks consequence hb).bind fun _ => (emitJump_marks hspan _).bind fun _ =>
        (patchHere_marks hspan _).bind fun _ => halternative.bind fun _ => patchHere_marks hspan _
  | .function name _ (.mk body _) _, h =>
    functionWith_marks h.2.2 name h.1 h.2.1.2 (statements_marks body h.2.1.1)
  | .call callee args _, h => (expr_marks callee h.1).bind fun _ =>
      (exprs_marks 1 args h.2.1).bind fun _ => write_marks h.2.2 _ _
  | .array items _, h => (exprs_marks 0 items h.1).bind fun _ => write_marks h.2 _ _
  | .hash ps _, h => (pairs_marks 0 ps h.1).bind fun _ => write_marks h.2 _ _
  | .index target index _, h => (expr_marks target h.1).bind fun _ =>
      ((expr_marks index h.2.1).holding 1).bind fun _ => write_marks h.2.2 _ _
  | .assign target value span, h => by
    obtain ⟨ht, hv, hspan⟩ := h
    cases target with
    | ident name targetSpan =>
      exact (assignable_marks ht name).bind fun s => (expr_marks value hv).bind fun _ =>
        (write_marks hspan _ _).bind fun _ => load_marks hspan s
    | index aggregate index _ =>
      cases aggregate with
      | ident name aggregateSpan =>
        exact (assignable_marks ht.1 name).bind fun s => (expr_marks index ht.2.1).bind fun _ =>
          ((expr_marks value hv).holding 1).bind fun _ => write_marks hspan _ _
      | _ => exact .fail ht.1.span _
    | _ => exact .fail ht.span _

theorem exprs_marks : (held : Nat) → (es : List Expr) → exprsSpans P es → Marks P (exprs held es)
  | _, [], _ => .pure _
  | held, e :: es, h => ((expr_marks e h.1).holding held).bind fun _ => exprs_marks (held + 1) es h.2

theorem pairs_marks : (held : Nat) → (ps : List (Expr × Expr)) → pairsSpans P ps →
    Marks P (pairs held ps)
  | _, [], _ => .pure _
  | held, (key, value) :: ps, h => ((expr_marks key h.1).holding held).bind fun _ =>
      ((expr_marks value h.2.1).holding (held + 1)).bind fun _ => pairs_marks (held + 2) ps h.2.2

theorem branch_marks : (b : Block) → b.Spans P → Marks P (branch b)
  | .mk body _, h => ((statements_marks body h.1).blockWith .cond).bind fun _ =>
      keepBlockValue_marks h.2

theorem stmt_marks : (s : Stmt) → s.Spans P → Marks P (stmt s)
  | .bind name value span, h => by
    obtain ⟨hn, hv, hspan⟩ := h
    have hvalue : Marks P (do expr value; store (← define name) span) :=
      (expr_marks value hv).bind fun _ => (Marks.onScopes hn _).bind fun _ => write_marks hspan _ _
    cases value with
    | function own params b valueSpan =>
      cases b with
      | mk body bodySpan =>
        obtain ⟨hparams, hbody, hvalueSpan⟩ := hv
        exact (Marks.onScopes hn _).bind fun _ =>
          (functionWith_marks hvalueSpan _ hparams hbody.2 (statements_marks body hbody.1)).bind fun _ =>
            write_marks hspan _ _
    | _ => exact hvalue
  | .ret none _, h => write_marks h.2 _ _
  | .ret (some e) _, h => (expr_marks e h.1).bind fun _ => write_marks h.2 _ _
  | .expr e _, h => (expr_marks e h.1).bind fun _ => write_marks h.1.span _ _
  | .whileLoop condition (.mk body bodySpan) span, h => by
    obtain ⟨hc, hb, hspan⟩ := h
    rw [stmt_whileLoop]
    refine rounds_marks hspan true (fun e he => ?_) nofun ((statements_marks body hb.1).blockWith .loop)
    cases he
    exact ⟨hc.span, expr_marks condition hc⟩
  | .forLoop first condition last (.mk body bodySpan) span, h => by
    obtain ⟨hi, hc, hu, hb, hspan⟩ := h
    rw [stmt_forLoop]
    have hinit : Marks P (init first) := by
      cases first with
      | none => exact .pure _
      | some s => exact stmt_marks s hi
    refine Marks.blockWith .loop (hinit.bind fun _ => rounds_marks hspan false ?_ ?_
      (statements_marks body hb.1))
    · intro e he
      cases condition with
      | none => cases he
      | some value =>
        have hmarks := expr_marks value hc
        cases he
        exact ⟨Expr.Spans.span hc, hmarks⟩
    · intro e he
      cases last with
      | none => cases he
      | some value =>
        have hmarks := expr_marks value hu
        cases he
        exact ⟨Expr.Spans.span hu, hmarks⟩
  | .breakLoop _, h => by
    refine (emitLoopExit_marks h _).bind fun _ => .modifyUnit fun u hu => ?_
    unfold CodeUnit.addBreak
    split <;> exact hu
  | .continueLoop _, h => by
    refine (emitLoopExit_marks h _).bind fun _ => .modifyUnit fun u hu => ?_
    unfold CodeUnit.addContinue
    split <;> exact hu

theorem statements_marks : (ss : List Stmt) → stmtsSpans P ss → Marks P (statements ss)
  | [], _ => .pure _
  | s :: ss, h => (stmt_marks s h.1).bind fun _ => statements_marks ss h.2

end

end Compile

structure Object.Spans (P : Span → Prop) (o : Object) : Prop where
  main : o.spans.All P
  constants : ∀ f, Value.function f ∈ o.constants → f.spans.All P

section Programs

variable {P : Span → Prop} {F : Function → Prop} {c : Compiler} {program : Program}

theorem topLevel_spans {ss : List Stmt} (hss : stmtsSpans P ss) (hF : ∀ f, f.spans.All P → F f)
    {errors : Array CompileError} (herrors : ∀ e ∈ errors, P e.span) (hc : c.Spans P F) :
    (∀ e ∈ (Compile.topLevel ss errors c).1, P e.span) ∧
      (Compile.topLevel ss errors c).2.Spans P F := by
  induction ss generalizing errors c with
  | nil => exact ⟨herrors, hc⟩
  | cons s ss ih =>
    rw [topLevel_cons]
    have hs := Compile.stmt_marks s hss.1 F hF c hc
    unfold Gives at hs
    rcases hr : Compile.stmt s c with ⟨e | _, c'⟩ <;> rw [hr] at hs
    · refine ih hss.2 (fun e' he' => ?_) hs.2
      rcases Array.mem_push.mp he' with h | rfl
      · exact herrors e' h
      · exact hs.1
    · exact ih hss.2 herrors hs

/-- What holds of the spans of a program holds of its compile errors and of the spans of its code,
whatever has been compiled before. -/
theorem Compiler.compile_spans (h : stmtsSpans P program.statements)
    (hF : ∀ f, f.spans.All P → F f) (hc : ∀ f, Value.function f ∈ c.constants → F f) (name : String) :
    (∀ errors, (c.compile program name).1 = .error errors → ∀ e ∈ errors, P e.span) ∧
      (∀ o, (c.compile program name).1 = .ok o → o.spans.All P ∧
        ∀ f, Value.function f ∈ o.constants → F f) ∧
      ∀ f, Value.function f ∈ (c.compile program name).2.constants → F f := by
  have hstart : Compiler.Spans P F { c with unit := {} } := ⟨.empty, hc⟩
  obtain ⟨herrors, hc'⟩ := topLevel_spans h hF (fun e he => absurd he (Array.not_mem_empty e)) hstart
  unfold Compiler.compile
  rcases ht : Compile.topLevel program.statements #[] { c with unit := {} } with ⟨errors, c'⟩
  rw [ht] at herrors hc'
  dsimp only
  split
  · refine ⟨nofun, fun o ho => ?_, hc'.constants⟩
    cases ho
    refine ⟨?_, hc'.constants⟩
    dsimp only
    split
    · exact hc'.unit.removeLast
    · exact hc'.unit
  · refine ⟨fun errors' he => ?_, nofun, hc'.constants⟩
    cases he
    exact herrors

theorem compile_spans (h : stmtsSpans P program.statements) (name : String) :
    (∀ errors, compile program name = .error errors → ∀ e ∈ errors, P e.span) ∧
      ∀ o, compile program name = .ok o → o.Spans P := by
  obtain ⟨herrors, hok, -⟩ := Compiler.compile_spans (c := {}) h (fun _ hf => hf) (by simp) name
  exact ⟨herrors, fun o ho => ⟨(hok o ho).1, (hok o ho).2⟩⟩

end Programs

end StackScript
