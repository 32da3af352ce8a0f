import StackScript.Proofs.Compile.Quiet

/-! # Balance

Whatever the compiler is given, and wherever that fails, it leaves the stacks it works with as it
found them: the open contexts and function bodies, the code unit, its open loops and the operands
pending. So a statement that fails does not disturb those behind it, nor a program the next one.
-/

namespace StackScript

/-! ## The open scopes -/

/-- The open contexts of a function body by their numbers and names, the innermost first. -/
def FunctionScope.labels (f : FunctionScope) : List (Nat × String) :=
  (f.blocks ++ [f.root]).map fun c => (c.id, c.name)

/-- The stack of function bodies, each with its part of the stack of contexts, the innermost
first. -/
def ScopeTable.outline (t : ScopeTable) : List (Nat × List (Nat × String)) :=
  (t.inner ++ [t.main]).map fun f => (f.depth, f.labels)

namespace ScopeTable

variable {t t' : ScopeTable}

theorem callDepth_eq (t : ScopeTable) : t.callDepth = t.outline.length := by
  simp [callDepth, outline]

theorem path_eq (f : FunctionScope) : f.path = (f.labels.map (·.2)).reverse := by
  simp [FunctionScope.path, FunctionScope.labels, List.map_reverse, Function.comp_def]

/-- The path of the innermost context names all contexts, the outermost first. -/
theorem contextPath_eq (t : ScopeTable) :
    t.contextPath = joined ((t.outline.flatMap (·.2)).map (·.2)).reverse := by
  have hbodies (fs : List FunctionScope) :
      fs.reverse.flatMap (fun f => (f.labels.map (·.2)).reverse) =
        ((fs.flatMap (·.labels)).map (·.2)).reverse := by
    induction fs with
    | nil => rfl
    | cons f fs ih => simp [List.flatMap_append, ih]
  obtain ⟨main, _ | ⟨f, fs⟩, nextId, globals⟩ := t
  · simp [contextPath, outerPath, current, outline, path_eq]
  · simp [contextPath, outerPath, current, outline, path_eq, hbodies, List.flatMap_map]

theorem outline_modifyCurrent (t : ScopeTable) (g : FunctionScope → FunctionScope)
    (hg : ∀ f, (g f).depth = f.depth ∧ (g f).labels = f.labels) :
    (t.modifyCurrent g).outline = t.outline := by
  obtain ⟨main, _ | ⟨f, fs⟩, nextId, globals⟩ := t <;> simp [modifyCurrent, outline, hg]

theorem labels_insertRoot (f : FunctionScope) (s : Symbol) :
    (f.insertRoot s).labels = f.labels := by
  simp [FunctionScope.labels, FunctionScope.insertRoot, Context.insert]

theorem labels_insert (f : FunctionScope) (s : Symbol) : (f.insert s).labels = f.labels := by
  obtain ⟨depth, root, _ | ⟨c, cs⟩, locals, free⟩ := f <;> rfl

theorem labels_capture (f : FunctionScope) (s outer : Symbol) :
    (f.capture s outer).labels = f.labels := by
  simp [FunctionScope.labels, FunctionScope.capture, Context.insert]

theorem outline_leaveBlock {kind : BlockKind} (h : t'.outline = (t.enterBlock kind).outline) :
    t'.leaveBlock.outline = t.outline := by
  have hblock {f f' : FunctionScope} {label : Nat × String} (hl : f'.labels = label :: f.labels) :
      ({ f' with blocks := f'.blocks.tail } : FunctionScope).labels = f.labels := by
    obtain ⟨depth, root, _ | ⟨c, cs⟩, locals, free⟩ := f'
    · simp [FunctionScope.labels] at hl
    · exact (List.cons.inj hl).2
  obtain ⟨main, _ | ⟨f, fs⟩, nextId, globals⟩ := t <;>
    obtain ⟨main', _ | ⟨f', fs'⟩, nextId', globals'⟩ := t' <;>
    simp only [enterBlock, modifyCurrent, outline, List.nil_append, List.cons_append, List.map_cons,
      List.map_nil, List.cons.injEq, Prod.mk.injEq, and_true] at h
  · exact congrArg₂ (fun d l => [(d, l)]) h.1 (hblock h.2)
  · simp at h
  · simp at h
  · exact congrArg₂ List.cons (Prod.ext h.1.1 (hblock h.1.2)) h.2

theorem outline_leaveFunction {self : Option String}
    (h : t'.outline = (t.enterFunction self).outline) : t'.leaveFunction.2.outline = t.outline := by
  obtain ⟨main', _ | ⟨f', fs'⟩, nextId', globals'⟩ := t'
  · simp [enterFunction, outline] at h
  · exact (List.cons.inj h).2

end ScopeTable

namespace Scoping

/-- A step that opens and closes no scope, also when it fails. -/
def Flat {α : Type} (step : Scoping α) : Prop := ∀ o, Keeps (·.outline = o) step

variable {name : String}

theorem bindHere_flat (storage : Storage) (index : Nat) : Flat (bindHere storage name index) := by
  refine fun o => Keeps.get.bind fun t => Keeps.bind (.modify fun t ht => ?_) fun _ => .pure _
  exact (t.outline_modifyCurrent _ fun f =>
    ⟨f.depth_insert _, ScopeTable.labels_insert f _⟩).trans ht

theorem slot_flat (storage : Storage) (taken : Nat) : Flat (slot storage name taken) :=
  fun _ => .ite (.pure _) (.throw _)

theorem defineGlobal_flat : Flat (defineGlobal name) := fun o =>
  Keeps.get.bind fun _ => (slot_flat _ _ o).bind fun _ =>
    Keeps.bind (.modify fun _ ht => ht) fun _ =>
    bindHere_flat _ _ o

theorem defineLocal_flat : Flat (defineLocal name) := by
  refine fun o => Keeps.get.bind fun _ => (slot_flat _ _ o).bind fun _ =>
    Keeps.bind (.modify fun t ht => ?_) fun _ => bindHere_flat _ _ o
  refine Eq.trans (t.outline_modifyCurrent _ fun f => ?_) ht
  exact ⟨rfl, rfl⟩

theorem define_flat : Flat (define name) := by
  refine fun o => Keeps.get.bind fun t => ?_
  split
  · exact .pure _
  · exact .ite (defineGlobal_flat o) (defineLocal_flat o)

theorem defineBuiltin_flat (index : Nat) : Flat (defineBuiltin name index) := by
  refine fun o => (slot_flat _ _ o).bind fun _ => Keeps.get.bind fun _ =>
    Keeps.bind (.modify fun t ht => ?_) fun _ => .pure _
  rw [← ht]
  simp only [ScopeTable.outline, ScopeTable.labels_insertRoot, List.map_append, List.map_cons,
    List.map_nil]
  rfl

theorem defineFree_flat (outer : Symbol) : Flat (defineFree outer) := by
  refine fun o => Keeps.get.bind fun _ => (slot_flat _ _ o).bind fun _ =>
    Keeps.bind (.modify fun t ht => ?_) fun _ => .pure _
  refine Eq.trans (t.outline_modifyCurrent _ fun f => ?_) ht
  exact ⟨rfl, ScopeTable.labels_capture f _ _⟩

theorem resolve_flat : Flat (resolve name) := by
  refine fun o => Keeps.get.bind fun t => ?_
  split
  · exact .throw _
  · split
    · exact .pure _
    · exact .pure _
    · exact .ite (.pure _) (defineFree_flat _ o)

end Scoping

/-! ## Steps of the compiler -/

structure Compiler.Level (c c' : Compiler) : Prop where
  scopes : c'.scopes.outline = c.scopes.outline
  unit : c.unit.Level c'.unit

theorem Compiler.Level.refl (c : Compiler) : c.Level c := ⟨rfl, .refl c.unit⟩

theorem Compiler.Level.trans {c c₁ c₂ : Compiler} (h₁ : c.Level c₁) (h₂ : c₁.Level c₂) : c.Level c₂ :=
  ⟨h₂.scopes.trans h₁.scopes, h₁.unit.trans h₂.unit⟩

namespace Compile

variable {α β : Type} {x y : Compile α} {f : α → Compile β} {n : Size} {ok : Prop} {span : Span}

/-- The step leaves the stacks as it found them, with its result or with its error. -/
def Levels (x : Compile α) : Prop :=
  ∀ c, Gives x c (fun _ c' => c.Level c') fun _ c' => c.Level c'

theorem Quiet.levels (h : Quiet ok n x) : Levels x :=
  fun c => (h c).mono (fun _ _ hc => ⟨by rw [hc.scopes], hc.unit⟩)
    fun _ _ hc => ⟨by rw [hc.1.scopes], hc.1.unit⟩

namespace Levels

theorem discard (h : Levels x) : Levels (discard x) := fun c => (h c).discard

theorem map (h : Levels x) (g : α → β) : Levels (g <$> x) :=
  fun c => ((h c).map g).mono (fun _ _ ⟨_, _, hc⟩ => hc) fun _ _ hc => hc

theorem ite {b : Prop} [Decidable b] (h : b → Levels x) (h' : ¬b → Levels y) :
    Levels (if b then x else y) := by
  split
  · exact h ‹b›
  · exact h' ‹¬b›

theorem bind (h : Levels x) (hf : ∀ a, Levels (f a)) : Levels (x >>= f) :=
  fun c => (h c).bind (fun _ _ hc => hc) fun a c₁ h₁ =>
    (hf a c₁).mono (fun _ _ h₂ => h₁.trans h₂) fun _ _ h₂ => h₁.trans h₂

theorem pure (a : α) : Levels (Pure.pure a) := fun c => .refl c

theorem fail (cause : CompileError.Cause) (span : Span) : Levels (fail cause span : Compile α) :=
  fun c => .refl c

theorem get : Levels get := fun c => .refl c

theorem unit : Levels unit := fun c => .refl c

theorem here : Levels here := fun c => .refl c

theorem onScopes {step : Scoping α} (h : step.Flat) : Levels (onScopes span step) := by
  refine fun c => (h _ c.scopes rfl).onScopes.mono ?_ ?_
  · rintro _ _ ⟨t, ht, rfl⟩
    exact ⟨ht, .refl _⟩
  · rintro _ _ ⟨t, _, ht, -, rfl⟩
    exact ⟨ht, .refl _⟩

theorem modifyUnit {g : CodeUnit → CodeUnit} (h : ∀ u : CodeUnit, u.Level (g u)) :
    Levels (modifyUnit g) := fun c => ⟨rfl, h c.unit⟩

/-- A step between a change of the state and its reverse. -/
theorem bracket {enter leave : Compiler → Compiler} {x : Compile Unit} (h : Levels x)
    (hleave : ∀ c c', (enter c).Level c' → c.Level (leave c')) :
    Levels (do
      modify enter
      let result ← observing x
      modify leave
      ofExcept result) :=
  fun c => Gives.bracket ((h _).mono (fun _ c' => hleave c c') fun _ c' => hleave c c')

theorem holding (n : Nat) {x : Compile Unit} (h : Levels x) : Levels (holding n x) :=
  h.bracket fun _ _ hc => ⟨hc.scopes, hc.unit.release⟩

theorem blockWith (kind : BlockKind) {x : Compile Unit} (h : Levels x) :
    Levels (blockWith kind x) :=
  h.bracket fun _ _ hc => ⟨ScopeTable.outline_leaveBlock hc.scopes, hc.unit⟩

theorem loopWith {x : Compile Unit} (h : Levels x) : Levels (loopWith x) :=
  fun _ => Gives.loopWith ((h _).mono (fun _ _ hc => ⟨hc.scopes, hc.unit.leaveLoop⟩)
    fun _ _ hc => ⟨hc.scopes, hc.unit.leaveLoop⟩)

end Levels

section Steps

theorem write_levels (op : Opcode) (operands : List Nat) :
    Levels (discard (emit op operands span)) := (write_quiet op operands).levels

theorem addConstant_levels (v : Value) : Levels (addConstant v span) :=
  Levels.get.bind fun _ => .ite
    (fun _ => Levels.bind (fun c => ⟨rfl, .refl c.unit⟩) fun _ => .pure _) fun _ => .fail _ _

theorem emitLoopExit_levels (outside : CompileError.Cause) :
    Levels (emitLoopExit outside span) := by
  refine Levels.unit.bind fun u => ?_
  cases u.exitPops? with
  | none => exact .fail _ _
  | some pops => exact (emitPops_quiet pops).levels.bind fun _ => (emitJump_quiet .jump).levels

theorem resolve_levels (name : String) : Levels (resolve name span) := by
  refine Levels.get.bind fun c => ?_
  split
  · exact Levels.onScopes (Scoping.defineBuiltin_flat _)
  · exact Levels.onScopes Scoping.resolve_flat

theorem assignable_levels (name : String) : Levels (assignable name span) :=
  (resolve_levels name).bind fun _ => .ite (fun _ => .pure _) fun _ => .fail _ _

theorem define_levels (name : Ident) : Levels (define name) := Levels.onScopes Scoping.define_flat

theorem loadCaptured_levels (symbols : List Symbol) : Levels (loadCaptured span symbols) := by
  induction symbols with
  | nil => exact .pure _
  | cons s symbols ih =>
    exact (resolve_levels s.name).bind fun s => (load_quiet s).levels.bind fun _ => ih

theorem closure_levels (self : Option String) (params : List Ident) (written : CodeUnit)
    (symbols : FunctionSymbols) : Levels (closure self params span written symbols) :=
  (loadCaptured_levels _).bind fun _ => .ite
    (fun _ => (addConstant_levels _).bind fun _ => write_levels .closure _)
    fun _ => .fail _ _

theorem inBody_levels (self : Option String) (params : List Ident) {step : Compile Unit}
    (hstep : Levels step) : Levels (inBody self params step) := by
  have hdefine : Levels (defineParams params) := by
    induction params with
    | nil => exact .pure _
    | cons p params ih => exact (Levels.onScopes Scoping.defineLocal_flat).discard.bind fun _ => ih
  cases self with
  | none => exact hdefine.bind fun _ => hstep
  | some name =>
    refine Levels.bind (fun c => ⟨?_, .refl _⟩) fun _ => hdefine.bind fun _ => hstep
    exact ScopeTable.outline_modifyCurrent _ _ fun f => ⟨rfl, ScopeTable.labels_insertRoot f _⟩

/-- The code unit of a function body is gone when the body is done, and that around it is back. -/
theorem functionWith_levels (self : Option String) (params : List Ident) (bodySpan : Span)
    {body : Compile Unit} (hbody : Levels body) :
    Levels (functionWith self params span bodySpan body) := by
  have hstep : Levels (body >>= fun _ => returnBodyValue bodySpan) :=
    hbody.bind fun _ => returnBodyValue_quiet.levels
  have hinner := inBody_levels self params hstep
  have hleave {c c' : Compiler} (h : (c.enterBody self).Level c') : c.Level (c'.leaveBody c.unit) :=
    ⟨ScopeTable.outline_leaveFunction h.scopes, .refl _⟩
  refine fun c => Gives.functionWith ((hinner (c.enterBody self)).mono (fun _ c₁ h₁ => ?_)
    fun _ c₁ h₁ => hleave h₁)
  exact (closure_levels _ _ _ _ (c₁.leaveBody c.unit)).mono
    (fun _ _ h₂ => (hleave h₁).trans h₂) fun _ _ h₂ => (hleave h₁).trans h₂

theorem rounds_levels {condition last : Option Expr} {body : Compile Unit} (toStart : Bool)
    (hcondition : ∀ e, condition = some e → Levels (expr e))
    (hlast : ∀ e, last = some e → Levels (expr e)) (hbody : Levels body) :
    Levels (rounds condition last toStart body span) := by
  have hguard : Levels (guard condition) := by
    cases condition with
    | none => exact .pure _
    | some e => exact (hcondition e rfl).bind fun _ => (emitJump_quiet _).levels.map _
  have hupdate : Levels (update last) := by
    cases last with
    | none => exact .pure _
    | some e => exact (hlast e rfl).bind fun _ => write_levels _ _
  exact Levels.here.bind fun _ => hguard.bind fun _ => hbody.loopWith.bind fun _ =>
    Levels.here.bind fun _ => hupdate.bind fun _ => (emitJumpTo_quiet _ _).levels.bind fun _ =>
      (patchExit_quiet _).levels.bind fun _ => Levels.here.bind fun _ =>
        (patchAll_quiet _ _).levels.bind fun _ => (patchAll_quiet _ _).levels

end Steps

mutual

theorem expr_levels : (e : Expr) → Levels (expr e)
  | .int _ _ | .decimal _ _ | .str _ _ => (emitConstant_quiet _).levels
  | .bool _ _ | .null _ => write_levels _ _
  | .ident name _ => (resolve_levels name).bind fun s => (load_quiet s).levels
  | .unary _ e _ => (expr_levels e).bind fun _ => write_levels _ _
  | .binary op left right _ => by
    rw [expr]
    cases op.operator? with
    | none => exact .fail _ _
    | some operator =>
      exact (expr_levels left).bind fun _ => ((expr_levels right).holding 1).bind fun _ =>
        write_levels _ _
  | .cond condition consequence alternative span => by
    rw [expr_cond]
    have halternative : Levels (Compile.alternative span alternative) := by
      cases alternative with
      | none => exact write_levels _ _
      | some b => exact branch_levels b
    exact (expr_levels condition).bind fun _ => (emitJump_quiet _).levels.bind fun _ =>
      (branch_levels consequence).bind fun _ => (emitJump_quiet _).levels.bind fun _ =>
        (patchHere_quiet _).levels.bind fun _ => halternative.bind fun _ =>
          (patchHere_quiet _).levels
  | .function name params (.mk body bodySpan) _ =>
    functionWith_levels name params bodySpan (statements_levels body)
  | .call callee args _ => (expr_levels callee).bind fun _ => (exprs_levels 1 args).bind fun _ =>
      write_levels _ _
  | .array items _ => (exprs_levels 0 items).bind fun _ => write_levels _ _
  | .hash ps _ => (pairs_levels 0 ps).bind fun _ => write_levels _ _
  | .index target index _ => (expr_levels target).bind fun _ =>
      ((expr_levels index).holding 1).bind fun _ => write_levels _ _
  | .assign target value _ => by
    cases target with
    | ident name _ =>
      exact (assignable_levels name).bind fun s => (expr_levels value).bind fun _ =>
        (write_levels _ _).bind fun _ => (load_quiet s).levels
    | index aggregate index _ =>
      cases aggregate with
      | ident name _ =>
        exact (assignable_levels name).bind fun s => (expr_levels index).bind fun _ =>
          ((expr_levels value).holding 1).bind fun _ => write_levels _ _
      | _ => exact .fail _ _
    | _ => exact .fail _ _

theorem exprs_levels : (held : Nat) → (es : List Expr) → Levels (exprs held es)
  | _, [] => .pure _
  | held, e :: es => ((expr_levels e).holding held).bind fun _ => exprs_levels (held + 1) es

theorem pairs_levels : (held : Nat) → (ps : List (Expr × Expr)) → Levels (pairs held ps)
  | _, [] => .pure _
  | held, (key, value) :: ps => ((expr_levels key).holding held).bind fun _ =>
      ((expr_levels value).holding (held + 1)).bind fun _ => pairs_levels (held + 2) ps

theorem branch_levels : (b : Block) → Levels (branch b)
  | .mk body _ =>
    ((statements_levels body).blockWith .cond).bind fun _ => keepBlockValue_quiet.levels

theorem stmt_levels : (s : Stmt) → Levels (stmt s)
  | .bind name value span => by
    have hvalue : Levels (do expr value; store (← define name) span) :=
      (expr_levels value).bind fun _ => (define_levels name).bind fun _ => write_levels _ _
    cases value with
    | function own params b valueSpan =>
      cases b with
      | mk body bodySpan =>
        exact (define_levels name).bind fun _ =>
          (functionWith_levels _ params bodySpan (statements_levels body)).bind fun _ =>
            write_levels _ _
    | _ => exact hvalue
  | .ret none _ => write_levels _ _
  | .ret (some e) _ => (expr_levels e).bind fun _ => write_levels _ _
  | .expr e _ => (expr_levels e).bind fun _ => write_levels _ _
  | .whileLoop condition (.mk body bodySpan) span => by
    rw [stmt_whileLoop]
    refine rounds_levels true (fun e he => ?_) nofun ((statements_levels body).blockWith .loop)
    cases he
    exact expr_levels condition
  | .forLoop first condition last (.mk body bodySpan) span => by
    rw [stmt_forLoop]
    have hinit : Levels (init first) := by
      cases first with
      | none => exact .pure _
      | some s => exact stmt_levels s
    refine Levels.blockWith .loop
      (hinit.bind fun _ => rounds_levels false ?_ ?_ (statements_levels body))
    · intro e he
      cases condition with
      | none => cases he
      | some value =>
        have hvalue := expr_levels value
        cases he
        exact hvalue
    · intro e he
      cases last with
      | none => cases he
      | some value =>
        have hvalue := expr_levels value
        cases he
        exact hvalue
  | .breakLoop _ =>
    (emitLoopExit_levels _).bind fun _ => Levels.modifyUnit fun u => .addBreak u _
  | .continueLoop _ =>
    (emitLoopExit_levels _).bind fun _ => Levels.modifyUnit fun u => .addContinue u _

theorem statements_levels : (ss : List Stmt) → Levels (statements ss)
  | [] => .pure _
  | s :: ss => (stmt_levels s).bind fun _ => statements_levels ss

end

end Compile

/-! ## Programs -/

structure Compiler.Rested (c : Compiler) : Prop where
  outline : c.scopes.outline = ({} : ScopeTable).outline
  unit : c.unit = {}

theorem topLevel_outline (ss : List Stmt) (errors : Array CompileError) (c : Compiler) :
    (Compile.topLevel ss errors c).2.scopes.outline = c.scopes.outline := by
  induction ss generalizing errors c with
  | nil => rfl
  | cons s ss ih =>
    rw [topLevel_cons]
    have hs := Compile.stmt_levels s c
    unfold Gives at hs
    rcases hr : Compile.stmt s c with ⟨e | _, c'⟩ <;> rw [hr] at hs
    · exact (ih (errors.push e) c').trans hs.scopes
    · exact (ih errors c').trans hs.scopes

theorem Compiler.Rested.compile {c : Compiler} (h : c.Rested) (program : Program)
    (unitName : String) : (c.compile program unitName).2.Rested := by
  have hscopes := topLevel_outline program.statements #[] { c with unit := {} }
  unfold Compiler.compile
  rcases ht : Compile.topLevel program.statements #[] { c with unit := {} } with ⟨errors, c'⟩
  rw [ht] at hscopes
  dsimp only at hscopes ⊢
  split <;> exact ⟨hscopes.trans h.outline, rfl⟩

theorem Compiler.Reachable.rested {c : Compiler} (h : c.Reachable) : c.Rested := by
  induction h with
  | initial => exact ⟨rfl, rfl⟩
  | compiled program unitName _ ih => exact ih.compile program unitName
  | resumed _ ih => exact ⟨ih.outline, rfl⟩

/-- In any state the compiler leaves its stacks as it found them, with a node compiled or with an
error from any depth in it. So behind each program, accepted or not, it has only the top level open,
and goes on like a new one. -/
theorem Compiler.Reachable.balanced {c : Compiler} (h : c.Reachable) :
    (∀ (d : Compiler) (e : Expr),
      Gives (Compile.expr e) d (fun _ d' => d.Level d') fun _ d' => d.Level d') ∧
    (∀ (d : Compiler) (s : Stmt),
      Gives (Compile.stmt s) d (fun _ d' => d.Level d') fun _ d' => d.Level d') ∧
    (∀ (d : Compiler) (kind : BlockKind) (body : List Stmt),
      Gives (Compile.blockWith kind (Compile.statements body)) d (fun _ d' => d.Level d')
        fun _ d' => d.Level d') ∧
    ∀ program unitName, (c.compile program unitName).2.scopes.callDepth = 1 ∧
      (c.compile program unitName).2.scopes.contextPath = "main" ∧
      (c.compile program unitName).2.Rested := by
  refine ⟨fun d e => Compile.expr_levels e d, fun d s => Compile.stmt_levels s d,
    fun d kind body => (Compile.statements_levels body).blockWith kind d, fun program unitName => ?_⟩
  have hrested := h.rested.compile program unitName
  refine ⟨?_, ?_, hrested⟩
  · rw [ScopeTable.callDepth_eq, hrested.outline]
    rfl
  · rw [ScopeTable.contextPath_eq, hrested.outline]
    rfl

open StackScript.Stmt StackScript.Expr in
/-- A `break` outside of loops, in an operand in a function body in a loop, fails with all stacks in
use. -/
theorem Compiler.balanced_nested_failure :
    let leave : Expr := cond (bool true .nowhere) (.mk [breakLoop .nowhere] .nowhere) none .nowhere
    let body : Block := .mk [expr (array [int 1 .nowhere, leave] .nowhere) .nowhere] .nowhere
    let loop : Block := .mk [expr (function none [] body .nowhere) .nowhere] .nowhere
    let program : Program := ⟨[whileLoop (bool true .nowhere) loop .nowhere]⟩
    (Compiler.compile {} program "first").1.toBool = false ∧
      (Compiler.compile {} program "first").2.scopes.callDepth = 1 ∧
      (Compiler.compile {} program "first").2.scopes.contextPath = "main" ∧
      (Compiler.compile {} program "first").2.Rested := by
  intro leave body loop program
  exact ⟨by decide +kernel, Compiler.Reachable.initial.balanced.2.2.2 program "first"⟩

end StackScript
