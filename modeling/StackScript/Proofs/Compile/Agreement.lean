import StackScript.Proofs.Compile.Functions
import StackScript.Proofs.Compile.Loops

/-! # Names and constants apart from code

What a program binds and which constants it adds does not depend on the code before it. Of two
compilers that differ in their code units only, both that compile the program differ in their code
units only behind it. A function body starts a code unit of its own, so even its code is the same.
-/

namespace StackScript

structure Compiler.Alike (c d : Compiler) : Prop where
  scopes : d.scopes = c.scopes
  constants : d.constants = c.constants

namespace Compile

variable {α β : Type}

/-- A step that succeeds changes nothing but the code unit. -/
def CodeOnly (x : Compile α) : Prop := ∀ ⦃c a c'⦄, x c = (.ok a, c') → c.Alike c'

namespace CodeOnly

variable {x : Compile α} {f : α → Compile β}

theorem pure (a : α) : CodeOnly (pure a) := by
  rintro c a c' h
  cases h
  exact ⟨rfl, rfl⟩

theorem fail (cause : CompileError.Cause) (span : Span) : CodeOnly (fail cause span : Compile α) := by
  rintro c a c' h
  cases h

theorem bind (hx : CodeOnly x) (hf : ∀ a, CodeOnly (f a)) : CodeOnly (x >>= f) := by
  intro c b c' h
  obtain ⟨a, c₁, h₁, h₂⟩ := bind_eq_ok.mp h
  have hc₁ := hx h₁
  have hc' := hf a h₂
  exact ⟨hc'.scopes.trans hc₁.scopes, hc'.constants.trans hc₁.constants⟩

theorem discard (hx : CodeOnly x) : CodeOnly (discard x) := by
  intro c b c' h
  rw [discard_apply] at h
  split at h
  · next hx' =>
    cases h
    exact hx hx'
  · cases h

theorem map (hx : CodeOnly x) (g : α → β) : CodeOnly (g <$> x) := by
  intro c b c' h
  rw [map_apply] at h
  split at h
  · next hx' =>
    cases h
    exact hx hx'
  · cases h

theorem onUnit (span : Span) (step : Emit α) : CodeOnly (onUnit span step) := by
  intro c a c' h
  have hc : c' = (Compile.onUnit span step c).2 := (congrArg Prod.snd h).symm
  subst hc
  exact ⟨rfl, rfl⟩

theorem modifyUnit (g : CodeUnit → CodeUnit) : CodeOnly (modifyUnit g) := by
  intro c a c' h
  cases h
  exact ⟨rfl, rfl⟩

theorem unit : CodeOnly unit := by
  intro c a c' h
  cases h
  exact ⟨rfl, rfl⟩

theorem here : CodeOnly here := by
  intro c a c' h
  cases h
  exact ⟨rfl, rfl⟩

end CodeOnly

theorem emit_codeOnly (op : Opcode) (operands : List Nat) (span : Span) :
    CodeOnly (discard (emit op operands span)) := (CodeOnly.onUnit span _).discard

theorem emitJump_codeOnly (op : Opcode) (span : Span) : CodeOnly (emitJump op span) :=
  .onUnit span _

theorem emitJumpTo_codeOnly (op : Opcode) (target : Nat) (span : Span) :
    CodeOnly (emitJumpTo op target span) := by
  unfold emitJumpTo
  split
  · exact emit_codeOnly ..
  · exact .fail ..

theorem patchHere_codeOnly (position : Nat) (span : Span) : CodeOnly (patchHere position span) :=
  CodeOnly.here.bind fun _ => .onUnit span _

theorem patchExit_codeOnly (exit : Option Nat) (span : Span) : CodeOnly (patchExit span exit) := by
  cases exit with
  | none => exact .pure _
  | some position => exact patchHere_codeOnly position span

theorem patchAll_codeOnly (target : Nat) (span : Span) (jumps : List Nat) :
    CodeOnly (patchAll target span jumps) := by
  induction jumps with
  | nil => exact .pure _
  | cons jump jumps ih => exact (CodeOnly.onUnit span _).bind fun _ => ih

theorem emitPops_codeOnly (span : Span) (n : Nat) : CodeOnly (emitPops span n) := by
  induction n with
  | zero => exact .pure _
  | succ n ih => exact (emit_codeOnly ..).bind fun _ => ih

theorem emitLoopExit_codeOnly (outside : CompileError.Cause) (span : Span) :
    CodeOnly (emitLoopExit outside span) := by
  refine CodeOnly.unit.bind fun u => ?_
  cases u.exitPops? with
  | none => exact .fail ..
  | some pops => exact (emitPops_codeOnly span pops).bind fun _ => emitJump_codeOnly ..

theorem keepBlockValue_codeOnly (span : Span) : CodeOnly (keepBlockValue span) := by
  refine CodeOnly.unit.bind fun u => ?_
  split
  · exact .modifyUnit _
  · exact emit_codeOnly ..

theorem load_codeOnly (s : Symbol) (span : Span) : CodeOnly (load s span) := by
  unfold load
  split
  · exact emit_codeOnly ..
  · exact emit_codeOnly ..

/-- From compilers that are alike, steps that both succeed have results in `Q` and leave compilers
that are alike. -/
def Agree (Q : α → α → Prop) (x y : Compile α) : Prop :=
  ∀ ⦃c d a b c' d'⦄, c.Alike d → x c = (.ok a, c') → y d = (.ok b, d') → Q a b ∧ c'.Alike d'

/-- A step agrees with itself, whatever its result is. -/
abbrev Agrees (x : Compile α) : Prop := Agree (fun _ _ => True) x x

namespace Agree

variable {Q : α → α → Prop} {R : β → β → Prop} {x y : Compile α} {f g : α → Compile β}

theorem of_codeOnly (hx : CodeOnly x) (hy : CodeOnly y) : Agree (fun _ _ => True) x y := by
  intro c d a b c' d' h h₁ h₂
  have hc := hx h₁
  have hd := hy h₂
  constructor
  · trivial
  · exact ⟨hd.scopes.trans (h.scopes.trans hc.scopes.symm),
      hd.constants.trans (h.constants.trans hc.constants.symm)⟩

theorem bind (hx : Agree Q x y) (hf : ∀ a b, Q a b → Agree R (f a) (g b)) :
    Agree R (x >>= f) (y >>= g) := by
  intro c d a b c' d' h h₁ h₂
  obtain ⟨a₁, c₁, hx₁, hf₁⟩ := bind_eq_ok.mp h₁
  obtain ⟨b₁, d₁, hy₁, hg₁⟩ := bind_eq_ok.mp h₂
  obtain ⟨hq, h'⟩ := hx h hx₁ hy₁
  exact hf a₁ b₁ hq h' hf₁ hg₁

/-- Where results are the same, one step behind them is enough. -/
theorem then_eq (hx : Agree Eq x y) (hf : ∀ a, Agree R (f a) (g a)) : Agree R (x >>= f) (y >>= g) :=
  hx.bind fun a b h => by
    subst h
    exact hf a

theorem fail {cause : CompileError.Cause} {span : Span} : Agree Q (Compile.fail cause span) y := by
  intro c d a b c' d' _ h
  cases h

theorem onScopes (span : Span) (step : Scoping α) :
    Agree Eq (Compile.onScopes span step) (Compile.onScopes span step) := by
  rintro ⟨_, _, _⟩ ⟨scopes, constants, _⟩ a b c' d' ⟨rfl, rfl⟩ h₁ h₂
  unfold Compile.onScopes at h₁ h₂
  rcases hs : step scopes with ⟨e | r, scopes'⟩ <;> simp only [hs] at h₁ h₂ <;> cases h₁
  cases h₂
  exact ⟨rfl, rfl, rfl⟩

/-- A step between two changes of the state, the second one made also when it fails. -/
theorem bracket (enter : Compiler → Compiler) (leave : Compiler → β × Compiler) {x : Compile Unit}
    {y : Compile β} (hy : ∀ c, y c = match x (enter c) with
      | (.ok _, c') => (.ok (leave c').1, (leave c').2)
      | (.error e, c') => (.error e, (leave c').2))
    (henter : ∀ {c d}, c.Alike d → (enter c).Alike (enter d))
    (hleave : ∀ {c d}, c.Alike d → (leave c).2.Alike (leave d).2) (hx : Agrees x) : Agrees y := by
  intro c d a b c' d' h h₁ h₂
  rw [hy] at h₁ h₂
  rcases hc : x (enter c) with ⟨e | _, c₁⟩ <;> rw [hc] at h₁ <;> cases h₁
  rcases hd : x (enter d) with ⟨e | _, d₁⟩ <;> rw [hd] at h₂ <;> cases h₂
  obtain ⟨-, h'⟩ := hx (henter h) hc hd
  exact ⟨trivial, hleave h'⟩

theorem holding (n : Nat) {x : Compile Unit} (hx : Agrees x) : Agrees (holding n x) := by
  refine bracket (fun c => { c with unit := c.unit.hold n })
    (fun c => ((), { c with unit := c.unit.release n })) (fun c => ?_)
    (fun h => ⟨h.scopes, h.constants⟩) (fun h => ⟨h.scopes, h.constants⟩) hx
  simp only [Compile.holding, Compile.modifyUnit, bind_apply, modify_apply, observing]
  rcases x { c with unit := c.unit.hold n } with ⟨_ | _, _⟩ <;> rfl

theorem blockWith (kind : BlockKind) {x : Compile Unit} (hx : Agrees x) :
    Agrees (blockWith kind x) := by
  refine bracket (fun c => { c with scopes := c.scopes.enterBlock kind })
    (fun c => ((), { c with scopes := c.scopes.leaveBlock })) (fun c => ?_)
    (fun h => ⟨congrArg (·.enterBlock kind) h.scopes, h.constants⟩)
    (fun h => ⟨congrArg (·.leaveBlock) h.scopes, h.constants⟩) hx
  simp only [Compile.blockWith, Compile.modifyScopes, bind_apply, modify_apply, observing]
  rcases x { c with scopes := c.scopes.enterBlock kind } with ⟨_ | _, _⟩ <;> rfl

theorem loopWith {x : Compile Unit} (hx : Agrees x) : Agrees (loopWith x) := by
  refine bracket (fun c => { c with unit := c.unit.enterLoop })
    (fun c => (c.unit.leaveLoop.1, { c with unit := c.unit.leaveLoop.2 })) (fun c => ?_)
    (fun h => ⟨h.scopes, h.constants⟩) (fun h => ⟨h.scopes, h.constants⟩) hx
  simp only [Compile.loopWith, Compile.modifyUnit, bind_apply, modify_apply, modifyGet_apply, observing]
  rcases x { c with unit := c.unit.enterLoop } with ⟨_ | _, _⟩ <;> rfl

end Agree

theorem CodeOnly.agrees {x : Compile α} (hx : CodeOnly x) : Agrees x := .of_codeOnly hx hx

section Steps

variable (name : String) (span : Span)

theorem resolve_agree : Agree Eq (resolve name span) (resolve name span) := by
  let step (scopes : ScopeTable) : Scoping Symbol :=
    if (scopes.lookup? name).isSome then Scoping.resolve name
    else (Builtin.indexOf? name).elim (Scoping.resolve name) (Scoping.defineBuiltin name)
  have hstep (c : Compiler) : resolve name span c = onScopes span (step c.scopes) c := by
    simp only [resolve, bind_apply, get_apply, step]
    cases c.scopes.lookup? name <;> cases Builtin.indexOf? name <;> rfl
  intro c d a b c' d' h h₁ h₂
  rw [hstep] at h₁ h₂
  rw [h.scopes] at h₂
  exact Agree.onScopes span (step c.scopes) h h₁ h₂

theorem assignable_agree : Agree Eq (assignable name span) (assignable name span) := by
  refine (resolve_agree name span).then_eq fun s => ?_
  split
  · intro c d a b c' d' h h₁ h₂
    cases h₁
    cases h₂
    exact ⟨rfl, h⟩
  · exact .fail

theorem addConstant_agree (v : Value) : Agree Eq (addConstant v span) (addConstant v span) := by
  intro c d a b c' d' h h₁ h₂
  unfold addConstant at h₁ h₂
  simp only [bind_apply, get_apply, h.constants] at h₁ h₂
  split at h₁
  · next hlt =>
    simp only [hlt, if_true] at h₂
    cases h₁
    cases h₂
    exact ⟨rfl, h.scopes, congrArg (·.push v) h.constants⟩
  · cases h₁

theorem emitConstant_agrees (v : Value) : Agrees (emitConstant v span) :=
  (addConstant_agree span v).then_eq fun _ => (emit_codeOnly ..).agrees

theorem loadCaptured_agrees (symbols : List Symbol) : Agrees (loadCaptured span symbols) := by
  induction symbols with
  | nil => exact (CodeOnly.pure _).agrees
  | cons s symbols ih =>
    exact (resolve_agree s.name span).then_eq fun s => (load_codeOnly s span).agrees.bind fun _ _ _ => ih

theorem closure_agrees (self : Option String) (params : List Ident) (written : CodeUnit)
    (symbols : FunctionSymbols) : Agrees (closure self params span written symbols) := by
  refine (loadCaptured_agrees span _).bind fun _ _ _ => ?_
  split
  · exact (addConstant_agree span _).then_eq fun _ => (emit_codeOnly ..).agrees
  · exact .fail

/-- A function body is compiled in a code unit of its own, so both compile it alike. -/
theorem functionWith_agrees (self : Option String) (params : List Ident) (bodySpan : Span)
    (body : Compile Unit) : Agrees (functionWith self params span bodySpan body) := by
  let inner := inBody self params (body >>= fun _ => returnBodyValue bodySpan)
  have hinner (c : Compiler) : Gives (functionWith self params span bodySpan body) c
      (fun a c' => ∃ c₁, inner (c.enterBody self) = (.ok (), c₁) ∧
        closure self params span c₁.unit c₁.scopes.leaveFunction.1 (c₁.leaveBody c.unit) = (.ok a, c'))
      fun _ _ => True := by
    refine Gives.functionWith ?_
    change Gives inner (c.enterBody self) _ _
    unfold Gives
    rcases inner (c.enterBody self) with ⟨e | u, c₁⟩
    · trivial
    · rcases hk : closure self params span c₁.unit c₁.scopes.leaveFunction.1
        (c₁.leaveBody c.unit) with ⟨e | u, c₂⟩ <;> simp only [hk]
      exact ⟨c₁, rfl, hk⟩
  intro c d a b c' d' h h₁ h₂
  obtain ⟨c₁, hc₁, hc'⟩ := (hinner c).of_ok h₁
  obtain ⟨d₁, hd₁, hd'⟩ := (hinner d).of_ok h₂
  have hstart : d.enterBody self = c.enterBody self := by
    simp only [Compiler.enterBody, h.scopes, h.constants]
  obtain rfl : c₁ = d₁ := by
    rw [hstart, hc₁] at hd₁
    cases hd₁
    rfl
  have hleft : (c₁.leaveBody c.unit).Alike (c₁.leaveBody d.unit) := ⟨rfl, rfl⟩
  exact closure_agrees span self params _ _ hleft hc' hd'

end Steps

theorem rounds_agrees {condition last : Option Expr} {body : Compile Unit} (toStart : Bool)
    (span : Span) (hcondition : ∀ e, condition = some e → Agrees (expr e))
    (hlast : ∀ e, last = some e → Agrees (expr e)) (hbody : Agrees body) :
    Agrees (rounds condition last toStart body span) := by
  have hguard : Agrees (guard condition) := by
    cases condition with
    | none => exact (CodeOnly.pure _).agrees
    | some e => exact (hcondition e rfl).bind fun _ _ _ => ((emitJump_codeOnly ..).map _).agrees
  have hupdate : Agrees (update last) := by
    cases last with
    | none => exact (CodeOnly.pure _).agrees
    | some e => exact (hlast e rfl).bind fun _ _ _ => (emit_codeOnly ..).agrees
  refine CodeOnly.here.agrees.bind fun start start' _ => hguard.bind fun exit exit' _ =>
    hbody.loopWith.bind fun jumps jumps' _ => CodeOnly.here.agrees.bind fun next next' _ =>
    hupdate.bind fun _ _ _ => ?_
  -- what is left writes and patches jumps
  have hrest (start next : Nat) (exit : Option Nat) (jumps : LoopJumps) : CodeOnly (do
      emitJumpTo .jump start span
      patchExit span exit
      let stop ← here
      patchAll stop span jumps.breaks
      patchAll (if toStart then start else next) span jumps.continues) :=
    (emitJumpTo_codeOnly ..).bind fun _ => (patchExit_codeOnly ..).bind fun _ =>
      CodeOnly.here.bind fun _ => (patchAll_codeOnly ..).bind fun _ => patchAll_codeOnly ..
  exact .of_codeOnly (hrest ..) (hrest ..)

mutual

theorem expr_agrees : (e : Expr) → Agrees (expr e)
  | .int _ span | .decimal _ span | .str _ span => emitConstant_agrees span _
  | .bool _ _ | .null _ => (emit_codeOnly ..).agrees
  | .ident name span => (resolve_agree name span).then_eq fun s => (load_codeOnly s span).agrees
  | .unary _ e _ => (expr_agrees e).bind fun _ _ _ => (emit_codeOnly ..).agrees
  | .binary op left right _ => by
    rw [expr]
    cases op.operator? with
    | none => exact .fail
    | some operator =>
      exact (expr_agrees left).bind fun _ _ _ => ((expr_agrees right).holding 1).bind fun _ _ _ =>
        (emit_codeOnly ..).agrees
  | .cond condition consequence alternative span => by
    rw [expr_cond]
    have halternative : Agrees (Compile.alternative span alternative) :=
      match alternative with
      | none => (emit_codeOnly ..).agrees
      | some b => branch_agrees b
    exact (expr_agrees condition).bind fun _ _ _ => (emitJump_codeOnly ..).agrees.bind fun _ _ _ =>
      (branch_agrees consequence).bind fun _ _ _ => (emitJump_codeOnly ..).agrees.bind fun _ _ _ =>
      (Agree.of_codeOnly (patchHere_codeOnly ..) (patchHere_codeOnly ..)).bind fun _ _ _ =>
      halternative.bind fun _ _ _ => .of_codeOnly (patchHere_codeOnly ..) (patchHere_codeOnly ..)
  | .function name params (.mk body bodySpan) span => functionWith_agrees span name params bodySpan _
  | .call callee args _ => (expr_agrees callee).bind fun _ _ _ => (exprs_agrees 1 args).bind fun _ _ _ =>
      (emit_codeOnly ..).agrees
  | .array items _ => (exprs_agrees 0 items).bind fun _ _ _ => (emit_codeOnly ..).agrees
  | .hash ps _ => (pairs_agrees 0 ps).bind fun _ _ _ => (emit_codeOnly ..).agrees
  | .index target index _ => (expr_agrees target).bind fun _ _ _ =>
      ((expr_agrees index).holding 1).bind fun _ _ _ => (emit_codeOnly ..).agrees
  | .assign target value span => by
    cases target with
    | ident name targetSpan =>
      exact (assignable_agree ..).then_eq fun s => (expr_agrees value).bind fun _ _ _ =>
        (emit_codeOnly ..).agrees.bind fun _ _ _ => (load_codeOnly s span).agrees
    | index aggregate index _ =>
      cases aggregate with
      | ident name aggregateSpan =>
        exact (assignable_agree ..).then_eq fun s => (expr_agrees index).bind fun _ _ _ =>
          ((expr_agrees value).holding 1).bind fun _ _ _ => (emit_codeOnly ..).agrees
      | _ => exact .fail
    | _ => exact .fail

theorem exprs_agrees : (held : Nat) → (es : List Expr) → Agrees (exprs held es)
  | _, [] => (CodeOnly.pure _).agrees
  | held, e :: es => ((expr_agrees e).holding held).bind fun _ _ _ => exprs_agrees (held + 1) es

theorem pairs_agrees : (held : Nat) → (ps : List (Expr × Expr)) → Agrees (pairs held ps)
  | _, [] => (CodeOnly.pure _).agrees
  | held, (key, value) :: ps => ((expr_agrees key).holding held).bind fun _ _ _ =>
      ((expr_agrees value).holding (held + 1)).bind fun _ _ _ => pairs_agrees (held + 2) ps

theorem branch_agrees : (b : Block) → Agrees (branch b)
  | .mk body _ => ((statements_agrees body).blockWith .cond).bind fun _ _ _ =>
      (keepBlockValue_codeOnly _).agrees

theorem stmt_agrees : (s : Stmt) → Agrees (stmt s)
  | .bind name value span => by
    have hvalue : Agrees (do expr value; store (← define name) span) :=
      (expr_agrees value).bind fun _ _ _ => (Agree.onScopes name.span _).then_eq fun _ =>
        (emit_codeOnly ..).agrees
    cases value with
    | function own params b valueSpan =>
      cases b with
      | mk body bodySpan =>
        exact (Agree.onScopes name.span _).then_eq fun _ =>
          (functionWith_agrees ..).bind fun _ _ _ => (emit_codeOnly ..).agrees
    | _ => exact hvalue
  | .ret none _ => (emit_codeOnly ..).agrees
  | .ret (some e) _ => (expr_agrees e).bind fun _ _ _ => (emit_codeOnly ..).agrees
  | .expr e _ => (expr_agrees e).bind fun _ _ _ => (emit_codeOnly ..).agrees
  | .whileLoop condition (.mk body bodySpan) span => by
    rw [stmt_whileLoop]
    refine rounds_agrees true span (fun e h => ?_) nofun ((statements_agrees body).blockWith .loop)
    cases h
    exact expr_agrees condition
  | .forLoop first condition last (.mk body bodySpan) span => by
    rw [stmt_forLoop]
    have hinit : Agrees (init first) :=
      match first with
      | none => (CodeOnly.pure _).agrees
      | some s => stmt_agrees s
    refine Agree.blockWith .loop (hinit.bind fun _ _ _ => rounds_agrees false span ?_ ?_
      (statements_agrees body))
    · intro e h
      match condition, h with
      | some e, rfl => exact expr_agrees e
    · intro e h
      match last, h with
      | some e, rfl => exact expr_agrees e
  | .breakLoop _ | .continueLoop _ =>
    ((emitLoopExit_codeOnly ..).bind fun _ => .modifyUnit _).agrees

theorem statements_agrees : (ss : List Stmt) → Agrees (statements ss)
  | [] => (CodeOnly.pure _).agrees
  | s :: ss => (stmt_agrees s).bind fun _ _ _ => statements_agrees ss

end

end Compile

end StackScript
