import StackScript.Proofs.Compile.Judgements
import StackScript.Session

/-! # Accepted programs

Within the limits of the code the compiler accepts the valid programs, and of any other program it
reports the first flaw of each flawed statement.
-/

namespace StackScript

/-- Wherever the expression stands, the compiler finds its first flaw. -/
def Expr.Judged (e : Expr) : Prop := ∀ γ exit,
  Compile.Judges γ exit (firstFlaw? (e.sites γ exit.isSome)) (e.size γ exit) γ γ.Agrees
    (Compile.expr e)

def Stmt.Judged (s : Stmt) : Prop := ∀ γ exit,
  Compile.Judges γ exit (firstFlaw? (s.sites γ exit.isSome)) (s.size γ exit + s.drop) (s.after γ)
    (s.afterFailure γ).Agrees (Compile.stmt s)

/-- With what is done with the value of the last one. -/
def StmtsJudged (ss : List Stmt) : Prop := ∀ γ exit how span,
  Compile.Judges γ exit (firstFlaw? (stmtsSites γ exit.isSome ss)) (stmtsSize γ exit how ss)
    (stmtsAfter γ ss) (fun _ => True)
    (Compile.statements ss >>= fun _ => Compile.closing span how)

theorem Expr.Judged.holding {e : Expr} (h : e.Judged) (k : Nat) (γ : Visible) (exit : Option Nat) :
    Compile.Judges γ exit (firstFlaw? (e.sites γ exit.isSome)) (e.size γ (exit.map (· + k))) γ γ.Agrees
      (Compile.holding k (Compile.expr e)) := by
  have he := h γ (exit.map (· + k))
  rw [Option.isSome_map] at he
  exact he.holding k

namespace Compile

variable {γ γ₁ : Visible} {exit : Option Nat} {e : Expr} {s : Stmt} {ss : List Stmt} {span : Span}

/-! ## The last statement -/

theorem keepBlockValue_apply (span : Span) (c : Compiler) : keepBlockValue span c =
    (.ok ⟨⟩, { c with unit := if c.unit.lastIs .pop then c.unit.removeLast
      else c.unit.append .null [Opcode.null.byte] span }) := by
  unfold keepBlockValue
  rw [bind_apply]
  change (if c.unit.lastIs .pop then _ else _ : Compile Unit) c = _
  split
  · rfl
  · exact write_apply rfl

/-- The value of a branch is kept behind the scopes of the branch as it is in them. -/
theorem branch_mk (body : List Stmt) (span : Span) :
    branch (.mk body span) = blockWith .cond (statements body >>= fun _ => closing span .branch) := by
  funext c
  simp only [branch, blockWith, modifyScopes, observing, closing, bind_apply, modify_apply]
  rcases statements body { c with scopes := c.scopes.enterBlock .cond } with ⟨e | _, c'⟩
  · rfl
  · simp only [keepBlockValue_apply]
    rfl

theorem stmt_expr (e : Expr) (span : Span) :
    stmt (.expr e span) = expr e >>= fun _ => discard (emit .pop [] e.span) := rfl

theorem last_judges (how : Closing) (hs : s.Judged)
    (hvalue : ∀ e t, s = .expr e t ∨ s = .ret (some e) t → e.Judged) :
    Judges γ exit (firstFlaw? (s.sites γ exit.isSome)) (s.size γ exit + how.size (some s)) (s.after γ)
      (fun _ => True) (stmt s >>= fun _ => closing span how) := by
  have hexpr (e : Expr) (t : Span) (he : s = .expr e t ∨ s = .ret (some e) t) :
      Judges γ exit (firstFlaw? (e.sites γ exit.isSome)) (e.size γ exit) γ (fun _ => True) (expr e) :=
    (hvalue e t he γ exit).mono fun _ _ => trivial
  have hplain (hdrop : s.drop = 0) (hsize : how.size (some s) = how.size none) :
      Judges γ exit (firstFlaw? (s.sites γ exit.isSome)) (s.size γ exit + how.size (some s))
        (s.after γ) (fun _ => True) (stmt s >>= fun _ => closing span how) := by
    have hs := (hs γ exit).mono fun _ _ => True.intro
    rw [hdrop, add_zero] at hs
    rw [hsize]
    exact hs.andQuiet fun _ => closing_quiet how
  cases s with
  | expr e t =>
    rw [stmt_expr, bind_assoc]
    exact (hexpr e t (.inl rfl)).andQuiet fun _ => drop_closing_quiet how e t
  | ret value t =>
    cases value with
    | none => exact .quiet (ret_closing_quiet how none t (.inl rfl))
    | some e =>
      have hstmt : stmt (.ret (some e) t) = expr e >>= fun _ => discard (emit .retValue [] t) := rfl
      have hsize : Stmt.size γ exit (.ret (some e) t) = e.size γ exit + .instruction .retValue := rfl
      rw [hstmt, bind_assoc, hsize, add_assoc]
      exact (hexpr e t (.inr rfl)).andQuiet fun _ => ret_closing_quiet how (some e) t (.inr rfl)
  | _ => exact hplain rfl (by cases how <;> rfl)

/-! ## Nodes -/

theorem assign_judges {target value : Expr} {span : Span}
    (hindex : ∀ name s index t, target = .index (.ident name s) index t → index.Judged)
    (hvalue : value.Judged) : (Expr.assign target value span).Judged := by
  intro γ exit
  have hfail (e : CompileError) (rest : Option CompileError) (n : Size) :
      Judges γ exit ((some e).or rest) n γ γ.Agrees (fail e.cause e.span : Compile Unit) :=
    .fail e fun _ h => h
  cases target with
  | ident name s =>
    refine (firstFlaw?_cons _ _) ▸ (assignable_yields name s).bind fun symbol hsymbol =>
      (hvalue γ exit).andQuiet fun _ => ?_
    have hload : symbol.load = .instruction .get := congrArg _ (if_neg hsymbol.2)
    rw [← hload]
    exact ((write_operand .set _).weaken fun _ => Symbol.operand_lt hsymbol.1).bind fun _ =>
      (load_quiet symbol).weaken fun _ => hsymbol.1
  | index aggregate index t =>
    cases aggregate with
    | ident name s =>
      rw [Expr.sites, firstFlaw?_cons, firstFlaw?_append]
      exact (assignable_yields name s).bind fun symbol hsymbol =>
        (hindex name s index t rfl γ exit).bind fun _ => (hvalue.holding 1 γ exit).andQuiet fun _ =>
          (write_operand .setElement _).weaken fun _ => Symbol.operand_lt hsymbol.1
    | _ => exact (firstFlaw?_cons _ _) ▸ hfail ⟨.invalidAssignment .nestedIndex, _⟩ _ _
  | _ => exact (firstFlaw?_cons _ _) ▸ hfail ⟨.invalidAssignment .expression, _⟩ _ _

mutual

theorem expr_judges : (e : Expr) → e.Judged
  | .int _ _ | .decimal _ _ | .str _ _ => fun _ _ => .quiet (emitConstant_quiet _)
  | .bool true _ | .bool false _ | .null _ => fun _ _ => .quiet (write_simple _)
  | .ident name span => fun γ exit => by
    rw [Expr.sites, firstFlaw?_singleton]
    exact ident_judges name span
  | .unary _ e _ => fun γ exit => (expr_judges e γ exit).andQuiet fun _ => write_simple _
  | .binary op left right span => fun γ exit => by
    rw [expr, Expr.sites, firstFlaw?_cons, firstFlaw?_append]
    have hboth (operator : Operator) := (expr_judges left γ exit).bind fun _ =>
      ((expr_judges right).holding 1 γ exit).andQuiet
        (f := fun _ => discard (emit (.binary operator) [] span)) fun _ => write_simple _
    cases op with
    | pow => exact .fail ⟨.unknownOperator .pow, span⟩ fun _ h => h
    | _ => exact hboth _
  | .cond condition consequence alternative span => fun γ exit => by
    rw [expr_cond, Expr.sites_cond, Expr.size_cond, firstFlaw?_append, firstFlaw?_append]
    have halternative : Judges γ exit (firstFlaw? (alternative.elim [] (Block.sites γ exit.isSome)))
        (alternative.elim (.instruction .null) (Block.size γ exit)) γ γ.Agrees
        (Compile.alternative span alternative) := by
      cases alternative with
      | none => exact .quiet (write_simple _)
      | some b => exact branch_judges b γ exit
    exact (expr_judges condition γ exit).bind fun _ => .afterQuiet (emitJump_quiet _) fun _ =>
      (branch_judges consequence γ exit).bind fun _ => .afterQuiet (emitJump_quiet _) fun _ =>
        .afterSilent (patchHere_quiet _) fun _ => halternative.andSilent fun _ => patchHere_quiet _
  | .function name params (.mk body bodySpan) _ => fun γ _ =>
    functionWith_judges (stmts_judges body (γ.enter name params) none .body bodySpan)
  | .call callee args _ => fun γ exit => by
    rw [Expr.sites, firstFlaw?_append]
    exact (expr_judges callee γ exit).bind fun _ =>
      .counting (Nat.le_add_right_of_le (length_le_bytes exit 1 args)) fun hargs =>
        (exprs_judges 1 args γ exit).andQuiet fun _ => (write_operand .call _).weaken fun _ => hargs
  | .array items _ => fun γ exit =>
    .counting (Nat.le_add_right_of_le (length_le_bytes exit 0 items)) fun hitems =>
      (exprs_judges 0 items γ exit).andQuiet fun _ => (write_operand .array _).weaken fun _ => hitems
  | .hash ps _ => fun γ exit =>
    .counting (Nat.le_add_right_of_le (two_mul_length_le_bytes exit 0 ps)) fun hps =>
      (pairs_judges 0 ps γ exit).andQuiet fun _ => (write_operand .hash _).weaken fun _ => hps
  | .index target index _ => fun γ exit => by
    rw [Expr.sites, firstFlaw?_append]
    exact (expr_judges target γ exit).bind fun _ =>
      ((expr_judges index).holding 1 γ exit).andQuiet fun _ => write_simple _
  | .assign target value span => by
    refine assign_judges ?_ (expr_judges value)
    cases target with
    | index aggregate index t =>
      have hindex := expr_judges index
      rintro name s _ _ ⟨⟩
      exact hindex
    | _ => exact nofun

theorem exprs_judges : (held : Nat) → (es : List Expr) → (γ : Visible) → (exit : Option Nat) →
    Judges γ exit (firstFlaw? (exprsSites γ exit.isSome es)) (exprsSize γ exit held es) γ γ.Agrees
      (exprs held es)
  | _, [], _, _ => .quiet (.pure _)
  | held, e :: es, γ, exit => by
    rw [exprsSites, firstFlaw?_append]
    exact ((expr_judges e).holding held γ exit).bind fun _ => exprs_judges (held + 1) es γ exit

theorem pairs_judges : (held : Nat) → (ps : List (Expr × Expr)) → (γ : Visible) →
    (exit : Option Nat) → Judges γ exit (firstFlaw? (pairsSites γ exit.isSome ps))
      (pairsSize γ exit held ps) γ γ.Agrees (pairs held ps)
  | _, [], _, _ => .quiet (.pure _)
  | held, (key, value) :: ps, γ, exit => by
    rw [pairsSites, firstFlaw?_append, firstFlaw?_append]
    exact ((expr_judges key).holding held γ exit).bind fun _ =>
      ((expr_judges value).holding (held + 1) γ exit).bind fun _ =>
        pairs_judges (held + 2) ps γ exit

theorem branch_judges : (b : Block) → (γ : Visible) → (exit : Option Nat) →
    Judges γ exit (firstFlaw? (b.sites γ exit.isSome)) (b.size γ exit) γ γ.Agrees (branch b)
  | .mk body span, γ, exit => by
    rw [branch_mk]
    exact (stmts_judges body γ exit .branch span).blockWith .cond

theorem stmt_judges : (s : Stmt) → s.Judged
  | .bind name value span => fun γ exit => by
    rw [Stmt.drop, add_zero]
    have hstore : Judges γ exit none (γ.declares name.name + .instruction .set)
        (γ.declare name.name) γ.Agrees (do store (← define name) span) :=
      (define_yields name).bind fun s hs =>
        .quiet ((write_operand .set _).weaken fun _ => Symbol.operand_lt hs)
    have hvalue (e : Expr) (he : e.Judged) :
        Judges γ exit (firstFlaw? (e.sites γ exit.isSome))
          (e.size γ exit + (γ.declares name.name + .instruction .set)) (γ.declare name.name) γ.Agrees
          (do expr e; store (← define name) span) := by
      have hbind := (he γ exit).bind fun _ => hstore
      rwa [Option.or_none] at hbind
    cases value with
    | function own params b valueSpan =>
      cases b with
      | mk body bodySpan =>
        exact (define_yields name).bind fun s hs =>
          (functionWith_judges (stmts_judges body _ none .body bodySpan)).andQuiet fun _ =>
            (write_operand .set _).weaken fun _ => Symbol.operand_lt hs
    | _ => exact hvalue _ (expr_judges _)
  | .ret none _ => fun _ _ => .quiet (write_simple .ret)
  | .ret (some e) _ => fun γ exit => by
    rw [Stmt.drop, add_zero]
    exact (expr_judges e γ exit).andQuiet fun _ => write_simple _
  | .expr e _ => fun γ exit => (expr_judges e γ exit).andQuiet fun _ => write_simple _
  | .whileLoop condition (.mk body bodySpan) span => fun γ exit => by
    rw [stmt_whileLoop, Stmt.sites, firstFlaw?_append, Stmt.drop, add_zero]
    have hupdate : Judges γ exit none 0 γ γ.Agrees (update none) := .quiet (.pure _)
    have hbody := (stmts_judges body γ (some 0) .plain span).blockWith .loop
    rw [closing, bind_pure_unit] at hbody
    have hrounds := rounds_judges span true (guard_judges (expr_judges condition γ exit))
      hbody hupdate
    rwa [Option.or_none, zero_add, add_assoc] at hrounds
  | .forLoop first condition last (.mk body bodySpan) span => fun γ exit => by
    rw [stmt_forLoop, Stmt.sites_forLoop, Stmt.size_forLoop, firstFlaw?_append, firstFlaw?_append,
      firstFlaw?_append, Stmt.drop, add_zero]
    have hinit : Judges γ exit (firstFlaw? (first.elim [] (Stmt.sites γ exit.isSome)))
        (first.elim 0 fun s => s.size γ exit + s.drop) (initAfter γ first) (fun _ => True)
        (init first) := by
      cases first with
      | none => exact .quiet (.pure _)
      | some s => exact (stmt_judges s γ exit).mono fun _ _ => trivial
    have hguard (γ : Visible) :
        Judges γ exit (firstFlaw? (condition.elim [] (Expr.sites γ exit.isSome)))
          (condition.elim 0 fun e => e.size γ exit + .instruction .jumpIfFalse) γ (fun _ => True)
          (guard condition) := by
      cases condition with
      | none => exact .quiet (.pure _)
      | some e => exact (guard_judges (expr_judges e γ exit)).mono fun _ _ => trivial
    have hupdate (γ : Visible) :
        Judges γ exit (firstFlaw? (last.elim [] (Expr.sites γ exit.isSome)))
          (last.elim 0 fun e => e.size γ exit + .instruction .pop) γ (fun _ => True)
          (update last) := by
      cases last with
      | none => exact .quiet (.pure _)
      | some e =>
        exact ((expr_judges e γ exit).mono fun _ _ => trivial).andQuiet fun _ => write_simple _
    have hbody := stmts_judges body (initAfter γ first) (some 0) .plain span
    rw [closing, bind_pure_unit] at hbody
    exact (hinit.bind fun _ => rounds_judges _ false (hguard _) hbody (hupdate _)).blockWith .loop
  | .breakLoop span => fun γ exit => by
    rw [Stmt.sites, firstFlaw?_singleton, Stmt.drop, add_zero]
    exact (loopExit_judges .breakOutsideLoop span).andSilent fun _ =>
      Quiet.modifyUnit (fun u => .addBreak u _) fun u => Nat.le_of_eq (congrArg _ (u.code_addBreak _))
  | .continueLoop span => fun γ exit => by
    rw [Stmt.sites, firstFlaw?_singleton, Stmt.drop, add_zero]
    exact (loopExit_judges .continueOutsideLoop span).andSilent fun _ =>
      Quiet.modifyUnit (fun u => .addContinue u _) fun u => Nat.le_of_eq (congrArg _ (u.code_addContinue _))

theorem stmts_judges : (ss : List Stmt) → StmtsJudged ss
  | [] => fun _ _ how _ => .quiet (closing_quiet how)
  | [s] => fun γ exit how span => by
    have hlast : Judges γ exit (firstFlaw? (s.sites γ exit.isSome))
        (s.size γ exit + how.size (some s)) (s.after γ) (fun _ => True)
        (stmt s >>= fun _ => closing span how) := by
      refine last_judges how (stmt_judges s) ?_
      cases s with
      | expr e t =>
        have hexpr := expr_judges e
        rintro _ _ (h | h) <;> cases h
        exact hexpr
      | ret value t =>
        cases value with
        | none => rintro _ _ (h | h) <;> cases h
        | some e =>
          have hexpr := expr_judges e
          rintro _ _ (h | h) <;> cases h
          exact hexpr
      | _ => rintro _ _ (h | h) <;> cases h
    rw [statements, statements, bind_pure_unit, stmtsSites, stmtsSites, List.append_nil]
    exact hlast
  | s :: s' :: ss => fun γ exit how span => by
    rw [stmtsSites, firstFlaw?_append, stmtsSize, ← add_assoc, statements, bind_assoc]
    · have hs := (stmt_judges s γ exit).mono fun _ _ => trivial
      exact hs.bind fun _ _ => stmts_judges (s' :: ss) (s.after γ) exit how span
    · exact fun h => List.cons_ne_nil _ _ h

end

end Compile

/-! ## Programs -/

theorem mem_topLevel {ss : List Stmt} {errors : Array CompileError} {c : Compiler}
    {e : CompileError} (h : e ∈ errors) : e ∈ (Compile.topLevel ss errors c).1 := by
  induction ss generalizing errors c with
  | nil => exact h
  | cons s ss ih =>
    rw [topLevel_cons]
    rcases Compile.stmt s c with ⟨e' | _, c'⟩
    · exact ih (Array.mem_push_of_mem e' h)
    · exact ih h

/-- The value of the last statement of a program stays where it is. -/
theorem lastStmt_gives {s : Stmt} {c : Compiler} {v : OpenScopes} {γ : Visible} (hc : c.Sees v γ none)
    (hroom : c.Room v (s.size γ none)) :
    Gives (Compile.stmt s) c (fun _ _ => firstFlaw? (s.sites γ false) = none)
      fun e _ => (∃ m, e.cause = .internal m) ∨ firstFlaw? (s.sites γ false) = some e := by
  have hstmt (hdrop : s.drop = 0) :
      Gives (Compile.stmt s) c (fun _ _ => firstFlaw? (s.sites γ false) = none)
        fun e _ => (∃ m, e.cause = .internal m) ∨ firstFlaw? (s.sites γ false) = some e := by
    refine (Compile.stmt_judges s γ none c v hc ?_).mono (fun _ _ h => h.1) ?_
    · rw [hdrop, add_zero]
      exact hroom
    · exact fun _ _ ⟨_, _, he⟩ => he.imp_right And.left
  cases s with
  | expr e t =>
    rw [Compile.stmt_expr]
    refine (Compile.expr_judges e γ none c v hc hroom).bind ?_ ?_
    · exact fun _ _ ⟨_, _, he⟩ => he.imp_right And.left
    · intro _ c' h
      unfold Gives
      rw [Compile.write_apply rfl]
      exact h.1
  | _ => exact hstmt rfl

/-- From here on, the errors are the flaws of the statements, if the compiler has no faults. -/
def Compiler.Reports (c : Compiler) (γ : Visible) (ss : List Stmt) : Prop := ∀ errors,
  (∀ e ∈ (Compile.topLevel ss errors c).1, ¬∃ m, e.cause = .internal m) →
    (Compile.topLevel ss errors c).1.toList = errors.toList ++ flaws γ ss

theorem Compiler.reports_nil (c : Compiler) (γ : Visible) : c.Reports γ [] :=
  fun _ _ => (List.append_nil _).symm

theorem Compiler.reports_cons {c : Compiler} {γ : Visible} {s : Stmt} {ss : List Stmt}
    (h : Gives (Compile.stmt s) c
      (fun _ c' => firstFlaw? (s.sites γ false) = none ∧ c'.Reports (s.behind γ) ss)
      fun e c' => (∃ m, e.cause = .internal m) ∨
        firstFlaw? (s.sites γ false) = some e ∧ c'.Reports (s.behind γ) ss) :
    c.Reports γ (s :: ss) := by
  intro errors hfaults
  rw [topLevel_cons] at hfaults ⊢
  unfold Gives at h
  unfold flaws
  rcases hr : Compile.stmt s c with ⟨e | _, c'⟩ <;> rw [hr] at h hfaults <;> dsimp only at h hfaults ⊢
  · have hinternal := hfaults e (mem_topLevel Array.mem_push_self)
    obtain ⟨hflaw, hrest⟩ := h.resolve_left hinternal
    rw [hrest _ hfaults, Stmt.behind, hflaw, Array.toList_push, List.append_assoc,
      List.singleton_append]
    rfl
  · obtain ⟨hflaw, hrest⟩ := h
    rw [hrest _ hfaults, Stmt.behind, hflaw]
    rfl

theorem topLevel_reports {ss : List Stmt} {c : Compiler} {v : OpenScopes} {γ : Visible}
    (hc : c.Sees v γ none) (hroom : c.Room v (topLevelSize γ ss)) : c.Reports γ ss := by
  induction ss generalizing c v γ with
  | nil => exact c.reports_nil γ
  | cons s ss ih =>
    refine Compiler.reports_cons ?_
    cases ss with
    | nil =>
      exact (lastStmt_gives hc hroom).mono (fun _ c' h => ⟨h, c'.reports_nil _⟩)
        fun _ c' he => he.imp_right fun h => ⟨h, c'.reports_nil _⟩
    | cons s' ss =>
      rw [topLevelSize, ← add_assoc] at hroom
      · refine (Compile.stmt_judges s γ none c v hc (hroom.within (.left _ _))).mono ?_ ?_
        · rintro _ c' ⟨hflaw, -, v', hp, hafter⟩
          have hbehind : s.behind γ = s.after γ := if_pos (Option.isNone_iff_eq_none.mpr hflaw)
          rw [← hbehind] at hafter
          exact ⟨hflaw, ih (hc.after hp hafter) (hroom.right hp)⟩
        · rintro e c' ⟨v', hp, he⟩
          refine he.imp_right fun ⟨hflaw, hleft⟩ => ?_
          have hbehind : s.behind γ = s.afterFailure γ :=
            if_neg fun hnone => by simp [Option.isNone_iff_eq_none.mp hnone] at hflaw
          rw [← hbehind] at hleft
          exact ⟨hflaw, ih (hc.after hp hleft) (hroom.right hp)⟩
      · exact fun h => List.cons_ne_nil _ _ h

theorem Compiler.Sees.initial : ({} : Compiler).Sees {} {} none :=
  ⟨.initial, .initial, rfl, nofun⟩

/-- A program compiles if there are no errors, and else they are the result. -/
theorem compile_cases (program : Program) (unitName : String) :
    let errors := (Compile.topLevel program.statements #[] {}).1
    errors = #[] ∧ (∃ o, compile program unitName = .ok o) ∨
      errors ≠ #[] ∧ compile program unitName = .error errors := by
  unfold compile Compiler.compile
  rcases Compile.topLevel program.statements #[] {} with ⟨errors, c⟩
  dsimp only
  split
  · next h => exact .inl ⟨Array.isEmpty_iff.mp h, _, rfl⟩
  · next h => exact .inr ⟨mt Array.isEmpty_iff.mpr h, rfl⟩

theorem Program.WithinLimits.room {program : Program} (h : program.WithinLimits) :
    ({} : Compiler).Room {} (topLevelSize {} program.statements) := by
  obtain ⟨hbytes, hlocals, hcaptured⟩ := h.topLevel
  refine ⟨⟨?_, ?_⟩, ?_, ?_, h.bodies⟩
  · rw [List.size_toArray, List.length_nil, Nat.zero_add]
    exact h.constants
  · rw [List.size_toArray, List.length_nil, Nat.zero_add]
    exact hbytes
  · rw [OpenScopes.slots, Nat.zero_add]
    exact hlocals
  · rw [OpenScopes.captured, List.toFinset_nil, Finset.empty_union]
    exact hcaptured

/-- Within the limits of the code, the compiler accepts the valid programs. Of any other it reports
the first flaw of each flawed statement, in the order of the statements. -/
theorem compile_accepts {program : Program} {unitName : String} (h : program.WithinLimits) :
    ((∃ o, compile program unitName = .ok o) ↔ program.Valid) ∧
      ∀ errors, compile program unitName = .error errors →
        errors.toList = flaws {} program.statements := by
  have hfaults := topLevel_balanced program.statements #[] Compiler.Ready.initial.stands (by simp)
  have hflaws := topLevel_reports Compiler.Sees.initial h.room #[] fun e he ⟨m, hm⟩ =>
    hfaults.1 e he m hm
  have herrors : (#[] : Array CompileError).toList ++ flaws {} program.statements =
      flaws {} program.statements := rfl
  rw [herrors] at hflaws
  have hvalid : program.Valid ↔ (Compile.topLevel program.statements #[] {}).1 = #[] := by
    rw [Program.Valid, ← flaws_eq_nil_iff, ← hflaws, Array.toList_eq_nil_iff]
  rw [hvalid]
  obtain ⟨hempty, o, ho⟩ | ⟨hne, herror⟩ := compile_cases program unitName
  · simp [hempty, ho]
  · rw [herror]
    refine ⟨by simp [hne], ?_⟩
    rintro _ ⟨⟩
    exact hflaws

/-- The first source is compiled: its functions read what they capture, and an operand leaves a loop of
the same function. The second one has a flaw in each statement. -/
theorem compile_accepts_sources :
    (∃ program o, parseSource "let n = 0;
        let make = fn(a) { fn(b) {
          while (b) { let m = [a, if (n) { break; } else { b }]; m[0] = n; } a + b
        } };
        n = puts(make(1)(2));" = .ok program ∧ compile program unitName = .ok o) ∧
      ∃ program errors, parseSource
        "while (1) { fn() { break; }; } let f = fn(a) { fn() { a = 1; } }; f(g); 2 ** 3;" =
          .ok program ∧ compile program unitName = .error errors ∧
        errors.toList = [⟨.breakOutsideLoop, ⟨19, 25⟩⟩,
          ⟨.invalidAssignment (.named .captured "a"), ⟨54, 55⟩⟩,
          ⟨.symbol (.unresolved "g"), ⟨68, 69⟩⟩, ⟨.unknownOperator .pow, ⟨72, 78⟩⟩] := by
  have haccepted {source : String} (h : ((parseSource source).toOption.any fun program =>
      decide (program.WithinLimits ∧ program.Valid)) = true) :
      ∃ program o, parseSource source = .ok program ∧ compile program unitName = .ok o := by
    obtain ⟨program, hprogram, hp⟩ := (Option.any_eq_true ..).mp h
    obtain ⟨hlimits, hvalid⟩ := of_decide_eq_true hp
    obtain ⟨o, ho⟩ := (compile_accepts hlimits).1.mpr hvalid
    exact ⟨program, o, eq_ok_of_toOption hprogram, ho⟩
  have hrejected {source : String} {expected : List CompileError}
      (h : ((parseSource source).toOption.any fun program => decide (program.WithinLimits ∧
        ¬program.Valid ∧ flaws {} program.statements = expected)) = true) :
      ∃ program errors, parseSource source = .ok program ∧ compile program unitName = .error errors ∧
        errors.toList = expected := by
    obtain ⟨program, hprogram, hp⟩ := (Option.any_eq_true ..).mp h
    obtain ⟨hlimits, hinvalid, hflaws⟩ := of_decide_eq_true hp
    obtain ⟨haccepts, hreports⟩ := @compile_accepts program unitName hlimits
    cases hc : compile program unitName with
    | ok o => exact absurd (haccepts.mp ⟨o, hc⟩) hinvalid
    | error errors =>
      exact ⟨program, errors, eq_ok_of_toOption hprogram, hc, (hreports errors hc).trans hflaws⟩
  exact ⟨haccepted (by decide +kernel), hrejected (by decide +kernel)⟩

/-- The size of a program is what it takes when it is compiled. -/
example : ((parseSource "let f = fn(a) { let b = a; fn() { [a, b] } }; if (f) { f(1)(); }").toOption.any
    fun program => (compile program unitName).toOption.any fun o =>
      o.constants.size == program.size.constants && o.code.size == program.size.bytes &&
      program.size.bodies.map (fun b => (b.locals, b.captured)) == [(2, 0), (0, 2)]) = true := by
  decide +kernel

end StackScript
