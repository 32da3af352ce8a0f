import StackScript.Proofs.Compile.Functions
import StackScript.Proofs.Compile.Loops

/-! # Compiled programs

Every node adds its listing, by induction on the tree. So a program compiles to its listing, or to
errors that are not the compiler's own; and in both cases the compiler is ready for the next one.
-/

namespace StackScript

theorem Expr.Emitted.invalidTarget {target value : Expr} {span : Span}
    (hn : ∀ name s, target ≠ .ident name s)
    (hx : ∀ name s i t, target ≠ .index (.ident name s) i t) :
    (Expr.assign target value span).Emitted := by
  unfold Emitted
  cases target with
  | ident name s => exact absurd rfl (hn name s)
  | index aggregate i t =>
    cases aggregate with
    | ident name s => exact absurd rfl (hx name s i t)
    | _ => exact Emits.fail (by simp)
  | _ => exact Emits.fail (by simp)

mutual

theorem Expr.emitted : (e : Expr) → e.Emitted
  | .int _ _ | .decimal _ _ | .str _ _ => .constant rfl
  | .bool _ _ => .bool
  | .null _ => .null
  | .ident _ _ => .ident
  | .unary _ e _ => .unary e.emitted
  | .binary op left right _ =>
    match ho : op.operator? with
    | none => .unknownOperator ho
    | some _ => .binary ho left.emitted right.emitted
  | .cond condition consequence alternative _ =>
    .cond condition.emitted consequence.emitted
      fun _ h => match alternative, h with | some b, rfl => b.emitted
  | .function _ _ (.mk body _) _ => .function (stmts_emitted body)
  | .call callee args _ => .call callee.emitted (exprs_emitted 1 args)
  | .array items _ => .array (exprs_emitted 0 items)
  | .hash ps _ => .hash (pairs_emitted 0 ps)
  | .index target index _ => .index target.emitted index.emitted
  | .assign target value _ => by
    cases target with
    | ident _ _ => exact .assign value.emitted
    | index aggregate index _ =>
      cases aggregate with
      | ident _ _ => exact .assignElement index.emitted value.emitted
      | _ => exact .invalidTarget (by simp) (by simp)
    | _ => exact .invalidTarget (by simp) (by simp)

theorem exprs_emitted : (held : Nat) → (es : List Expr) → ExprsEmitted held es
  | _, [] => .nil
  | held, e :: es => .cons e.emitted (exprs_emitted (held + 1) es)

theorem pairs_emitted : (held : Nat) → (ps : List (Expr × Expr)) → PairsEmitted held ps
  | _, [] => .nil
  | held, (key, value) :: ps => .cons key.emitted value.emitted (pairs_emitted (held + 2) ps)

theorem Block.emitted : (b : Block) → b.Emitted
  | .mk body _ => .mk (stmts_emitted body)

theorem Stmt.emitted : (st : Stmt) → st.Emitted
  | .bind _ value _ => by
    cases value with
    | function _ _ b _ =>
      cases b with
      | mk body _ => exact .bindFunction (stmts_emitted body)
    | _ => exact .bind (Expr.emitted _) rfl
  | .ret none _ => .ret
  | .ret (some e) _ => .retValue e.emitted
  | .expr e _ => .expr e.emitted
  | .whileLoop condition (.mk body _) _ => .whileLoop condition.emitted (stmts_emitted body)
  | .forLoop first condition last (.mk body _) _ =>
    .forLoop (fun _ h => match first, h with | some st, rfl => st.emitted)
      (fun _ h => match condition, h with | some e, rfl => e.emitted)
      (fun _ h => match last, h with | some e, rfl => e.emitted) (stmts_emitted body)
  | .breakLoop _ => .breakLoop
  | .continueLoop _ => .continueLoop

theorem stmts_emitted : (ss : List Stmt) → StmtsEmitted ss
  | [] => .nil
  | st :: ss => .cons st.emitted (stmts_emitted ss)

end

section TopLevel

variable {c : Compiler} {v : OpenScopes} {items : List Item} {σ : Targets} {ss : List Stmt}
  {errors : Array CompileError}

theorem topLevel_cons (st : Stmt) (ss : List Stmt) (errors : Array CompileError) (c : Compiler) :
    Compile.topLevel (st :: ss) errors c = match Compile.stmt st c with
      | (.ok _, c') => Compile.topLevel ss errors c'
      | (.error e, c') => Compile.topLevel ss (errors.push e) c' := by
  rcases h : Compile.stmt st c with ⟨_ | _, c'⟩ <;>
    simp only [Compile.topLevel, bind, StateT.bind, ExceptT.run, h]

theorem size_le_topLevel (ss : List Stmt) (errors : Array CompileError) (c : Compiler) :
    errors.size ≤ (Compile.topLevel ss errors c).1.size := by
  induction ss generalizing errors c with
  | nil => exact Nat.le_refl _
  | cons st ss ih =>
    rw [topLevel_cons]
    rcases Compile.stmt st c with ⟨e | _, c'⟩
    · exact Nat.le_trans (by simp) (ih (errors.push e) c')
    · exact ih errors c'

theorem topLevel_cases (ss : List Stmt) (errors : Array CompileError) (c : Compiler) :
    (∃ c', Compile.statements ss c = (.ok (), c') ∧ Compile.topLevel ss errors c = (errors, c')) ∨
      errors.size < (Compile.topLevel ss errors c).1.size := by
  induction ss generalizing c with
  | nil => exact .inl ⟨c, rfl, rfl⟩
  | cons st ss ih =>
    rw [topLevel_cons, Compile.statements, bind_apply]
    rcases Compile.stmt st c with ⟨e | _, c'⟩
    · exact .inr (Nat.lt_of_lt_of_le (by simp) (size_le_topLevel ss (errors.push e) c'))
    · exact ih c'

theorem topLevel_balanced (ss : List Stmt) (errors : Array CompileError) (hc : c.Stands v items σ)
    (he : ∀ e ∈ errors, ∀ m, e.cause ≠ .internal m) :
    (∀ e ∈ (Compile.topLevel ss errors c).1, ∀ m, e.cause ≠ .internal m) ∧
      ∃ v' items' σ' exits, (Compile.topLevel ss errors c).2.Stands v' items' σ' ∧
        Balanced c v (Compile.topLevel ss errors c).2 v' exits := by
  induction ss generalizing c v items σ errors with
  | nil => exact ⟨he, v, items, σ, {}, hc, .refl c v⟩
  | cons st ss ih =>
    rw [topLevel_cons]
    have hst := st.emitted c v items σ hc
    rcases hr : Compile.stmt st c with ⟨e | _, c₁⟩
    · obtain ⟨hcause, v₁, items₁, σ₁, x, hs, hb⟩ := hst.of_error hr
      have hpush : ∀ e' ∈ errors.push e, ∀ m, e'.cause ≠ .internal m := by
        intro e' he'
        rcases Array.mem_push.mp he' with h | rfl
        · exact he e' h
        · exact hcause
      obtain ⟨herrors, v', items', σ', y, hs', hb'⟩ := ih _ hs hpush
      exact ⟨herrors, v', items', σ', _, hs', hb.trans hb'⟩
    · obtain ⟨v₁, new, σ₁, x, ha, -⟩ := hst.of_ok hr
      obtain ⟨herrors, v', items', σ', y, hs', hb'⟩ := ih errors ha.stands he
      exact ⟨herrors, v', items', σ', _, hs', ha.toBalanced.trans hb'⟩

end TopLevel

structure Compiler.Ready (c : Compiler) (v : OpenScopes) : Prop where
  scopes : c.scopes.Shows v
  outside : v.inner = []
  pool : PoolOk c.constants v.globals

/-- The object is the listing `is` of a program compiled in `v`. -/
structure Object.Lists (o : Object) (v : OpenScopes) (first : Nat) (body : List Stmt)
    (is : List Item) (s : Cursor) : Prop where
  listing : ProgramCode o.constants v.env ⟨0, v.globals, first⟩ body is s
  fits : ∀ i ∈ is, i.Fits
  code : o.code.toList = assemble (is.map (·.toInstruction))
  spans : o.spans.Locates is

section Compile

variable {c : Compiler} {v : OpenScopes}

theorem Compiler.Ready.initial : ({} : Compiler).Ready {} :=
  ⟨.initial, rfl, fun index v h => by simp at h⟩

theorem Compiler.Ready.stands (hc : c.Ready v) :
    Compiler.Stands { c with unit := {} } v [] fun _ => none :=
  ⟨hc.scopes, .empty, by simp, hc.pool⟩

theorem Compiler.Ready.of_balanced {c' : Compiler} {v' : OpenScopes} {items : List Item}
    {σ : Targets} {exits : Exits} (hc : c.Ready v) (hs : c'.Stands v' items σ)
    (hb : Balanced { c with unit := {} } v c' v' exits) :
    ({ c' with unit := {} } : Compiler).Ready v' :=
  ⟨hs.scopes, Decidable.byContradiction fun hne => hb.scopes.inner_ne_nil.mp hne hc.outside, hs.pool⟩

/-- The code of a program without the instruction that drops its last value. -/
theorem program_emitted {c' : Compiler} {ss : List Stmt} (hc : c.Ready v)
    (h : Compile.statements ss { c with unit := {} } = (.ok (), c')) :
    ∃ v' is s, Balanced { c with unit := {} } v c' v' {} ∧
      ({ c' with unit := {} } : Compiler).Ready v' ∧
      s.slots = v'.globals ∧ s.constants = c'.constants.size ∧
      ProgramCode c'.constants v.env ⟨0, v.globals, c.constants.size⟩ ss is s ∧
      (∃ is₀ s₀, StmtsCode c'.constants ⟨v.env, [], none, 0⟩ ⟨0, v.globals, c.constants.size⟩ ss is₀
        s₀ v'.env) ∧
      (∀ i ∈ is, i.Fits) ∧
      (if c'.unit.lastIs .pop then c'.unit.removeLast else c'.unit).code.toList =
        assemble (is.map (·.toInstruction)) ∧
      (if c'.unit.lastIs .pop then c'.unit.removeLast else c'.unit).spans.Locates is := by
  obtain ⟨v', new, σ, x, ha, hk, hl⟩ := (stmts_emitted ss _ v [] _ hc.stands).of_ok h
  obtain rfl : x = {} := ha.outside rfl
  have hready := hc.of_balanced ha.stands ha.toBalanced
  have hslots : v.slots = v.globals := by simp [OpenScopes.slots, hc.outside]
  have hslots' : v'.slots = v'.globals := by simp [OpenScopes.slots, hready.outside]
  have hcaptured : v'.captured = [] := by simp [OpenScopes.captured, hready.outside]
  have hcode := hl.now ha
  simp only [Compiler.setting, Compiler.cursor, hcaptured, hslots, hslots', Array.size_empty,
    List.head?_nil, Option.map_none] at hcode
  have hw := ha.stands.writes
  rw [List.nil_append] at hw
  by_cases he : ending ss = .value
  · obtain ⟨rfl, -⟩ | ⟨init, i, rfl, hi⟩ := hcode.exists_last_aimed
    · cases he
    have hop := Opcode.eq_pop_of_ending (hi.trans he)
    rw [if_pos (hw.lastIs_pop.trans (decide_eq_true (hi.trans he)))]
    obtain ⟨h₂, -⟩ := ha.removeLast (hk he) (by rw [hop]; rfl)
    have hw₂ := h₂.stands.writes
    rw [List.nil_append] at hw₂
    obtain ⟨s₀, -, hs, hv⟩ := hcode.value_aimed he
    refine ⟨v', aimed σ.operand init, s₀, ha.toBalanced, hready, ?_, ?_, .value hv, ⟨_, _, hcode⟩, ?_,
      hw₂.code, hw₂.spans.aimed _⟩
    · exact (congrArg Cursor.slots hs).symm
    · exact (congrArg Cursor.constants hs).symm
    · intro j hj
      obtain ⟨k, hk, rfl⟩ := List.mem_map.mp hj
      exact hw₂.fits k hk
  · have hlast : c'.unit.lastIs .pop = false := by
      obtain ⟨-, rfl⟩ | ⟨init, i, rfl, hi⟩ := hcode.exists_last_aimed
      · simp [CodeUnit.lastIs, hw.last]
      · exact hw.lastIs_pop.trans (decide_eq_false fun hv => he (hi.symm.trans hv))
    rw [if_neg (by simp [hlast])]
    refine ⟨v', aimed σ.operand new, _, ha.toBalanced, hready, rfl, rfl, .other he hcode,
      ⟨_, _, hcode⟩, ?_, hw.code, hw.spans.aimed _⟩
    intro j hj
    obtain ⟨k, hk, rfl⟩ := List.mem_map.mp hj
    exact hw.fits k hk

/-- A program compiles to its listing or fails with errors that are not the compiler's own. The
compiler is then ready for the next one. -/
theorem Compiler.Ready.compile (hc : c.Ready v) (program : Program) (unitName : String) :
    ∃ v', v.Extends v' ∧ (c.compile program unitName).2.Ready v' ∧
      c.constants.toList <+: (c.compile program unitName).2.constants.toList ∧
      match (c.compile program unitName).1 with
      | .error errors => errors ≠ #[] ∧ ∀ e ∈ errors, ∀ m, e.cause ≠ .internal m
      | .ok o => o.constants = (c.compile program unitName).2.constants ∧
          ∃ is s, s.slots = v'.globals ∧ s.constants = o.constants.size ∧
            o.Lists v c.constants.size program.statements is s := by
  unfold Compiler.compile
  rcases topLevel_cases program.statements #[] { c with unit := {} } with ⟨c', hs, ht⟩ | hlt
  · obtain ⟨v', is, s, hb, hready, hslots, hconstants, hlist, -, hfits, hcode⟩ :=
      program_emitted hc hs
    simp only [ht, Array.isEmpty_empty, if_true]
    exact ⟨v', hb.scopes, hready, hb.constants, trivial, is, s, hslots, hconstants, hlist,
      hfits, hcode.1, hcode.2⟩
  · obtain ⟨herrors, v', items, σ, x, hs, hb⟩ :=
      topLevel_balanced program.statements #[] hc.stands (by simp)
    rcases ht : Compile.topLevel program.statements #[] { c with unit := {} } with ⟨errors, c'⟩
    rw [ht] at herrors hs hb hlt
    have hne : errors ≠ #[] := Array.size_pos_iff.mp hlt
    simp only [Array.isEmpty_iff, hne, if_false]
    exact ⟨v', hb.scopes, hc.of_balanced hs hb, hb.constants, hne, herrors⟩

end Compile

end StackScript
