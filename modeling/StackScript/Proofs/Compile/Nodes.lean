import StackScript.Proofs.Compile.Emission

/-! # The code of nodes

Each node of the tree adds the listing that its rule gives, if its parts do.
-/

namespace StackScript

def Expr.Emitted (e : Expr) : Prop :=
  Emits False (fun _ pool c s is s' env => ExprCode pool c s e is s' ∧ env = c.env) (Compile.expr e)

def ExprsEmitted (held : Nat) (es : List Expr) : Prop :=
  Emits False (fun _ pool c s is s' env => ExprsCode pool (c.above held) s es is s' ∧ env = c.env)
    (Compile.exprs held es)

def PairsEmitted (held : Nat) (ps : List (Expr × Expr)) : Prop :=
  Emits False (fun _ pool c s is s' env => PairsCode pool (c.above held) s ps is s' ∧ env = c.env)
    (Compile.pairs held ps)

def Stmt.Emitted (st : Stmt) : Prop :=
  Emits (st.ending = .value) (fun _ pool c s is s' env => StmtCode pool c s st is s' env)
    (Compile.stmt st)

def StmtsEmitted (ss : List Stmt) : Prop :=
  Emits (ending ss = .value) (fun _ pool c s is s' env => StmtsCode pool c s ss is s' env)
    (Compile.statements ss)

section Straight

attribute [local simp] Compile.expr Compile.exprs Compile.pairs Compile.statements

variable {e e' : Expr} {es : List Expr} {ps : List (Expr × Expr)} {st : Stmt} {ss : List Stmt}
  {held : Nat} {span : Span}

theorem Expr.Emitted.constant {w : Value} (he : e.constant? = some w) : e.Emitted := by
  unfold Emitted
  cases e <;> cases he <;> rw [Compile.expr] <;> exact Emits.constant rfl

theorem Expr.Emitted.bool {b : Bool} : (Expr.bool b span).Emitted := by
  unfold Emitted
  rw [Compile.expr]
  refine (Emits.instruction 0 [] _ _ (by cases b <;> rfl) (by cases b <;> rfl) span).mono
    (fun h => h.elim) ?_
  rintro - pool c s is s' env ⟨rfl, rfl, rfl⟩
  exact ⟨.bool, rfl⟩

theorem Expr.Emitted.null : (Expr.null span).Emitted := by
  unfold Emitted
  rw [Compile.expr]
  refine (Emits.instruction 0 [] _ _ rfl rfl span).mono (fun h => h.elim) ?_
  rintro - pool c s is s' env ⟨rfl, rfl, rfl⟩
  exact ⟨.null, rfl⟩

theorem Expr.Emitted.ident {name : String} : (Expr.ident name span).Emitted := by
  unfold Emitted
  rw [Compile.expr]
  refine ((Emits.resolve name span).bind fun s => Emits.load 0 [] s span).mono (fun h => h.elim) ?_
  rintro - pool c s is s' env ⟨_, _, _, _, _, rfl, ⟨rfl, rfl, rfl, hp, hi⟩, rfl, rfl, rfl⟩
  exact ⟨.ident hp hi, rfl⟩

theorem Expr.Emitted.unary {op : UnaryOp} (he : e.Emitted) : (Expr.unary op e span).Emitted := by
  unfold Emitted
  rw [Compile.expr]
  refine (Emits.bind he fun _ => Emits.instruction 1 [] _ _ rfl rfl span).mono (fun h => h.elim) ?_
  rintro - pool c s is s' env ⟨_, _, _, _, _, rfl, ⟨h, rfl⟩, rfl, rfl, rfl⟩
  exact ⟨.unary h, rfl⟩

theorem Expr.Emitted.binary {op : BinaryOp} {operator : Operator}
    (ho : op.operator? = some operator) (he : e.Emitted) (he' : e'.Emitted) :
    (Expr.binary op e e' span).Emitted := by
  unfold Emitted
  rw [Compile.expr, ho]
  refine (Emits.bind he fun _ => (Emits.holding he' 1).bind fun _ =>
    Emits.instruction 2 [] _ _ rfl rfl span).mono (fun h => h.elim) ?_
  rintro - pool c s is s' env
    ⟨_, _, _, _, _, rfl, ⟨h, rfl⟩, _, _, _, _, _, rfl, ⟨h', rfl⟩, rfl, rfl, rfl⟩
  rw [← List.append_assoc]
  exact ⟨.binary ho h h', rfl⟩

theorem Expr.Emitted.unknownOperator {op : BinaryOp} (ho : op.operator? = none) :
    (Expr.binary op e e' span).Emitted := by
  unfold Emitted
  rw [Compile.expr, ho]
  exact Emits.fail (by simp)

theorem Expr.Emitted.call (he : e.Emitted) (hes : ExprsEmitted 1 es) :
    (Expr.call e es span).Emitted := by
  unfold Emitted
  rw [Compile.expr]
  refine (Emits.bind he fun _ => Emits.bind hes fun _ =>
    Emits.instruction (1 + es.length) [] _ _ rfl rfl span).mono (fun h => h.elim) ?_
  rintro - pool c s is s' env
    ⟨_, _, _, _, _, rfl, ⟨h, rfl⟩, _, _, _, _, _, rfl, ⟨h', rfl⟩, rfl, rfl, rfl⟩
  rw [← List.append_assoc]
  exact ⟨.call h h', rfl⟩

theorem Expr.Emitted.array (hes : ExprsEmitted 0 es) : (Expr.array es span).Emitted := by
  unfold Emitted
  rw [Compile.expr]
  refine (Emits.bind hes fun _ => Emits.instruction es.length [] _ _ rfl rfl span).mono
    (fun h => h.elim) ?_
  rintro - pool c s is s' env ⟨_, _, _, _, _, rfl, ⟨h, rfl⟩, rfl, rfl, rfl⟩
  exact ⟨.array h, rfl⟩

theorem Expr.Emitted.hash (hps : PairsEmitted 0 ps) : (Expr.hash ps span).Emitted := by
  unfold Emitted
  rw [Compile.expr]
  refine (Emits.bind hps fun _ => Emits.instruction (2 * ps.length) [] _ _ rfl rfl span).mono
    (fun h => h.elim) ?_
  rintro - pool c s is s' env ⟨_, _, _, _, _, rfl, ⟨h, rfl⟩, rfl, rfl, rfl⟩
  exact ⟨.hash h, rfl⟩

theorem Expr.Emitted.index (he : e.Emitted) (he' : e'.Emitted) :
    (Expr.index e e' span).Emitted := by
  unfold Emitted
  rw [Compile.expr]
  refine (Emits.bind he fun _ => (Emits.holding he' 1).bind fun _ =>
    Emits.instruction 2 [] _ _ rfl rfl span).mono (fun h => h.elim) ?_
  rintro - pool c s is s' env
    ⟨_, _, _, _, _, rfl, ⟨h, rfl⟩, _, _, _, _, _, rfl, ⟨h', rfl⟩, rfl, rfl, rfl⟩
  rw [← List.append_assoc]
  exact ⟨.index h h', rfl⟩

theorem Expr.Emitted.assign {name : String} {nameSpan : Span} (he : e.Emitted) :
    (Expr.assign (.ident name nameSpan) e span).Emitted := by
  unfold Emitted
  rw [Compile.expr]
  refine ((Emits.assignable name nameSpan).bind fun x => Emits.bind he fun _ =>
    (Emits.store 1 x span).bind fun _ => Emits.load 0 [] x span).mono (fun h => h.elim) ?_
  rintro - pool c s is s' env ⟨_, _, _, _, _, rfl, ⟨rfl, rfl, rfl, hp, hi, ha⟩, _, _, _, _, _, rfl,
    ⟨h, rfl⟩, _, _, _, _, _, rfl, ⟨rfl, rfl, rfl⟩, rfl, rfl, rfl⟩
  rw [List.nil_append, ← List.append_assoc]
  exact ⟨.assign hp hi ha h, rfl⟩

theorem Expr.Emitted.assignElement {name : String} {nameSpan targetSpan : Span} (he : e.Emitted)
    (he' : e'.Emitted) :
    (Expr.assign (.index (.ident name nameSpan) e targetSpan) e' span).Emitted := by
  unfold Emitted
  rw [Compile.expr]
  refine ((Emits.assignable name nameSpan).bind fun x => Emits.bind he fun _ =>
    (Emits.holding he' 1).bind fun _ =>
      Emits.instruction 2 [] .setElement [x.place.operand] rfl rfl span).mono
    (fun h => h.elim) ?_
  rintro - pool c s is s' env ⟨_, _, _, _, _, rfl, ⟨rfl, rfl, rfl, hp, hi, ha⟩, _, _, _, _, _, rfl,
    ⟨h, rfl⟩, _, _, _, _, _, rfl, ⟨h', rfl⟩, rfl, rfl, rfl⟩
  rw [List.nil_append, ← List.append_assoc]
  exact ⟨.assignElement hp hi ha h h', rfl⟩

theorem ExprsEmitted.nil : ExprsEmitted held [] := by
  unfold ExprsEmitted
  rw [Compile.exprs]
  refine (Emits.pure (P := fun _ _ => True) fun _ => trivial).mono id ?_
  rintro - pool c s is s' env ⟨rfl, rfl, rfl, -⟩
  exact ⟨.nil, rfl⟩

theorem ExprsEmitted.cons (he : e.Emitted) (hes : ExprsEmitted (held + 1) es) :
    ExprsEmitted held (e :: es) := by
  unfold ExprsEmitted
  rw [Compile.exprs]
  refine ((Emits.holding he held).bind fun _ => hes).mono id ?_
  rintro - pool c s is s' env ⟨_, _, _, _, _, rfl, ⟨h, rfl⟩, h', rfl⟩
  exact ⟨.cons h (by simpa [Setting.above, Setting.within, Nat.add_assoc] using h'), rfl⟩

theorem PairsEmitted.nil : PairsEmitted held [] := by
  unfold PairsEmitted
  rw [Compile.pairs]
  refine (Emits.pure (P := fun _ _ => True) fun _ => trivial).mono id ?_
  rintro - pool c s is s' env ⟨rfl, rfl, rfl, -⟩
  exact ⟨.nil, rfl⟩

theorem PairsEmitted.cons (he : e.Emitted) (he' : e'.Emitted) (hps : PairsEmitted (held + 2) ps) :
    PairsEmitted held ((e, e') :: ps) := by
  unfold PairsEmitted
  rw [Compile.pairs]
  refine ((Emits.holding he held).bind fun _ => (Emits.holding he' (held + 1)).bind fun _ =>
    hps).mono id ?_
  rintro - pool c s is s' env
    ⟨_, _, _, _, _, rfl, ⟨h, rfl⟩, _, _, _, _, _, rfl, ⟨h', rfl⟩, h'', rfl⟩
  rw [← List.append_assoc]
  exact ⟨.cons h (by simpa [Setting.above, Setting.within, Nat.add_assoc] using h')
    (by simpa [Setting.above, Setting.within, Nat.add_assoc] using h''), rfl⟩

theorem Stmt.Emitted.ret : (Stmt.ret none span).Emitted := by
  refine (Emits.instruction 0 [] .ret [] rfl rfl span).mono
    (fun _ => trivial) ?_
  rintro - pool c s is s' env ⟨rfl, rfl, rfl⟩
  exact .ret

theorem Stmt.Emitted.retValue (he : e.Emitted) : (Stmt.ret (some e) span).Emitted := by
  refine (Emits.bind he fun _ => Emits.instruction 1 [] .retValue [] rfl rfl
    span).mono (fun _ => trivial) ?_
  rintro - pool c s is s' env ⟨_, _, _, _, _, rfl, ⟨h, rfl⟩, rfl, rfl, rfl⟩
  exact .retValue h

theorem Stmt.Emitted.expr (he : e.Emitted) : (Stmt.expr e span).Emitted := by
  refine (Emits.bind he fun _ => Emits.instruction 1 [] .pop [] rfl rfl
    e.span).mono (fun _ => trivial) ?_
  rintro - pool c s is s' env ⟨_, _, _, _, _, rfl, ⟨h, rfl⟩, rfl, rfl, rfl⟩
  exact .expr h

theorem Stmt.Emitted.bind {name : Ident} (he : e.Emitted) (hf : e.isFunction = false) :
    (Stmt.bind name e span).Emitted := by
  unfold Emitted
  have hstmt : Compile.stmt (.bind name e span) =
      (Compile.expr e >>= fun _ => Compile.define name >>= fun x => Compile.store x span) := by
    cases e <;> first | rfl | cases hf
  rw [hstmt]
  refine (Emits.bind he fun _ => (Emits.define name).bind fun x => Emits.store 1 x span).mono
    (fun _ => trivial) ?_
  rintro - pool c s is s' env ⟨_, _, _, _, _, rfl, ⟨h, rfl⟩, _, _, _, _, _, rfl,
    ⟨rfl, hi, slots, hd, rfl⟩, rfl, rfl, rfl⟩
  exact .bind hf h hd hi

theorem StmtsEmitted.nil : StmtsEmitted [] := by
  unfold StmtsEmitted
  rw [Compile.statements]
  refine (Emits.pure (P := fun _ _ => True) fun _ => trivial).mono (fun h => by cases h) ?_
  rintro - pool c s is s' env ⟨rfl, rfl, rfl, -⟩
  exact .nil

theorem StmtsEmitted.cons (hs : st.Emitted) (hss : StmtsEmitted ss) : StmtsEmitted (st :: ss) := by
  unfold StmtsEmitted
  cases ss with
  | nil =>
    have hst : Compile.statements [st] = Compile.stmt st := by
      rw [Compile.statements, Compile.statements]
      exact bind_pure _
    rw [hst]
    refine Emits.mono hs (fun h => h) ?_
    intro _ pool c s is s' env h
    rw [← List.append_nil is]
    exact .cons h .nil
  | cons st' ss =>
    rw [Compile.statements]
    refine (Emits.bind hs fun _ => hss).mono (fun h => h) ?_
    rintro - pool c s is s' env ⟨_, _, _, _, _, rfl, h, h'⟩
    exact .cons h h'

end Straight

section Endings

variable {pool : Array Value} {setting : Setting} {s s₁ : Cursor} {ss : List Stmt} {env : Lexical}
  {τ : Nat → Nat} {items init new : List Item} {i : Item} {σ σ₀ : Targets} {u : CodeUnit}

theorem StmtsCode.exists_last_aimed (h : StmtsCode pool setting s ss (aimed τ new) s₁ env) :
    ss = [] ∧ new = [] ∨ ∃ init i, new = init ++ [i] ∧ i.op.ending = ending ss := by
  cases ss with
  | nil =>
    have hn : aimed τ new = [] := by generalize aimed τ new = is at h; cases h; rfl
    exact .inl ⟨rfl, List.map_eq_nil_iff.mp hn⟩
  | cons st ss =>
    obtain ⟨init, i, his, hi⟩ := h.exists_last (List.cons_ne_nil _ _)
    obtain ⟨init', is', rfl, -, hs⟩ := List.map_eq_append_iff.mp his
    obtain ⟨i', rfl, hi'⟩ := List.map_eq_singleton_iff.mp hs
    exact .inr ⟨init', i', rfl, by rw [← hi, ← hi', Item.op_aim]⟩

theorem Opcode.eq_pop_of_ending {op : Opcode} (h : op.ending = .value) : op = .pop := by
  cases op <;> first | rfl | cases h

theorem StmtsCode.value_aimed (h : StmtsCode pool setting s ss (aimed τ (init ++ [i])) s₁ env)
    (he : ending ss = .value) :
    ∃ s₀, i = (setting.above 1).item s₀ ⟨.pop, []⟩ (valueSpan ss) ∧ s₁ = s₀.skip .pop ∧
      ValueCode pool setting s ss (aimed τ init) s₀ := by
  obtain ⟨init', s₀, his, hs, hv⟩ := h.exists_value he
  rw [aimed_append, aimed_singleton] at his
  obtain ⟨rfl, hi⟩ := List.append_inj' his rfl
  have hi := List.head_eq_of_cons_eq hi
  have hop : i.op = .pop := by rw [← Item.op_aim (τ := τ), hi]; rfl
  rw [Item.aim_of_not_isJump (by rw [hop]; rfl)] at hi
  exact ⟨s₀, hi, hs, hv⟩

theorem CodeUnit.Writes.lastIs_concat (h : u.Writes (items ++ [i]) σ) (op : Opcode) :
    u.lastIs op = decide (i.op = op) := by
  simp [CodeUnit.lastIs, h.last, Item.emitted]

theorem CodeUnit.Writes.lastIs_pop (h : u.Writes (items ++ [i]) σ) :
    u.lastIs .pop = decide (i.op.ending = .value) := by
  rw [h.lastIs_concat]
  cases i.op <;> rfl

theorem CodeUnit.Writes.lastIs_return (h : u.Writes (items ++ [i]) σ) :
    (u.lastIs .retValue || u.lastIs .ret) = decide (i.op.ending = .returned) := by
  rw [h.lastIs_concat, h.lastIs_concat]
  cases i.op <;> rfl

theorem Lists.now {R : Array Value → Setting → Cursor → List Item → Cursor → Lexical → Prop}
    {c c' : Compiler} {v v' : OpenScopes} {exits : Exits}
    (h : Lists R c v c' v' new σ exits) (ha : Adds c v items σ₀ c' v' new σ exits) :
    R c'.constants (c.setting v v'.captured CodeUnit.placeholder CodeUnit.placeholder) (c.cursor v)
      (aimed σ.operand new) (c'.cursor v') v'.env := by
  refine h _ _ _ _ _ ⟨List.prefix_refl _, List.prefix_refl _, fun p t hp => ?_, ?_, ?_⟩
  · simp [Targets.operand, hp]
  · intro j hj
    simp [Targets.operand, (ha.pending j (by simp [Exits.all, hj])).1]
  · intro j hj
    simp [Targets.operand, (ha.pending j (by simp [Exits.all, hj])).1]

theorem Adds.removeLast {c c₁ : Compiler} {v v₁ : OpenScopes} {exits : Exits}
    (h : Adds c v items σ₀ c₁ v₁ (init ++ [i]) σ exits)
    (hr : c₁.unit.Recalls (items ++ (init ++ [i]))) (hn : i.op.isJump = false) :
    Adds c v items σ₀ { c₁ with unit := c₁.unit.removeLast } v₁ init σ exits ∧
      c₁.unit.removeLast.code.size = i.offset := by
  have hw := h.stands.writes
  rw [← List.append_assoc] at hw hr
  obtain ⟨hw', hsize, hloops, hheld⟩ := hw.removeLast hr hn
  refine ⟨?_, hsize⟩
  exact {
    scopes := h.scopes
    constants := h.constants
    held := hheld.trans h.held
    loops := hloops.trans h.loops
    stands := ⟨h.stands.scopes, hw', by simp only [hloops, hheld]; exact h.stands.held,
      h.stands.pool⟩
    targets := h.targets
    pending := fun j hj => by
      obtain ⟨hσ, k, hk, hjump, rfl⟩ := h.pending j hj
      rcases List.mem_append.mp hk with hk | hk
      · exact ⟨hσ, k, hk, hjump, rfl⟩
      · rw [List.mem_singleton.mp hk, hn] at hjump
        cases hjump
    apart := h.apart
    outside := h.outside }

end Endings

def Block.Emitted (b : Block) : Prop :=
  ∀ c v items σ, Compiler.Stands c v items σ → (∀ i, items.getLast? = some i → i.op ≠ .pop) →
    Gives (Compile.branch b) c
      (fun _ c' => ∃ v' new σ' exits, Adds c v items σ c' v' new σ' exits ∧
        Lists (fun pool c s is s' env => BranchCode pool c s b is s' ∧ env = c.env)
          c v c' v' new σ' exits)
      (Fails c v)

theorem Block.Emitted.mk {ss : List Stmt} {span : Span} (hss : StmtsEmitted ss) :
    (Block.mk ss span).Emitted := by
  intro c v items σ hc hlast
  rw [Compile.branch]
  refine (Emits.blockWith hss .cond c v items σ hc).bind (fun _ _ h => h) ?_
  rintro _ c₁ ⟨v₁, new, σ₁, x, h₁, hk, hl⟩
  obtain ⟨-, env', hnow⟩ := hl.now h₁
  unfold Compile.keepBlockValue
  refine Gives.reading (a := c₁.unit) rfl ?_
  by_cases he : ending ss = .value
  · obtain ⟨rfl, -⟩ | ⟨init, i, rfl, hi⟩ := hnow.exists_last_aimed
    · cases he
    have hop := Opcode.eq_pop_of_ending (hi.trans he)
    have hw := h₁.stands.writes
    rw [← List.append_assoc] at hw
    rw [if_pos (hw.lastIs_pop.trans (decide_eq_true (hi.trans he)))]
    obtain ⟨h₂, hsize⟩ := h₁.removeLast (hk he) (by rw [hop]; rfl)
    refine ⟨v₁, init, σ₁, x, h₂, ?_⟩
    intro pool captured τ b k hm
    obtain ⟨henv, env'', hcode⟩ := hl pool captured τ b k
      ⟨hm.constants, hm.captured, hm.targets, hm.exits⟩
    obtain ⟨s₀, hi', hs₀, hv⟩ := hcode.value_aimed he
    refine ⟨.value ?_, henv⟩
    have hcur : s₀ = Compiler.cursor { c₁ with unit := c₁.unit.removeLast } v₁ := by
      have hoff : i.offset = s₀.offset := by rw [hi']; rfl
      obtain ⟨o, sl, k⟩ := s₀
      simp only [Compiler.cursor, Cursor.skip, Cursor.mk.injEq] at hs₀ ⊢
      exact ⟨by rw [hsize, hoff], hs₀.2.1.symm, hs₀.2.2.symm⟩
    rwa [hcur] at hv
  · have hne : c₁.unit.lastIs .pop = false := by
      obtain ⟨-, rfl⟩ | ⟨init, i, rfl, hi⟩ := hnow.exists_last_aimed
      · have hw := h₁.stands.writes
        rw [List.append_nil] at hw
        cases hitem : items.getLast? with
        | none => simp [CodeUnit.lastIs, hw.last, hitem]
        | some i => simp [CodeUnit.lastIs, hw.last, hitem, Item.emitted, hlast i hitem]
      · have hw := h₁.stands.writes
        rw [← List.append_assoc] at hw
        exact hw.lastIs_pop.trans (decide_eq_false fun hv => he (hi.symm.trans hv))
    rw [hne, if_neg Bool.false_ne_true]
    refine (Emits.instruction 0 [] _ _ rfl rfl span c₁ v₁ _ σ₁ h₁.stands).mono ?_
      fun _ _ h => h.after h₁.toBalanced
    rintro _ c₂ ⟨v₂, new₂, σ₂, x₂, h₂, -, hl₂⟩
    refine ⟨v₂, _, σ₂, _, h₁.trans hc h₂, ?_⟩
    intro pool captured τ b k hm
    obtain ⟨henv, env'', hcode⟩ := hl pool captured τ b k (hm.before h₂ h₁.stands)
    obtain ⟨his, hs, henv₂⟩ := hl₂ pool captured τ b k hm.right
    rw [h₁.setting_eq, henv] at his henv₂
    rw [aimed_append, his, hs]
    exact ⟨.null he hcode, henv₂⟩

end StackScript
