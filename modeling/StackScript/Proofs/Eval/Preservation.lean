import StackScript.Proofs.Eval.Nodes
import StackScript.Proofs.Session.Entries

/-! # Compiled programs do what their evaluation does

The code of every node follows its evaluation, by induction on the listing. So a program without
functions ends on the machine as its evaluation ends, whenever that ends at all.
-/

namespace StackScript

section Evaluations

variable {fuel n : Nat} {env : Lexical}

theorem Eval.exprs_gives (es : List Expr) (st : Store) :
    Gives (Eval.exprs fuel es env n) st (fun vs _ => vs.length = es.length) fun _ _ => True := by
  induction es generalizing n st with
  | nil => rfl
  | cons e es ih =>
    refine (Gives.any _ _).bind (fun _ _ h => h) fun v st₁ _ => ?_
    refine (ih st₁).bind (fun _ _ h => h) fun vs st₂ hvs => ?_
    exact congrArg (· + 1) hvs

theorem Eval.pairs_gives (ps : List (Expr × Expr)) (st : Store) :
    Gives (Eval.pairs fuel ps env n) st (fun vs _ => (flattened vs).length = 2 * ps.length)
      fun _ _ => True := by
  induction ps generalizing n st with
  | nil => rfl
  | cons p ps ih =>
    obtain ⟨key, value⟩ := p
    refine (Gives.any _ _).bind (fun _ _ h => h) fun k st₁ _ => ?_
    refine (Gives.any _ _).bind (fun _ _ h => h) fun v st₂ _ => ?_
    refine (ih st₂).bind (fun _ _ h => h) fun vs st₃ hvs => ?_
    exact congrArg (· + 2) hvs

/-- Statements that do not end with an expression have no value. -/
theorem Eval.value_of_ending {ss : List Stmt} (h : ending ss ≠ .value) :
    Eval.value fuel ss env n = (do Eval.stmts fuel ss env n; return .null) := by
  induction ss generalizing env n with
  | nil => simp only [Eval.value, Eval.stmts, pure_bind]
  | cons st ss ih =>
    have hlast : ss = [] → st.ending ≠ .value := by
      rintro rfl
      exact h
    have hrest : ending ss ≠ .value := by
      cases ss with
      | nil => exact fun he => by cases he
      | cons st' ss => exact h
    rw [Eval.value, Eval.stmts, ih hrest, bind_assoc]
    rintro e span rfl rfl
    exact hlast rfl rfl

theorem Eval.assign_eq (index : Nat) (v : Value) :
    Eval.assign ⟨.globalSlot, index⟩ v =
      (do let _ ← Eval.assign ⟨.globalSlot, index⟩ v; Eval.read ⟨.globalSlot, index⟩) := by
  funext st
  simp only [Eval.assign, Eval.copied, Eval.write, Eval.read, bind_apply, modifyGet_apply,
    modify_apply, get_apply, pure_apply, if_true]

end Evaluations

section Nodes

variable {t : Text}

/-- A program without functions makes no closure. -/
theorem ClosureCode.not_subset {pool : Array Value} {c : Setting} {s s₁ : Cursor}
    {self : Option String} {params : List Ident} {body : List Stmt} {bodySpan span : Span}
    {is : List Item} (h : ClosureCode pool c s self params body bodySpan span is s₁) :
    ¬ is ⊆ t.items := by
  intro hsub
  cases h with
  | mk =>
    have hplain := t.plain _ (hsub (List.mem_append_right _ List.mem_cons_self))
    cases hplain

section Parts

variable {c : Setting} {s s₁ s₂ s₃ : Cursor} {base l : List Value} {fuel : Nat} {span : Span}

theorem Text.Follows.literal {e : Expr} {v : Value} {k : Nat} (hc : c.Meets base l)
    (he : e.constant? = some v) (hj : c.item s ⟨.constant, [k]⟩ span ∈ t.items)
    (hk : t.pool[k]? = some v) :
    t.Follows c.loop base s.offset l (Eval.expr fuel e c.env s.slots)
      (fun _ => (s.skip .constant).offset) fun v => l ++ [v] := by
  cases e with
  | int _ _ | decimal _ _ | str _ _ =>
    cases he
    exact .constant hc hj hk
  | _ => cases he

/-- Two operands, the second one above the first, and what takes them. -/
theorem ExprCode.follows_operands {α : Type} {e₁ e₂ : Expr} {is₁ : List Item}
    {f : Value → Value → Eval α} {next : α → Nat} {after : α → List Value}
    (h₁ : ExprCode t.pool c s e₁ is₁ s₁)
    (hx₁ : t.Follows c.loop base s.offset l (Eval.expr fuel e₁ c.env s.slots) (fun _ => s₁.offset)
      fun v => l ++ [v])
    (hx₂ : ∀ v, t.Follows (c.above 1).loop base s₁.offset (l ++ [v])
      (Eval.expr fuel e₂ (c.above 1).env s₁.slots) (fun _ => s₂.offset) fun w => l ++ [v] ++ [w])
    (hf : ∀ v w, t.Follows c.loop base s₂.offset (l ++ [v, w]) (f v w) next after) :
    t.Follows c.loop base s.offset l (do
      let v ← Eval.expr fuel e₁ c.env s.slots
      f v (← Eval.expr fuel e₂ c.env (e₁.taken c.env s.slots))) next after := by
  rw [← h₁.slots_eq]
  refine hx₁.bind fun v => (hx₂ v).bind fun w => ?_
  rw [List.append_assoc]
  exact hf v w

/-- A jump over the first branch, and one over the second behind it. -/
theorem Text.Follows.choose {x y z : Eval Value}
    (htest : (c.above 1).item s₁ ⟨.jumpIfFalse, [(s₂.skip .jump).offset]⟩ span ∈ t.items)
    (hskip : (c.above 1).item s₂ ⟨.jump, [s₃.offset]⟩ span ∈ t.items)
    (hx : t.Follows c.loop base s.offset l x (fun _ => s₁.offset) fun v => l ++ [v])
    (hy : t.Follows c.loop base (s₁.skip .jumpIfFalse).offset l y (fun _ => s₂.offset)
      fun v => l ++ [v])
    (hz : t.Follows c.loop base (s₂.skip .jump).offset l z (fun _ => s₃.offset)
      fun v => l ++ [v]) :
    t.Follows c.loop base s.offset l (do if (← x).truthy then y else z) (fun _ => s₃.offset)
      fun v => l ++ [v] := by
  refine hx.bind fun v => .before (.jumpIfFalse htest rfl) ?_
  cases v.truthy with
  | true => exact hy.behind fun w => .jump hskip rfl
  | false => exact hz

/-- The value of an assignment is stored, and read again. -/
theorem Text.Follows.assign {name : String} {p : Place} {x : Eval Value} (hc : c.Meets base l)
    (hp : c.env.place? c.captured name = some p) (hlt : p.index < Storage.slotLimit)
    (ha : p.storage.assignable = true)
    (hset : (c.above 1).item s₁ ⟨.set, [p.operand]⟩ span ∈ t.items)
    (hload : c.item (s₁.skip .set) p.load span ∈ t.items)
    (hx : t.Follows c.loop base s.offset l x (fun _ => s₁.offset) fun v => l ++ [v]) :
    t.Follows c.loop base s.offset l (do
      let p ← Eval.resolve c.env name
      Eval.assign p (← x)) (fun _ => ((s₁.skip .set).skip p.load.op).offset) fun v => l ++ [v] := by
  rw [hc.captured] at hp
  have hstorage := Lexical.storage_assignable hc.outside hp ha
  obtain ⟨storage, index⟩ := p
  obtain rfl : storage = .globalSlot := hstorage
  simp only [Eval.resolve, hp, pure_bind]
  refine hx.bind fun v => ?_
  rw [Eval.assign_eq]
  exact (Text.Follows.set hc hset hlt v).bind fun _ => .load hc hload (.inl rfl) hlt

end Parts

mutual

theorem ExprCode.follows (fuel : Nat) {c : Setting} {s s₁ : Cursor} {e : Expr} {is : List Item}
    {base l : List Value} (hsub : is ⊆ t.items) (hc : c.Meets base l) :
    ExprCode t.pool c s e is s₁ →
    t.Follows c.loop base s.offset l (Eval.expr fuel e c.env s.slots) (fun _ => s₁.offset)
      fun v => l ++ [v]
  | .constant he hk => .literal hc he (hsub List.mem_cons_self) hk
  | .bool => .bool hc (hsub List.mem_cons_self)
  | .null => .null hc (hsub List.mem_cons_self)
  | @ExprCode.ident _ _ _ name span p hp hlt => by
    rw [hc.captured] at hp
    have hread : Eval.expr fuel (.ident name span) c.env s.slots = Eval.read p := by
      simp only [Eval.expr, Eval.resolve, hp, pure_bind]
    rw [hread]
    exact .load hc (hsub List.mem_cons_self) (Lexical.storage_outside hc.outside hp) hlt
  | .unary h => by
    obtain ⟨hsub, hlast⟩ := List.append_subset.mp hsub
    exact (h.follows fuel hsub hc).bind fun v => .unary hc (hlast List.mem_cons_self) v
  | .binary ho h₁ h₂ => by
    obtain ⟨hsub, hlast⟩ := List.append_subset.mp hsub
    obtain ⟨hsub₁, hsub₂⟩ := List.append_subset.mp hsub
    simp only [Eval.expr, ho]
    exact h₁.follows_operands (h₁.follows fuel hsub₁ hc)
      (fun v => h₂.follows fuel hsub₂ (hc.above [v]))
      fun v w => .binary hc (hlast List.mem_cons_self) v w
  | @ExprCode.cond _ _ _ s₁ s₂ s₃ condition consequence alternative span is₁ is₂ is₃ h₁ h₂ h₃ => by
    obtain ⟨hsub, hsub₃⟩ := List.append_subset.mp hsub
    obtain ⟨hsub, hskip⟩ := List.append_subset.mp hsub
    obtain ⟨hsub, hsub₂⟩ := List.append_subset.mp hsub
    obtain ⟨hsub₁, htest⟩ := List.append_subset.mp hsub
    have hconsequence := h₂.slots_eq
    rw [Cursor.slots_skip] at hconsequence
    have halternative := h₃.follows fuel hsub₃ hc
    rw [Cursor.slots_skip, hconsequence] at halternative
    simp only [Eval.expr, ← h₁.slots_eq]
    exact .choose (htest List.mem_cons_self) (hskip List.mem_cons_self) (h₁.follows fuel hsub₁ hc)
      (h₂.follows fuel hsub₂ hc) halternative
  | .function h => (h.not_subset hsub).elim
  | .call h₁ h₂ => by
    obtain ⟨hsub, hlast⟩ := List.append_subset.mp hsub
    obtain ⟨hsub₁, hsub₂⟩ := List.append_subset.mp hsub
    refine (h₁.follows fuel hsub₁ hc).bind fun callee => ?_
    rw [← h₁.slots_eq]
    refine (h₂.follows fuel hsub₂ (hc.above [callee])).bind_of ?_
    rintro vs ⟨st, st', hvs⟩
    rw [List.append_assoc]
    exact .call hc (hlast List.mem_cons_self) callee vs ((Eval.exprs_gives _ st).of_ok hvs)
  | .array h => by
    obtain ⟨hsub, hlast⟩ := List.append_subset.mp hsub
    refine (h.follows fuel hsub hc).bind_of ?_
    rintro vs ⟨st, st', hvs⟩
    exact .array hc (hlast List.mem_cons_self) vs ((Eval.exprs_gives _ st).of_ok hvs)
  | .hash h => by
    obtain ⟨hsub, hlast⟩ := List.append_subset.mp hsub
    refine (h.follows fuel hsub hc).bind_of ?_
    rintro ps ⟨st, st', hps⟩
    exact .hash hc (hlast List.mem_cons_self) ps ((Eval.pairs_gives _ st).of_ok hps)
  | .index h₁ h₂ => by
    obtain ⟨hsub, hlast⟩ := List.append_subset.mp hsub
    obtain ⟨hsub₁, hsub₂⟩ := List.append_subset.mp hsub
    exact h₁.follows_operands (h₁.follows fuel hsub₁ hc)
      (fun v => h₂.follows fuel hsub₂ (hc.above [v]))
      fun v i => .index hc (hlast List.mem_cons_self) v i
  | .assign hp hlt ha h => by
    obtain ⟨hsub, hload⟩ := List.append_subset.mp hsub
    obtain ⟨hvalue, hset⟩ := List.append_subset.mp hsub
    exact .assign hc hp hlt ha (hset List.mem_cons_self) (hload List.mem_cons_self)
      (h.follows fuel hvalue hc)
  | @ExprCode.assignElement _ _ _ s₁ s₂ name nameSpan targetSpan span index value p is₁ is₂ hp hlt
      ha h₁ h₂ => by
    obtain ⟨hsub, hlast⟩ := List.append_subset.mp hsub
    obtain ⟨hsub₁, hsub₂⟩ := List.append_subset.mp hsub
    rw [hc.captured] at hp
    have hstorage := Lexical.storage_assignable hc.outside hp ha
    obtain ⟨storage, slot⟩ := p
    obtain rfl : storage = .globalSlot := hstorage
    simp only [Eval.expr, Eval.resolve, hp, pure_bind]
    exact h₁.follows_operands (h₁.follows fuel hsub₁ hc)
      (fun i => h₂.follows fuel hsub₂ (hc.above [i]))
      fun i v => .setElement hc (hlast List.mem_cons_self) hlt i v

theorem ExprsCode.follows (fuel : Nat) {c : Setting} {s s₁ : Cursor} {es : List Expr}
    {is : List Item} {base l : List Value} (hsub : is ⊆ t.items) (hc : c.Meets base l) :
    ExprsCode t.pool c s es is s₁ →
    t.Follows c.loop base s.offset l (Eval.exprs fuel es c.env s.slots) (fun _ => s₁.offset)
      fun vs => l ++ vs
  | .nil => .pure (by rw [List.append_nil]; exact .refl)
  | .cons h₁ h₂ => by
    obtain ⟨hsub₁, hsub₂⟩ := List.append_subset.mp hsub
    refine (h₁.follows fuel hsub₁ hc).bind fun v => ?_
    rw [← h₁.slots_eq]
    refine (h₂.follows fuel hsub₂ (hc.above [v])).bind fun vs => .pure ?_
    rw [List.append_assoc]
    exact .refl

theorem PairsCode.follows (fuel : Nat) {c : Setting} {s s₁ : Cursor} {ps : List (Expr × Expr)}
    {is : List Item} {base l : List Value} (hsub : is ⊆ t.items) (hc : c.Meets base l) :
    PairsCode t.pool c s ps is s₁ →
    t.Follows c.loop base s.offset l (Eval.pairs fuel ps c.env s.slots) (fun _ => s₁.offset)
      fun vs => l ++ flattened vs
  | .nil => .pure (by rw [show flattened [] = [] from rfl, List.append_nil]; exact .refl)
  | .cons h₁ h₂ h₃ => by
    obtain ⟨hsub, hsub₃⟩ := List.append_subset.mp hsub
    obtain ⟨hsub₁, hsub₂⟩ := List.append_subset.mp hsub
    have hvalue := h₂.slots_eq
    simp only [Setting.above] at hvalue
    refine (h₁.follows fuel hsub₁ hc).bind fun k => ?_
    rw [← h₁.slots_eq]
    refine (h₂.follows fuel hsub₂ (hc.above [k])).bind fun v => ?_
    rw [← hvalue, List.append_assoc]
    refine (h₃.follows fuel hsub₃ (hc.above [k, v])).bind fun vs => .pure ?_
    rw [List.append_assoc]
    exact .refl

theorem BranchCode.follows (fuel : Nat) {c : Setting} {s s₁ : Cursor} {b : Block} {is : List Item}
    {base l : List Value} (hsub : is ⊆ t.items) (hc : c.Meets base l) :
    BranchCode t.pool c s b is s₁ →
    t.Follows c.loop base s.offset l (Eval.block fuel b c.env s.slots) (fun _ => s₁.offset)
      fun v => l ++ [v]
  | .value h => h.follows fuel hsub (hc.within (Lexical.inner_modify hc.outside _))
  | .null he h => by
    obtain ⟨hsub, hlast⟩ := List.append_subset.mp hsub
    rw [Eval.block, Eval.value_of_ending he]
    refine (h.follows fuel hsub (hc.within (Lexical.inner_modify hc.outside _))).bind fun _ => ?_
    exact .null hc (hlast List.mem_cons_self)

theorem ElseCode.follows (fuel : Nat) {c : Setting} {s s₁ : Cursor} {b : Option Block} {span : Span}
    {is : List Item} {base l : List Value} (hsub : is ⊆ t.items) (hc : c.Meets base l) :
    ElseCode t.pool c s b span is s₁ →
    t.Follows c.loop base s.offset l (Eval.elseBlock fuel b c.env s.slots) (fun _ => s₁.offset)
      fun v => l ++ [v]
  | .block h => h.follows fuel hsub hc
  | .null => .null hc (hsub List.mem_cons_self)

theorem ValueCode.follows (fuel : Nat) {c : Setting} {s s₁ : Cursor} {ss : List Stmt}
    {is : List Item} {base l : List Value} (hsub : is ⊆ t.items) (hc : c.Meets base l) :
    ValueCode t.pool c s ss is s₁ →
    t.Follows c.loop base s.offset l (Eval.value fuel ss c.env s.slots) (fun _ => s₁.offset)
      fun v => l ++ [v]
  | .last h => h.follows fuel hsub hc
  | @ValueCode.cons _ _ _ s₁ s₂ st ss env is₁ is₂ h₁ h₂ => by
    obtain ⟨hsub₁, hsub₂⟩ := List.append_subset.mp hsub
    have hne : ss ≠ [] := by
      rintro rfl
      cases h₂
    rw [Eval.value, h₁.scope_eq]
    · refine (h₁.follows fuel hsub₁ hc).bind fun _ => ?_
      exact h₂.follows fuel hsub₂ (hc.within (h₁.inner_eq hc.outside))
    · exact fun _ _ _ hnil => hne hnil

theorem StmtCode.follows (fuel : Nat) {c : Setting} {s s₁ : Cursor} {st : Stmt} {is : List Item}
    {env : Lexical} {base l : List Value} (hsub : is ⊆ t.items) (hc : c.Meets base l) :
    StmtCode t.pool c s st is s₁ env →
    t.Follows c.loop base s.offset l (Eval.stmt fuel st c.env s.slots) (fun _ => s₁.offset)
      fun _ => l
  | .bindFunction _ _ h => by
    obtain ⟨hsub, -⟩ := List.append_subset.mp hsub
    exact (h.not_subset hsub).elim
  | @StmtCode.bind _ _ _ s₁ name value span p env slots is _ h hd hlt => by
    obtain ⟨hvalue, hset⟩ := List.append_subset.mp hsub
    have hstorage := Lexical.storage_declare hc.outside hd
    obtain ⟨storage, index⟩ := p
    obtain rfl : storage = .globalSlot := hstorage
    rw [Eval.stmt, ← h.slots_eq, hd]
    refine (h.follows fuel hvalue hc).bind fun v => ?_
    exact (Text.Follows.set hc (hset List.mem_cons_self) hlt v).bind fun _ => .pure .refl
  | .ret => fun _ _ hm => hm.returns (hsub List.mem_cons_self) rfl
  | .retValue h => by
    obtain ⟨hsub, hlast⟩ := List.append_subset.mp hsub
    refine (h.follows fuel hsub hc).bind fun v => ?_
    exact fun _ _ hm => hm.returnsValue (hlast List.mem_cons_self) rfl
  | .expr h => by
    obtain ⟨hsub, hlast⟩ := List.append_subset.mp hsub
    exact (h.follows fuel hsub hc).bind fun v => .pure (.pop (hlast List.mem_cons_self) rfl)
  | .whileLoop h₁ h₂ => by
    obtain ⟨hsub, hback⟩ := List.append_subset.mp hsub
    obtain ⟨hsub, hsub₂⟩ := List.append_subset.mp hsub
    obtain ⟨hsub₁, htest⟩ := List.append_subset.mp hsub
    have hinner := hc.within (Lexical.inner_modify hc.outside (·.enterBlock))
    have hbody := h₂.follows fuel hsub₂ (hinner.inLoop _ _)
    rw [Cursor.slots_skip, h₁.slots_eq] at hbody
    refine .loop ?_ (.round hbody (.jump (hback List.mem_cons_self) rfl)) (.pure .refl) fuel
    refine (h₁.follows fuel hsub₁ hc).bind fun v => .pure ?_
    exact .jumpIfFalse (htest List.mem_cons_self) rfl
  | .forLoop h₀ h₁ h₂ h₃ => by
    obtain ⟨hsub, hback⟩ := List.append_subset.mp hsub
    obtain ⟨hsub, hsub₃⟩ := List.append_subset.mp hsub
    obtain ⟨hsub, hsub₂⟩ := List.append_subset.mp hsub
    obtain ⟨hsub₀, hsub₁⟩ := List.append_subset.mp hsub
    have henter := hc.within (Lexical.inner_modify hc.outside (·.enterBlock))
    have hinner := hc.within (h₀.inner_eq henter.outside)
    have hbody := h₂.follows fuel hsub₂ (hinner.inLoop _ _)
    have hupdate := h₃.follows fuel hsub₃ (hc.within (h₂.inner_eq hinner.outside))
    have hinit := h₀.scope_eq
    have hguard := h₁.slots_eq
    have hscope := h₂.scope_eq
    simp only [Setting.within, Setting.inLoop] at hinit hguard hscope
    simp only [Eval.stmt, hinit, ← hguard, hscope]
    refine (h₀.follows fuel hsub₀ henter).bind fun _ => ?_
    refine .loop (h₁.follows fuel hsub₁ hinner) (.round hbody .refl) (hupdate.behind fun _ => ?_) fuel
    exact .jump (hback List.mem_cons_self) rfl
  | .breakLoop hx hh hs => fun m st hm => ⟨_, hx, Text.Goes.exit hc hx hh hs hsub m st hm⟩
  | .continueLoop hx hh hs => fun m st hm => ⟨_, hx, Text.Goes.exit hc hx hh hs hsub m st hm⟩

theorem StmtsCode.follows (fuel : Nat) {c : Setting} {s s₁ : Cursor} {ss : List Stmt}
    {is : List Item} {env : Lexical} {base l : List Value} (hsub : is ⊆ t.items)
    (hc : c.Meets base l) : StmtsCode t.pool c s ss is s₁ env →
    t.Follows c.loop base s.offset l (Eval.stmts fuel ss c.env s.slots) (fun _ => s₁.offset)
      fun _ => l
  | .nil => .pure .refl
  | .cons h₁ h₂ => by
    obtain ⟨hsub₁, hsub₂⟩ := List.append_subset.mp hsub
    rw [Eval.stmts, h₁.scope_eq]
    refine (h₁.follows fuel hsub₁ hc).bind fun _ => ?_
    exact h₂.follows fuel hsub₂ (hc.within (h₁.inner_eq hc.outside))

theorem InitCode.follows (fuel : Nat) {c : Setting} {s s₁ : Cursor} {st : Option Stmt}
    {is : List Item} {env : Lexical} {base l : List Value} (hsub : is ⊆ t.items)
    (hc : c.Meets base l) : InitCode t.pool c s st is s₁ env →
    t.Follows c.loop base s.offset l (Eval.init fuel st c.env s.slots) (fun _ => s₁.offset)
      fun _ => l
  | .none => .pure .refl
  | .some h => h.follows fuel hsub hc

theorem GuardCode.follows (fuel : Nat) {c : Setting} {s s₁ : Cursor} {e : Option Expr} {stop : Nat}
    {is : List Item} {base l : List Value} (hsub : is ⊆ t.items) (hc : c.Meets base l) :
    GuardCode t.pool c s e stop is s₁ →
    t.Follows c.loop base s.offset l (Eval.guard fuel e c.env s.slots)
      (fun b => if b then s₁.offset else stop) fun _ => l
  | .none => .pure .refl
  | .some h => by
    obtain ⟨hsub, htest⟩ := List.append_subset.mp hsub
    refine (h.follows fuel hsub hc).bind fun v => .pure ?_
    exact .jumpIfFalse (htest List.mem_cons_self) rfl

theorem UpdateCode.follows (fuel : Nat) {c : Setting} {s s₁ : Cursor} {e : Option Expr}
    {is : List Item} {base l : List Value} (hsub : is ⊆ t.items) (hc : c.Meets base l) :
    UpdateCode t.pool c s e is s₁ →
    t.Follows c.loop base s.offset l (Eval.update fuel e c.env s.slots) (fun _ => s₁.offset)
      fun _ => l
  | .none => .pure .refl
  | .some h => by
    obtain ⟨hsub, hlast⟩ := List.append_subset.mp hsub
    exact (h.follows fuel hsub hc).bind fun v => .pure (.pop (hlast List.mem_cons_self) rfl)

end

end Nodes

/-- The machine ends as an evaluation that is not exhausted does: with the same variables, the same
output and the same value, or with the same fault. Only a program that ends with an expression, or
that returns, has a value. -/
def Machine.EndsAs (m : Machine) (how : Ending) : Except Eval.Exit Value × Store → Prop
  | (.ok v, st) => ∃ m', m.Finishes m' ∧ m'.Shows st ∧ (how = .value → m'.lastPopped = v)
  | (.error (.returned v), st) => ∃ m', m.Finishes m' ∧ m'.Shows st ∧ m'.lastPopped = v
  | (.error (.fault e), st) => ∃ m', m.Crashes e m' ∧ m'.Shows st
  | (.error .exhausted, _) => True
  | (.error _, _) => False

section Programs

variable {t : Text} {m : Machine} {st : Store} {x : Eval Value} {after : Value → List Value}
  {how : Ending}

/-- The code of a whole program follows its evaluation to the end. -/
theorem Text.Follows.endsAs
    (h : t.Follows none [] 0 [] x (fun _ => t.body.code.size) after) (hm : t.At m 0 [] st)
    (hlength : ∀ v, (after v).length ≤ 1) (hvalue : how = .value → ∀ v, after v = [v]) :
    m.EndsAs how (x st) := by
  have hx := h m st hm
  unfold Gives at hx
  rcases hr : x st with ⟨e | v, st'⟩ <;> rw [hr] at hx
  · cases e with
    | fault e =>
      obtain ⟨m₁, m', hsteps, hf, hs, hshows⟩ := hx
      exact ⟨m', hsteps.crashes hf hs, hshows⟩
    | returned v =>
      obtain ⟨m', hsteps, hf, hlast, hshows⟩ := hx
      exact ⟨m', hsteps.finishes hf, hshows, hlast⟩
    | exhausted => trivial
    | meaningless => exact hx.elim
    | broke | continued =>
      obtain ⟨y, hy, -⟩ := hx
      cases hy
  · obtain ⟨m₁, hsteps, hat⟩ := hx
    obtain ⟨m', hsteps', hf, hlast, hshows⟩ := hat.ends (hlength v)
    exact ⟨m', (hsteps.trans hsteps').finishes hf, hshows, fun he => hlast v (hvalue he v)⟩

theorem ProgramCode.closureless {pool : Array Value} {env : Lexical} {s s₁ : Cursor}
    {body : List Stmt} {is : List Item} (h : ProgramCode pool env s body is s₁)
    (hp : stmtsPlain body = true) : Closureless is := by
  cases h with
  | value h => exact h.closureless hp
  | other _ h => exact h.closureless hp

/-- A program that is listed ends on the machine as its evaluation does. -/
theorem ProgramCode.endsAs {s s₁ : Cursor} {body : List Stmt}
    (h : ProgramCode t.pool {} s body t.items s₁) (hs : s.offset = 0)
    (hs₁ : s₁.offset = t.body.code.size) (hm : t.At m 0 [] st) (fuel : Nat) :
    m.EndsAs (ending body) (Eval.value fuel body {} s.slots st) := by
  have hc : (Setting.mk {} [] none 0).Meets [] [] := ⟨rfl, rfl, rfl, List.prefix_refl _, fun _ h => by cases h⟩
  rw [← hs] at hm
  cases h with
  | value h =>
    have hfollows := h.follows fuel (List.Subset.refl _) hc
    rw [hs₁, hs] at hfollows
    rw [hs] at hm
    exact hfollows.endsAs hm (fun _ => Nat.le_refl _) fun _ _ => rfl
  | other he h =>
    have hfollows := h.follows fuel (List.Subset.refl _) hc
    rw [hs₁, hs] at hfollows
    rw [hs] at hm
    rw [Eval.value_of_ending he]
    have hnull : t.Follows none [] 0 [] (do Eval.stmts fuel body {} s.slots; return Value.null)
        (fun _ => t.body.code.size) fun _ => [] := hfollows.bind fun _ => .pure .refl
    exact hnull.endsAs hm (fun _ => Nat.zero_le _) fun hv => absurd hv he

theorem exists_room (is : List Item) : ∃ room, ∀ i ∈ is, i.height < room := by
  induction is with
  | nil => exact ⟨0, fun _ h => by cases h⟩
  | cons i is ih =>
    obtain ⟨room, hroom⟩ := ih
    refine ⟨max room (i.height + 1), fun j hj => ?_⟩
    rcases List.mem_cons.mp hj with rfl | hj
    · omega
    · have := hroom j hj
      omega

end Programs

/-- Compiled code does what the program means. A program without functions that compiles ends on every
machine with enough room as its evaluation ends, if that is not exhausted. -/
theorem compile_preserves_evaluation {program : Program} {name : String} {o : Object}
    (hplain : stmtsPlain program.statements = true) (h : compile program name = .ok o) :
    ∃ room, ∀ limits p m, limits.budget = none → room ≤ limits.stack →
      (({} : Compiler).compile program name).2.scopes.globals ≤ limits.globals →
      link [o] = .ok p → Machine.start p limits #[] firstStamp = .ok m →
      ∀ fuel, m.EndsAs (ending program.statements) (program.evaluate fuel) := by
  obtain ⟨v, -, hready, -, hresult⟩ := Compiler.Ready.initial.compile program name
  rw [show (({} : Compiler).compile program name).1 = .ok o from h] at hresult
  obtain ⟨-, is, s, hslots, -, hlists⟩ := hresult
  obtain ⟨final, -, hlisted⟩ := hlists.listed rfl Compiler.Ready.initial.main_below
  obtain ⟨room, hroom⟩ := exists_room is
  refine ⟨room, fun limits p m hbudget hstack hglobals hlink hstart fuel => ?_⟩
  cases hlink
  obtain ⟨-, -, rfl⟩ := Machine.start_eq hstart
  let t : Text := ⟨o.constants, o.main, is, _, final, limits.stack, hlisted, rfl, rfl,
    fun i hi => Nat.lt_of_lt_of_le (hroom i hi) hstack, hlists.listing.closureless hplain⟩
  have hsize : s.offset = t.body.code.size := by
    obtain ⟨_, -, hflows⟩ := hlists.listing.flows
    exact hflows.tiled.unique hlisted.flows.tiled
  refine ProgramCode.endsAs (t := t) hlists.listing rfl hsize ?_ fuel
  refine ⟨rfl, Stack.holds_ofCapacity _, rfl, hbudget, ?_, ⟨?_, rfl⟩, rfl, ?_, fun _ => .null⟩
  · change s.slots ≤ _
    rw [hslots, hready.scopes.globals.symm]
    simpa using hglobals
  · intro i v hv
    rcases Array.mem_append.mp (Array.mem_of_getElem? hv) with hv | hv
    · exact (Array.not_mem_empty v hv).elim
    · exact (Array.eq_of_mem_replicate hv).symm
  · intro v hv
    cases hv

open StackScript.Stmt StackScript.Expr in
/-- A loop that is left with an operand on the stack, and a sum behind it. -/
theorem compile_preserves_break :
    let leave : Expr := cond (bool true .nowhere) (.mk [breakLoop .nowhere] .nowhere) none .nowhere
    let body : Block := .mk [expr (array [int 1 .nowhere, leave] .nowhere) .nowhere] .nowhere
    let program : Program := ⟨[whileLoop (bool true .nowhere) body .nowhere,
      expr (binary .add (int 1 .nowhere) (int 2 .nowhere) .nowhere) .nowhere]⟩
    stmtsPlain program.statements = true ∧ ∃ o, compile program "loop" = .ok o ∧
      ∃ room, ∀ limits p m, limits.budget = none → room ≤ limits.stack →
        (({} : Compiler).compile program "loop").2.scopes.globals ≤ limits.globals →
        link [o] = .ok p → Machine.start p limits #[] firstStamp = .ok m →
        ∃ m', m.Finishes m' ∧ m'.Shows {} ∧ m'.lastPopped = .int 3 := by
  intro leave body program
  have hplain : stmtsPlain program.statements = true := rfl
  have hcompile : (compile program "loop").toBool = true := by decide +kernel
  have heval : program.evaluate 1 = (.ok (.int 3), {}) := rfl
  have hvalue : ending program.statements = .value := rfl
  clear_value program
  refine ⟨hplain, ?_⟩
  cases ho : compile program "loop" with
  | error errors => simp [ho, Except.toBool] at hcompile
  | ok o =>
    obtain ⟨room, hroom⟩ := compile_preserves_evaluation hplain ho
    refine ⟨o, rfl, room, fun limits p m hbudget hstack hglobals hlink hstart => ?_⟩
    have hends := hroom limits p m hbudget hstack hglobals hlink hstart 1
    rw [heval] at hends
    obtain ⟨m', hfinishes, hshows, hlast⟩ := hends
    exact ⟨m', hfinishes, hshows, hlast hvalue⟩

end StackScript
