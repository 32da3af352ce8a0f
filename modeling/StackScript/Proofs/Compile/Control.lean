import StackScript.Proofs.Compile.Nodes

/-! # The code of conditionals and loops

Jumps forward are written before their targets are known. When the node ends, each of them leads
where its rule says.
-/

namespace StackScript

theorem ne_pop_of_getLast? {items new : List Item} {i : Item} (h : i.op ≠ .pop) :
    ∀ j, (items ++ (new ++ [i])).getLast? = some j → j.op ≠ .pop := by
  intro j hj
  rw [← List.append_assoc, List.getLast?_concat] at hj
  rwa [← Option.some.inj hj]

section Steps

variable {c c₁ : Compiler} {v v₁ : OpenScopes} {items new : List Item} {σ σ₁ : Targets}
  {exits : Exits} {span : Span} {i : Item}

theorem Gives.here : Gives Compile.here c (fun n c' => n = c.unit.code.size ∧ c' = c)
    (fun _ _ => False) := ⟨rfl, rfl⟩

/-- What meets the code with a jump patched meets the code before, and has its target. -/
theorem Meets.unpatched {pool : Array Value} {captured : List String} {τ : Nat → Nat}
    {breakTo continueTo p t : Nat} (hs : c.constants = c₁.constants) (hp : σ p = none)
    (h : Meets c v (σ.set p t) exits pool captured τ breakTo continueTo) :
    τ p = t ∧ Meets c₁ v σ exits pool captured τ breakTo continueTo where
  left := h.targets p t (by simp)
  right := {
    constants := hs ▸ h.constants
    captured := h.captured
    targets := fun q u hq =>
      h.targets q u (by rwa [σ.set_of_ne t fun e => by rw [e, hp] at hq; cases hq])
    exits := h.exits }

/-- A jump among the new items that the code so far does not use to leave a loop. -/
structure Patchable (c : Compiler) (new : List Item) (exits : Exits) (p : Nat) : Prop where
  start : c.unit.code.size ≤ p
  jump : ∃ i ∈ new, i.op.isJump = true ∧ i.offset = p
  inside : p ∉ exits.all

/-- A jump that still has to be patched. -/
structure Waits (c : Compiler) (new : List Item) (σ : Targets) (exits : Exits) (p : Nat) : Prop
    extends Patchable c new exits p where
  unset : σ p = none

theorem Adds.patchHere {p : Nat} (h : Adds c v items σ c₁ v₁ new σ₁ exits)
    (hp : Patchable c new exits p) :
    Gives (Compile.patchHere p span) c₁
      (fun _ c' => Adds c v items σ c' v₁ new (σ₁.set p c₁.unit.code.size) exits ∧
        c'.cursor v₁ = c₁.cursor v₁ ∧ c'.constants = c₁.constants)
      (Fails c v) := by
  obtain ⟨i, hi, hj, rfl⟩ := hp.jump
  refine Gives.here.bind (fun _ _ h => h.elim) ?_
  rintro _ _ ⟨rfl, rfl⟩
  exact h.patchJump hi hj hp.start hp.inside _

end Steps

namespace Waits

variable {c c₁ c₂ : Compiler} {v v₁ v₂ : OpenScopes} {items new₁ new₂ : List Item}
  {σ σ₁ σ₂ : Targets} {x y : Exits} {i : Item} {p : Nat}

theorem emitted (hc : c.Stands v items σ) (hi : i.op.isJump = true)
    (ho : i.offset = c.unit.code.size) : Waits c [i] σ {} i.offset where
  start := Nat.le_of_eq ho.symm
  jump := ⟨i, List.mem_singleton_self i, hi, rfl⟩
  inside := List.not_mem_nil
  unset := hc.writes.unpatched (Nat.le_of_eq ho.symm)

theorem lt (hp : Waits c new₁ σ₁ x p) (h₁ : Adds c v items σ c₁ v₁ new₁ σ₁ x)
    (hc : c.Stands v items σ) : p < c₁.unit.code.size := by
  obtain ⟨i, hi, -, rfl⟩ := hp.jump
  have := (h₁.tiled hc).bounds hi
  have := i.op.length_pos
  omega

/-- Code that is added behind a jump does not patch it. -/
theorem andThen (hp : Waits c new₁ σ₁ x p) (h₁ : Adds c v items σ c₁ v₁ new₁ σ₁ x)
    (hc : c.Stands v items σ) (h₂ : Adds c₁ v₁ (items ++ new₁) σ₁ c₂ v₂ new₂ σ₂ y) :
    Waits c (new₁ ++ new₂) σ₂ (x.andThen y) p where
  start := hp.start
  jump := by
    obtain ⟨i, hi, hj⟩ := hp.jump
    exact ⟨i, List.mem_append_left _ hi, hj⟩
  inside := by
    rw [Exits.mem_andThen, not_or]
    exact ⟨hp.inside, h₂.not_mem_of_lt h₁.stands (hp.lt h₁ hc)⟩
  unset := (h₂.targets p (hp.lt h₁ hc)).trans hp.unset

theorem behind (hp : Waits c₁ new₂ σ₂ y p) (h₁ : Adds c v items σ c₁ v₁ new₁ σ₁ x)
    (hc : c.Stands v items σ) : Waits c (new₁ ++ new₂) σ₂ (x.andThen y) p where
  start := Nat.le_trans (h₁.size_le hc) hp.start
  jump := by
    obtain ⟨i, hi, hj⟩ := hp.jump
    exact ⟨i, List.mem_append_right _ hi, hj⟩
  inside := by
    rw [Exits.mem_andThen, not_or]
    exact ⟨h₁.not_mem_of_le hc hp.start, hp.inside⟩
  unset := hp.unset

theorem set {q t : Nat} (hp : Waits c new₁ σ₁ x p) (hne : p ≠ q) : Waits c new₁ (σ₁.set q t) x p :=
  { hp with unset := (σ₁.set_of_ne t hne).trans hp.unset }

end Waits

/-- The branch of a conditional that is taken when the condition is false. -/
def Compile.alternative (span : Span) : Option Block → Compile Unit
  | some b => Compile.branch b
  | none => Functor.discard (Compile.emit .null [] span)

theorem Compile.expr_cond (condition : Expr) (consequence : Block) (alternative : Option Block)
    (span : Span) : Compile.expr (.cond condition consequence alternative span) = (do
      Compile.expr condition
      let skipConsequence ← Compile.emitJump .jumpIfFalse span
      Compile.branch consequence
      let skipAlternative ← Compile.emitJump .jump span
      Compile.patchHere skipConsequence span
      Compile.alternative span alternative
      Compile.patchHere skipAlternative span) := by
  rw [Compile.expr]
  cases alternative <;> rfl

theorem alternative_emitted {alternative : Option Block} {span : Span}
    (h : ∀ b, alternative = some b → b.Emitted) {c : Compiler} {v : OpenScopes} {items : List Item}
    {σ : Targets} (hc : c.Stands v items σ) (hlast : ∀ i, items.getLast? = some i → i.op ≠ .pop) :
    Gives (Compile.alternative span alternative) c
      (fun _ c' => ∃ v' new σ' exits, Adds c v items σ c' v' new σ' exits ∧
        Lists (fun pool c s is s' env => ElseCode pool c s alternative span is s' ∧ env = c.env)
          c v c' v' new σ' exits)
      (Fails c v) := by
  cases alternative with
  | some b =>
    refine (h b rfl c v items σ hc hlast).mono ?_ fun _ _ h => h
    rintro _ c' ⟨v', new, σ', x, ha, hl⟩
    refine ⟨v', new, σ', x, ha, fun pool captured τ b k hm => ?_⟩
    obtain ⟨hb, henv⟩ := hl pool captured τ b k hm
    exact ⟨.block hb, henv⟩
  | none =>
    refine (Emits.instruction 0 [] _ _ rfl rfl span c v items σ hc).mono ?_ fun _ _ h => h
    rintro _ c' ⟨v', new, σ', x, ha, -, hl⟩
    refine ⟨v', new, σ', x, ha, fun pool captured τ b k hm => ?_⟩
    obtain ⟨his, hs, henv⟩ := hl pool captured τ b k hm
    rw [his, hs]
    exact ⟨.null, henv⟩

theorem Expr.Emitted.cond {condition : Expr} {consequence : Block} {alternative : Option Block}
    {span : Span} (hcond : condition.Emitted) (hthen : consequence.Emitted)
    (helse : ∀ b, alternative = some b → b.Emitted) :
    (Expr.cond condition consequence alternative span).Emitted := by
  intro c v items σ hc
  rw [Compile.expr_cond]
  refine (hcond c v items σ hc).bind (fun _ _ h => h) ?_
  rintro _ c₁ ⟨v₁, new₁, σ₁, x₁, h₁, -, hl₁⟩
  let i₁ : Item := { op := .jumpIfFalse, operands := [], offset := c₁.unit.code.size, span := span,
                     height := c.unit.held + 1 }
  refine (h₁.stands.emitJump (i := i₁) rfl rfl).bind (fun _ _ h => h.after h₁.toBalanced) ?_
  rintro _ c₂ ⟨rfl, h₂, hs₂⟩
  refine (hthen c₂ v₁ _ σ₁ h₂.stands (by simp [i₁])).bind
    (fun _ _ h => (h.after h₂.toBalanced).after h₁.toBalanced) ?_
  rintro _ c₃ ⟨v₃, new₃, σ₃, x₃, h₃, hl₃⟩
  let i₂ : Item := { op := .jump, operands := [], offset := c₃.unit.code.size, span := span,
                     height := c.unit.held + 1 }
  refine (h₃.stands.emitJump (i := i₂) rfl rfl).bind
    (fun _ _ h => ((h.after h₃.toBalanced).after h₂.toBalanced).after h₁.toBalanced) ?_
  rintro _ c₄ ⟨rfl, h₄, hs₄⟩
  have h₁₂ := h₁.trans_straight hc h₂
  have h₁₃ : Adds c v items σ c₃ v₃ (new₁ ++ [i₁] ++ new₃) σ₃ (x₁.andThen x₃) :=
    h₁₂.trans hc (by simpa using h₃)
  have h₁₄ : Adds c v items σ c₄ v₃ (new₁ ++ [i₁] ++ new₃ ++ [i₂]) σ₃ (x₁.andThen x₃) :=
    h₁₃.trans_straight hc (by simpa using h₄)
  have hw₁ : Waits c (new₁ ++ [i₁] ++ new₃) σ₃ (x₁.andThen x₃) i₁.offset :=
    ((Waits.emitted h₁.stands rfl rfl).behind h₁ hc).andThen h₁₂ hc (by simpa using h₃)
  have hw₂ : Waits c (new₁ ++ [i₁] ++ new₃ ++ [i₂]) σ₃ (x₁.andThen x₃) i₂.offset :=
    (Waits.emitted h₃.stands rfl rfl).behind h₁₃ hc
  have hw₄ : Waits c (new₁ ++ [i₁] ++ new₃ ++ [i₂]) σ₃ (x₁.andThen x₃) i₁.offset :=
    hw₁.andThen h₁₃ hc (by simpa using h₄)
  refine (h₁₄.patchHere hw₄.toPatchable).bind (fun _ _ h => h) ?_
  rintro _ c₅ ⟨h₅, hs₅, hk₅⟩
  refine (alternative_emitted helse h₅.stands (ne_pop_of_getLast? (by simp [i₂]))).bind
    (fun _ _ h => h.after h₅.toBalanced) ?_
  rintro _ c₆ ⟨v₆, new₆, σ₆, x₆, h₆, hl₆⟩
  have hsize₂ : c₂.unit.code.size = c₁.unit.code.size + 3 := congrArg Cursor.offset hs₂
  have hsize₄ : c₄.unit.code.size = c₃.unit.code.size + 3 := congrArg Cursor.offset hs₄
  have hne : i₂.offset ≠ i₁.offset := Nat.ne_of_gt (hw₁.lt h₁₃ hc)
  have hw₆ := (hw₂.set (t := c₄.unit.code.size) hne).andThen h₅ hc h₆
  refine ((h₅.trans hc h₆).patchHere hw₆.toPatchable).mono ?_ fun _ _ h => h
  rintro _ c₇ ⟨h₇, hs₇, hk₇⟩
  refine ⟨v₆, _, _, _, h₇, fun h => h.elim, ?_⟩
  intro pool captured τ b k hm
  obtain ⟨ht₂, hm₆⟩ := hm.unpatched hk₇ hw₆.unset
  obtain ⟨ht₁, hm₄⟩ := (hm₆.before h₆ h₅.stands).unpatched hk₅ hw₁.unset
  have hm₃ := hm₄.before_straight h₄ h₃.stands
  obtain ⟨hcode₁, henv₁⟩ := hl₁ pool captured τ b k
    ((hm₃.before h₃ h₂.stands).before_straight h₂ h₁.stands)
  obtain ⟨hcode₃, henv₃⟩ := hl₃ pool captured τ b k hm₃.right
  obtain ⟨hcode₆, henv₆⟩ := hl₆ pool captured τ b k hm₆.right
  rw [(h₁.toBalanced.trans h₂.toBalanced).setting_eq, henv₁] at hcode₃ henv₃
  rw [h₅.setting_eq, henv₃] at hcode₆ henv₆
  rw [hs₂] at hcode₃
  rw [hs₅, hs₄] at hcode₆
  refine ⟨?_, henv₆⟩
  have hi₁ : i₁.aim τ = ((c.setting v captured b k).above 1).item (c₁.cursor v₁)
      ⟨.jumpIfFalse, [((c₃.cursor v₃).skip .jump).offset]⟩ span := by
    rw [Item.aim_of_isJump rfl, ht₁, hsize₄]
    rfl
  have hi₂ : i₂.aim τ = ((c.setting v captured b k).above 1).item (c₃.cursor v₃)
      ⟨.jump, [(c₆.cursor v₆).offset]⟩ span := by
    rw [Item.aim_of_isJump rfl, ht₂]
    rfl
  simp only [aimed_append, aimed_singleton, hi₁, hi₂, hs₇]
  exact .cond hcode₁ hcode₃ hcode₆

section Exits

variable {c c' : Compiler} {v v' : OpenScopes} {items new : List Item} {σ σ' : Targets}
  {exits : Exits} {span : Span}

theorem Setting.drops_congr {a b : Setting} (h : a.height = b.height) (s : Cursor) (span : Span)
    (n : Nat) : a.drops s span n = b.drops s span n := by
  induction n generalizing a b s with
  | zero => rfl
  | succ n ih =>
    simp only [Setting.drops, Setting.item, h]
    rw [ih (a := { a with height := b.height - 1 }) (b := { b with height := b.height - 1 }) rfl]

theorem aimed_drops (τ : Nat → Nat) (a : Setting) (s : Cursor) (span : Span) (n : Nat) :
    aimed τ (a.drops s span n) = a.drops s span n := by
  induction n generalizing a s with
  | zero => rfl
  | succ n ih =>
    rw [Setting.drops, aimed_cons, ih, Item.aim_of_not_isJump rfl]

theorem Compiler.Stands.emitPops (hc : c.Stands v items σ) (a : Setting) (n : Nat) :
    Gives (Compile.emitPops span n) c
      (fun _ c' => Adds c v items σ c' v (a.drops (c.cursor v) span n) σ {} ∧
        c'.cursor v = { c.cursor v with offset := c.unit.code.size + n })
      (Fails c v) := by
  induction n generalizing c items a with
  | zero => exact ⟨.refl hc, rfl⟩
  | succ n ih =>
    let i : Item := a.item (c.cursor v) ⟨.pop, []⟩ span
    refine (hc.emit (i := i) rfl rfl rfl).discarded.bind (fun _ _ h => h) ?_
    rintro _ c₁ ⟨-, -, h₁, -, hs₁⟩
    refine (ih h₁.stands { a with height := a.height - 1 }).mono ?_
      fun _ _ h => h.after h₁.toBalanced
    rintro _ c₂ ⟨h₂, hs₂⟩
    refine ⟨?_, ?_⟩
    · have := h₁.trans_straight hc h₂
      rwa [hs₁] at this
    · have hsize : c₁.unit.code.size = c.unit.code.size + 1 := congrArg Cursor.offset hs₁
      rw [hs₂, hs₁, hsize, Nat.add_assoc, Nat.add_comm 1 n]
      rfl

theorem Adds.record (exits : Exits) (h : Adds c v items σ c' v' new σ' {}) (hl : c.unit.loops ≠ [])
    (hx : ∀ j ∈ exits.all, σ' j = none ∧ ∃ i ∈ new, i.op.isJump = true ∧ i.offset = j)
    (ha : ∀ j ∈ exits.breaks, j ∉ exits.continues) :
    Adds c v items σ
      { c' with unit := { c'.unit with loops := exits.record c'.unit.loops } } v' new σ' exits := by
  have hloops : c'.unit.loops = c.unit.loops := h.loops.trans Exits.record_empty
  exact {
    scopes := h.scopes
    constants := h.constants
    held := h.held
    loops := by simp [hloops]
    stands := ⟨h.stands.scopes, h.stands.writes.congr rfl rfl rfl, fun l hl => by
      obtain ⟨l₀, hl₀, hheld⟩ := Exits.exists_of_head?_record hl
      exact hheld ▸ h.stands.held l₀ hl₀, h.stands.pool⟩
    targets := h.targets
    pending := hx
    apart := ha
    outside := fun hnil => absurd hnil hl }

/-- A jump out of the innermost loop, above the operands that were there when the loop began. -/
theorem Compiler.Stands.emitLoopExit (hc : c.Stands v items σ) {outside : CompileError.Cause}
    (hout : ∀ m, outside ≠ .internal m) :
    Gives (Compile.emitLoopExit outside span) c
      (fun position c' => ∃ l ls n i, c.unit.loops = l :: ls ∧ c.unit.held = l.held + n ∧
        position = i.offset ∧ Adds c v items σ c' v
          (Setting.drops (c.setting v [] 0 0) (c.cursor v) span n ++ [i]) σ {} ∧
        i = Setting.item { c.setting v [] 0 0 with height := l.held }
          { c.cursor v with offset := c.unit.code.size + n } ⟨.jump, []⟩ span ∧
        c'.cursor v = Cursor.skip { c.cursor v with offset := c.unit.code.size + n } .jump)
      (Fails c v) := by
  unfold Compile.emitLoopExit
  refine Gives.reading (a := c.unit) rfl ?_
  cases hloops : c.unit.loops with
  | nil =>
    have hnone : c.unit.exitPops? = none := by simp [CodeUnit.exitPops?, hloops]
    rw [hnone]
    exact .of_stands hc hout
  | cons l ls =>
    have hheld : l.held ≤ c.unit.held := hc.held l (by rw [hloops]; rfl)
    obtain ⟨n, hn⟩ := Nat.exists_eq_add_of_le hheld
    have hpops : c.unit.exitPops? = some n := by simp [CodeUnit.exitPops?, hloops, hn]
    rw [hpops]
    refine (hc.emitPops (c.setting v [] 0 0) n).bind (fun _ _ h => h) ?_
    rintro _ c₁ ⟨h₁, hs₁⟩
    let i : Item := Setting.item { c.setting v [] 0 0 with height := l.held }
      { c.cursor v with offset := c.unit.code.size + n } ⟨.jump, []⟩ span
    refine (h₁.stands.emitJump (i := i) rfl (congrArg Cursor.offset hs₁).symm).mono ?_
      fun _ _ h => h.after h₁.toBalanced
    rintro position c₂ ⟨rfl, h₂, hs₂⟩
    exact ⟨l, ls, n, i, rfl, hn, rfl, h₁.trans_straight hc h₂, rfl, by rw [hs₂, hs₁]; rfl⟩

/-- `break` and `continue` drop the operands pushed since the loop began. -/
theorem Emits.loopExit (outside : CompileError.Cause) (hout : ∀ m, outside ≠ .internal m)
    {add : Nat → CodeUnit → CodeUnit} (exits : Nat → Exits) (target : LoopExit → Nat)
    (hadd : ∀ p u, add p u = { u with loops := (exits p).record u.loops })
    (hone : ∀ p, (exits p).all = [p]) (hapart : ∀ p, ∀ j ∈ (exits p).breaks, j ∉ (exits p).continues)
    (haim : ∀ p τ b k h, (exits p).Aimed τ b k → τ p = target ⟨b, k, h⟩) (span : Span) :
    Emits False
      (fun _ _ c s is s' env => ∃ exit n s₁, c.loop = some exit ∧ c.height = exit.height + n ∧
        s₁ = { s with offset := s.offset + n } ∧
        is = c.drops s span n ++
          [{ c with height := exit.height }.item s₁ ⟨.jump, [target exit]⟩ span] ∧
        s' = s₁.skip .jump ∧ env = c.env)
      (Compile.emitLoopExit outside span >>= fun jump => Compile.modifyUnit (add jump)) := by
  intro c v items σ hc
  refine (hc.emitLoopExit hout).bind (fun _ _ h => h) ?_
  rintro _ c₁ ⟨l, ls, n, i, hloops, hheld, rfl, h₁, hi, hs₁⟩
  have hnone : σ i.offset = none := hc.writes.unpatched (by rw [hi]; exact Nat.le_add_right _ _)
  have h₂ := h₁.record (exits i.offset) (by rw [hloops]; simp)
    (fun j hj => by
      rw [hone, List.mem_singleton] at hj
      exact ⟨hj ▸ hnone, i, by simp, by rw [hi]; rfl, hj.symm⟩) (hapart _)
  rw [← hadd] at h₂
  refine ⟨v, _, σ, _, h₂, fun h => h.elim, ?_⟩
  intro pool captured τ b k hm
  refine ⟨⟨b, k, l.held⟩, n, _, by simp [Compiler.setting, hloops], hheld, rfl, ?_, ?_, rfl⟩
  rotate_left
  · change Compiler.cursor { c₁ with unit := add i.offset c₁.unit } v = _
    rw [hadd]
    exact hs₁
  have haimed : i.aim τ = Setting.item { c.setting v captured b k with height := l.held }
      { c.cursor v with offset := c.unit.code.size + n } ⟨.jump, [target ⟨b, k, l.held⟩]⟩ span := by
    rw [Item.aim_of_isJump (by rw [hi]; rfl), haim _ _ _ _ l.held hm.exits, hi]
    rfl
  rw [aimed_append, aimed_drops, aimed_singleton, haimed,
    Setting.drops_congr (a := c.setting v [] 0 0) (b := c.setting v captured b k) rfl]
  rfl

theorem CodeUnit.addBreak_eq (p : Nat) (u : CodeUnit) :
    u.addBreak p = { u with loops := Exits.record ⟨[p], []⟩ u.loops } := by
  obtain ⟨code, spans, last, previous, _ | ⟨l, ls⟩, held⟩ := u <;> rfl

theorem CodeUnit.addContinue_eq (p : Nat) (u : CodeUnit) :
    u.addContinue p = { u with loops := Exits.record ⟨[], [p]⟩ u.loops } := by
  obtain ⟨code, spans, last, previous, _ | ⟨l, ls⟩, held⟩ := u <;> rfl

theorem Stmt.Emitted.breakLoop : (Stmt.breakLoop span).Emitted := by
  refine (Emits.loopExit .breakOutsideLoop (by simp) (fun p => ⟨[p], []⟩)
    LoopExit.breakTo CodeUnit.addBreak_eq (fun _ => rfl) (by simp)
    (fun p τ b k h hx => hx.1 p (by simp)) span).mono (fun h => by cases h) ?_
  rintro - pool c s is s' env ⟨exit, n, s₁, hl, hh, hs₁, rfl, rfl, rfl⟩
  exact .breakLoop hl hh hs₁

theorem Stmt.Emitted.continueLoop : (Stmt.continueLoop span).Emitted := by
  refine (Emits.loopExit .continueOutsideLoop (by simp) (fun p => ⟨[], [p]⟩)
    LoopExit.continueTo CodeUnit.addContinue_eq (fun _ => rfl) (by simp)
    (fun p τ b k h hx => hx.2 p (by simp)) span).mono (fun h => by cases h) ?_
  rintro - pool c s is s' env ⟨exit, n, s₁, hl, hh, hs₁, rfl, rfl, rfl⟩
  exact .continueLoop hl hh hs₁

end Exits

end StackScript
