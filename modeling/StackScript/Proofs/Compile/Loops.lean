import StackScript.Proofs.Compile.Control

/-! # The code of loops

The jumps out of a loop wait in the code unit until the loop ends. Then all of them lead behind the
loop or to where its next round begins.
-/

namespace StackScript

namespace Targets

def setAll (σ : Targets) (jumps : List Nat) (target : Nat) : Targets :=
  fun p => if p ∈ jumps then some target else σ p

variable {σ : Targets} {jumps : List Nat} {p t : Nat}

theorem setAll_of_mem (h : p ∈ jumps) : σ.setAll jumps t p = some t := if_pos h

theorem setAll_of_not_mem (h : p ∉ jumps) : σ.setAll jumps t p = σ p := if_neg h

theorem setAll_singleton : σ.setAll [p] t = σ.set p t := by
  funext q
  simp [setAll, set]

theorem setAll_set : (σ.set p t).setAll jumps t = σ.setAll (p :: jumps) t := by
  funext q
  by_cases hj : q ∈ jumps
  · rw [setAll_of_mem hj, setAll_of_mem (List.mem_cons_of_mem _ hj)]
  · rw [setAll_of_not_mem hj]
    by_cases hp : q = p
    · rw [hp, set_self, setAll_of_mem List.mem_cons_self]
    · rw [σ.set_of_ne t hp, setAll_of_not_mem (by simp [hp, hj])]

end Targets

section Steps

variable {c c₁ : Compiler} {v v₁ : OpenScopes} {items new : List Item} {σ σ₁ : Targets}
  {exits : Exits} {span : Span}

theorem Adds.patchAll (span : Span) (jumps : List Nat) (h : Adds c v items σ c₁ v₁ new σ₁ exits)
    (hj : ∀ j ∈ jumps, Patchable c new exits j) (target : Nat) :
    Gives (Compile.patchAll target span jumps) c₁
      (fun _ c' => Adds c v items σ c' v₁ new (σ₁.setAll jumps target) exits ∧
        c'.cursor v₁ = c₁.cursor v₁ ∧ c'.constants = c₁.constants)
      (Fails c v) := by
  induction jumps generalizing c₁ σ₁ with
  | nil =>
    have hσ : σ₁.setAll [] target = σ₁ := by funext p; simp [Targets.setAll]
    exact ⟨hσ.symm ▸ h, rfl, rfl⟩
  | cons j jumps ih =>
    obtain ⟨hstart, ⟨i, hi, hjump, rfl⟩, hout⟩ := hj j List.mem_cons_self
    refine (h.patchJump hi hjump hstart hout target).bind (fun _ _ h => h) ?_
    rintro _ c₂ ⟨h₂, hs₂, hk₂⟩
    refine (ih h₂ fun j hm => hj j (List.mem_cons_of_mem _ hm)).mono ?_ fun _ _ h => h
    rintro _ c₃ ⟨h₃, hs₃, hk₃⟩
    rw [Targets.setAll_set] at h₃
    exact ⟨h₃, hs₃.trans hs₂, hk₃.trans hk₂⟩

theorem Meets.unpatchedAll {pool : Array Value} {captured : List String} {τ : Nat → Nat}
    {breakTo continueTo t : Nat} {jumps : List Nat} (hs : c.constants = c₁.constants)
    (hj : ∀ j ∈ jumps, σ j = none)
    (h : Meets c v (σ.setAll jumps t) exits pool captured τ breakTo continueTo) :
    (∀ j ∈ jumps, τ j = t) ∧ Meets c₁ v σ exits pool captured τ breakTo continueTo where
  left j hm := h.targets j t (Targets.setAll_of_mem hm)
  right := {
    constants := hs ▸ h.constants
    captured := h.captured
    targets := fun q u hq => h.targets q u (by
      rwa [Targets.setAll_of_not_mem fun hm => by rw [hj q hm] at hq; cases hq])
    exits := h.exits }

theorem Gives.loopWith {x : Compile Unit} {Q : LoopJumps → Compiler → Prop}
    {E : CompileError → Compiler → Prop}
    (h : Gives x { c with unit := c.unit.enterLoop }
      (fun _ c' => Q c'.unit.leaveLoop.1 { c' with unit := c'.unit.leaveLoop.2 })
      fun e c' => E e { c' with unit := c'.unit.leaveLoop.2 }) :
    Gives (Compile.loopWith x) c Q E := by
  unfold Compile.loopWith Compile.modifyUnit
  unfold Gives at h ⊢
  simp only [bind_apply, modify_apply, modifyGet_apply, Compile.observing]
  rcases hx : x { c with unit := c.unit.enterLoop } with ⟨e | a, c₁⟩ <;> rw [hx] at h <;> exact h

theorem Compiler.Stands.enterLoop (hc : c.Stands v items σ) :
    Compiler.Stands { c with unit := c.unit.enterLoop } v items σ := by
  refine ⟨hc.scopes, hc.writes.congr rfl rfl rfl, ?_, hc.pool⟩
  intro l hl
  obtain rfl := Option.some.inj hl
  exact Nat.le_refl _

theorem Balanced.leaveLoop (h : Balanced { c with unit := c.unit.enterLoop } v c₁ v₁ exits) :
    c₁.unit.leaveLoop = (⟨exits.breaks, exits.continues, c.unit.held⟩,
      { c₁.unit with loops := c.unit.loops }) ∧
    Balanced c v { c₁ with unit := { c₁.unit with loops := c.unit.loops } } v₁ {} := by
  have hloops : c₁.unit.loops = ⟨exits.breaks, exits.continues, c.unit.held⟩ :: c.unit.loops := by
    simpa [CodeUnit.enterLoop, Exits.record] using h.loops
  refine ⟨by simp [CodeUnit.leaveLoop, hloops], h.scopes, h.constants, h.held, by simp⟩

theorem Compiler.Stands.leaveLoop (hc : c.Stands v items σ) (h : c₁.Stands v₁ new σ₁)
    (hb : Balanced { c with unit := c.unit.enterLoop } v c₁ v₁ exits) :
    Compiler.Stands { c₁ with unit := { c₁.unit with loops := c.unit.loops } } v₁ new σ₁ := by
  refine ⟨h.scopes, h.writes.congr rfl rfl rfl, ?_, h.pool⟩
  intro l hl
  have hheld : c₁.unit.held = c.unit.held := hb.held
  exact hheld.symm ▸ hc.held l hl

/-- The body of a loop adds its listing, and the jumps out of the loop are given back. -/
theorem Emits.loopWith {keeps : Prop} {R : Rule Unit} {x : Compile Unit} (h : Emits keeps R x)
    (hc : c.Stands v items σ) :
    Gives (Compile.loopWith x) c
      (fun jumps c' => ∃ v' new σ', Adds c v items σ c' v' new σ' {} ∧
        (∀ j ∈ jumps.breaks ++ jumps.continues, Waits c new σ' {} j) ∧
        (∀ j ∈ jumps.breaks, j ∉ jumps.continues) ∧
        ∀ pool captured τ b k breakTo continueTo,
          Meets c' v' σ' ⟨jumps.breaks, jumps.continues⟩ pool captured τ breakTo continueTo →
          R () pool ((c.setting v captured b k).inLoop ⟨breakTo, continueTo, c.unit.held⟩)
            (c.cursor v) (aimed τ new) (c'.cursor v') v'.env)
      (Fails c v) := by
  refine Gives.loopWith ((h _ v items σ hc.enterLoop).mono ?_ ?_)
  · rintro _ c₁ ⟨v', new, σ', y, ha, -, hl⟩
    obtain ⟨hleave, hb⟩ := ha.toBalanced.leaveLoop
    rw [hleave]
    refine ⟨v', new, σ', ?_, fun j hj => ?_, ha.apart, ?_⟩
    · exact { hb with
        stands := hc.leaveLoop ha.stands ha.toBalanced
        targets := ha.targets
        pending := fun j hj => by simp [Exits.all] at hj
        apart := fun j hj => by simp at hj
        outside := fun _ => rfl }
    · obtain ⟨hunset, hjump⟩ := ha.pending j hj
      exact ⟨⟨(ha.exit_bounds hc.enterLoop hj).1, hjump, List.not_mem_nil⟩, hunset⟩
    · intro pool captured τ b k breakTo continueTo hm
      exact hl pool captured τ breakTo continueTo
        ⟨hm.constants, hm.captured, hm.targets, hm.exits⟩
  · rintro e c₁ ⟨he, v', is, σ', y, hs, hb⟩
    obtain ⟨hleave, hb'⟩ := hb.leaveLoop
    rw [hleave]
    exact ⟨he, v', is, σ', {}, hc.leaveLoop hs hb, hb'⟩

end Steps

namespace Compile

def init : Option Stmt → Compile Unit
  | some s => stmt s
  | none => pure ()

/-- The condition of a loop, and the jump that leaves the loop when it is false. -/
def guard : Option Expr → Compile (Option Nat)
  | some e => do
    expr e
    some <$> emitJump .jumpIfFalse e.span
  | none => pure none

def update : Option Expr → Compile Unit
  | some e => do
    expr e
    discard (emit .pop [] e.span)
  | none => pure ()

def patchExit (span : Span) : Option Nat → Compile Unit
  | some position => patchHere position span
  | none => pure ()

/-- A loop without its first clause. A `continue` leads to the start or to the last clause. -/
def rounds (condition last : Option Expr) (toStart : Bool) (body : Compile Unit) (span : Span) :
    Compile Unit := do
  let start ← here
  let exit ← guard condition
  let jumps ← loopWith body
  let next ← here
  update last
  emitJumpTo .jump start span
  patchExit span exit
  let stop ← here
  patchAll stop span jumps.breaks
  patchAll (if toStart then start else next) span jumps.continues

theorem stmt_whileLoop (condition : Expr) (body : List Stmt) (bodySpan span : Span) :
    stmt (.whileLoop condition (.mk body bodySpan) span) =
      rounds (some condition) none true (blockWith .loop (statements body)) span := by
  have h : stmt (.whileLoop condition (.mk body bodySpan) span) = (do
      let start ← here
      expr condition
      let exit ← emitJump .jumpIfFalse condition.span
      let jumps ← loopWith (blockWith .loop (statements body))
      emitJumpTo .jump start span
      patchHere exit span
      let stop ← here
      patchAll stop span jumps.breaks
      patchAll start span jumps.continues) := rfl
  have hhere (k : Compile Unit) : (here >>= fun _ => k) = k := rfl
  rw [h]
  simp [rounds, guard, update, patchExit, hhere]

theorem stmt_forLoop (first : Option Stmt) (condition last : Option Expr) (body : List Stmt)
    (bodySpan span : Span) :
    stmt (.forLoop first condition last (.mk body bodySpan) span) =
      blockWith .loop (init first >>= fun _ =>
        rounds condition last false (statements body) span) := by
  have h : stmt (.forLoop first condition last (.mk body bodySpan) span) = blockWith .loop (do
      match first with
      | some s => stmt s
      | none => pure ()
      let start ← here
      let exit ← match condition with
        | some e => do
          expr e
          some <$> emitJump .jumpIfFalse e.span
        | none => pure none
      let jumps ← loopWith (statements body)
      let next ← here
      match last with
      | some e => do
        expr e
        discard (emit .pop [] e.span)
      | none => pure ()
      emitJumpTo .jump start span
      match exit with
      | some position => patchHere position span
      | none => pure ()
      let stop ← here
      patchAll stop span jumps.breaks
      patchAll next span jumps.continues) := by
    cases first <;> cases condition <;> cases last <;> rfl
  rw [h]
  cases first <;> cases condition <;> cases last <;>
    simp [init, rounds, guard, update, patchExit]

end Compile

section Rounds

variable {c c₁ : Compiler} {v v₁ : OpenScopes} {items new : List Item} {σ σ₁ : Targets}
  {exits : Exits} {span : Span}

theorem Emits.init {first : Option Stmt} (h : ∀ st, first = some st → st.Emitted) :
    Emits False (fun _ pool c s is s' env => InitCode pool c s first is s' env)
      (Compile.init first) := by
  cases first with
  | none =>
    refine (Emits.pure (P := fun _ _ => True) fun _ => trivial).mono id ?_
    rintro - pool c s is s' env ⟨rfl, rfl, rfl, -⟩
    exact .none
  | some st => exact Emits.mono (h st rfl) (fun h => h.elim) fun _ _ _ _ _ _ _ h => .some h

theorem Emits.update {last : Option Expr} (h : ∀ e, last = some e → e.Emitted) :
    Emits False (fun _ pool c s is s' env => UpdateCode pool c s last is s' ∧ env = c.env)
      (Compile.update last) := by
  cases last with
  | none =>
    refine (Emits.pure (P := fun _ _ => True) fun _ => trivial).mono id ?_
    rintro - pool c s is s' env ⟨rfl, rfl, rfl, -⟩
    exact ⟨.none, rfl⟩
  | some e =>
    refine (Emits.bind (h e rfl) fun _ => Emits.instruction 1 [] .pop [] rfl rfl
      e.span).mono (fun h => h.elim) ?_
    rintro - pool c s is s' env ⟨_, _, _, _, _, rfl, ⟨h, rfl⟩, rfl, rfl, rfl⟩
    exact ⟨.some h, rfl⟩

/-- The jump that leaves a loop is not patched before the loop ends. -/
theorem guard_emitted {condition : Option Expr} (h : ∀ e, condition = some e → e.Emitted)
    (hc : c.Stands v items σ) :
    Gives (Compile.guard condition) c
      (fun exit c' => ∃ v' new σ' x, Adds c v items σ c' v' new σ' x ∧
        (∀ p ∈ exit.toList, Waits c new σ' x p) ∧
        ∀ pool captured τ b k stop, Meets c' v' σ' x pool captured τ b k →
          (∀ p ∈ exit.toList, τ p = stop) →
          GuardCode pool (c.setting v captured b k) (c.cursor v) condition stop (aimed τ new)
            (c'.cursor v') ∧ v'.env = v.env)
      (Fails c v) := by
  cases condition with
  | none =>
    exact ⟨v, [], σ, {}, .refl hc, by simp, fun pool captured τ b k stop _ _ => ⟨.none, rfl⟩⟩
  | some e =>
    refine (h e rfl c v items σ hc).bind (fun _ _ h => h) ?_
    rintro _ c₁ ⟨v₁, new₁, σ₁, x₁, h₁, -, hl₁⟩
    let i : Item := { op := .jumpIfFalse, operands := [], offset := c₁.unit.code.size,
                      span := e.span, height := c.unit.held + 1 }
    refine ((h₁.stands.emitJump (i := i) rfl rfl).map some).mono ?_
      fun _ _ h => h.after h₁.toBalanced
    rintro _ c₂ ⟨_, rfl, rfl, h₂, hs₂⟩
    refine ⟨v₁, new₁ ++ [i], σ₁, x₁, h₁.trans_straight hc h₂, ?_, ?_⟩
    · intro p hp
      obtain rfl : p = i.offset := by simpa using hp
      exact (Waits.emitted h₁.stands rfl rfl).behind h₁ hc
    · intro pool captured τ b k stop hm hstop
      obtain ⟨hcode, henv⟩ := hl₁ pool captured τ b k (hm.before_straight h₂ h₁.stands)
      have hi : i.aim τ = ((c.setting v captured b k).above 1).item (c₁.cursor v₁)
          ⟨.jumpIfFalse, [stop]⟩ e.span := by
        rw [Item.aim_of_isJump rfl, hstop i.offset (by simp)]
        rfl
      rw [aimed_append, aimed_singleton, hi, hs₂]
      exact ⟨.some hcode, henv⟩

theorem Adds.patchExit {exit : Option Nat} (h : Adds c v items σ c₁ v₁ new σ₁ exits)
    (hp : ∀ p ∈ exit.toList, Patchable c new exits p) :
    Gives (Compile.patchExit span exit) c₁
      (fun _ c' => Adds c v items σ c' v₁ new (σ₁.setAll exit.toList c₁.unit.code.size) exits ∧
        c'.cursor v₁ = c₁.cursor v₁ ∧ c'.constants = c₁.constants)
      (Fails c v) := by
  cases exit with
  | none => exact h.patchAll span [] (by simp) c₁.unit.code.size
  | some p =>
    rw [Option.toList_some, Targets.setAll_singleton]
    exact h.patchHere (hp p List.mem_cons_self)

/-- At the end of a loop every jump that waits for it is patched, and none of them twice. -/
theorem Adds.closeLoop {exit : Option Nat} {jumps : LoopJumps}
    (h : Adds c v items σ c₁ v₁ new σ₁ exits)
    (hexit : ∀ p ∈ exit.toList, Waits c new σ₁ exits p ∧ p ∉ jumps.breaks ++ jumps.continues)
    (hjumps : ∀ j ∈ jumps.breaks ++ jumps.continues, Waits c new σ₁ exits j)
    (hapart : ∀ j ∈ jumps.breaks, j ∉ jumps.continues) (next : Nat) :
    Gives (do
        Compile.patchExit span exit
        let stop ← Compile.here
        Compile.patchAll stop span jumps.breaks
        Compile.patchAll next span jumps.continues) c₁
      (fun _ c' => c'.cursor v₁ = c₁.cursor v₁ ∧ ∃ σ', Adds c v items σ c' v₁ new σ' exits ∧
        ∀ pool captured τ b k, Meets c' v₁ σ' exits pool captured τ b k →
          Meets c₁ v₁ σ₁ exits pool captured τ b k ∧
          (∀ p ∈ exit.toList, τ p = c₁.unit.code.size) ∧
          (∀ j ∈ jumps.breaks, τ j = c₁.unit.code.size) ∧ ∀ j ∈ jumps.continues, τ j = next)
      (Fails c v) := by
  have hout (j : Nat) (hj : j ∈ jumps.breaks ++ jumps.continues) : j ∉ exit.toList :=
    fun hp => (hexit j hp).2 hj
  refine (h.patchExit fun p hp => (hexit p hp).1.toPatchable).bind (fun _ _ h => h) ?_
  rintro _ c₂ ⟨h₂, hs₂, hk₂⟩
  refine Gives.here.bind (fun _ _ h => h.elim) ?_
  rintro _ c₂ ⟨rfl, rfl⟩
  refine (h₂.patchAll _ _ (fun j hj => (hjumps j (by simp [hj])).toPatchable) _).bind
    (fun _ _ h => h) ?_
  rintro _ c₃ ⟨h₃, hs₃, hk₃⟩
  refine (h₃.patchAll _ _ (fun j hj => (hjumps j (by simp [hj])).toPatchable) _).mono ?_
    fun _ _ h => h
  rintro _ c₄ ⟨h₄, hs₄, hk₄⟩
  refine ⟨hs₄.trans (hs₃.trans hs₂), _, h₄, fun pool captured τ b k hm => ?_⟩
  obtain ⟨hcontinues, hm₃⟩ := hm.unpatchedAll hk₄ fun j hj => by
    have hall : j ∈ jumps.breaks ++ jumps.continues := by simp [hj]
    rw [Targets.setAll_of_not_mem fun hb => hapart j hb hj, Targets.setAll_of_not_mem (hout j hall)]
    exact (hjumps j hall).unset
  obtain ⟨hbreaks, hm₂⟩ := hm₃.unpatchedAll hk₃ fun j hj => by
    have hall : j ∈ jumps.breaks ++ jumps.continues := by simp [hj]
    rw [Targets.setAll_of_not_mem (hout j hall)]
    exact (hjumps j hall).unset
  obtain ⟨hexits, hm₁⟩ := hm₂.unpatchedAll hk₂ fun p hp => (hexit p hp).1.unset
  have hstop : c₂.unit.code.size = c₁.unit.code.size := congrArg Cursor.offset hs₂
  exact ⟨hm₁, hexits, hstop ▸ hbreaks, hcontinues⟩

/-- The rounds of a loop: its condition, its body and its last clause. -/
theorem Emits.rounds {condition last : Option Expr} {toStart : Bool} {keeps : Prop}
    {R : Rule Unit} {body : Compile Unit} (hcond : ∀ e, condition = some e → e.Emitted)
    (hlast : ∀ e, last = some e → e.Emitted) (hbody : Emits keeps R body) :
    Emits False
      (fun _ pool c s is s' env => ∃ is₁ is₂ is₃ s₁ s₂ s₃,
        is = is₁ ++ is₂ ++ is₃ ++ [c.item s₃ ⟨.jump, [s.offset]⟩ span] ∧ s' = s₃.skip .jump ∧
        GuardCode pool c s condition s'.offset is₁ s₁ ∧
        R () pool (c.inLoop ⟨s'.offset, if toStart then s.offset else s₂.offset, c.height⟩) s₁ is₂ s₂
          env ∧
        UpdateCode pool (c.within env) s₂ last is₃ s₃)
      (Compile.rounds condition last toStart body span) := by
  intro c v items σ hc
  unfold Compile.rounds
  refine Gives.here.bind (fun _ _ h => h.elim) ?_
  rintro _ c ⟨rfl, rfl⟩
  refine (guard_emitted hcond hc).bind (fun _ _ h => h) ?_
  rintro exit c₁ ⟨v₁, new₁, σ₁, x₁, h₁, hexit, hl₁⟩
  refine (hbody.loopWith h₁.stands).bind (fun _ _ h => h.after h₁.toBalanced) ?_
  rintro jumps c₂ ⟨v₂, new₂, σ₂, h₂, hjumps, hapart, hl₂⟩
  refine Gives.here.bind (fun _ _ h => h.elim) ?_
  rintro _ c₂ ⟨rfl, rfl⟩
  refine (Emits.update hlast c₂ v₂ _ σ₂ h₂.stands).bind
    (fun _ _ h => (h.after h₂.toBalanced).after h₁.toBalanced) ?_
  rintro _ c₃ ⟨v₃, new₃, σ₃, x₃, h₃, -, hl₃⟩
  let i : Item := { op := .jump, operands := [], offset := c₃.unit.code.size, span := span,
                    height := c.unit.held }
  refine (h₃.stands.emitJumpTo (i := i) rfl rfl c.unit.code.size).bind
    (fun _ _ h => ((h.after h₃.toBalanced).after h₂.toBalanced).after h₁.toBalanced) ?_
  rintro _ c₄ ⟨h₄, hs₄⟩
  have h₁₂ := h₁.trans_straight hc h₂
  have h₁₃ : Adds c v items σ c₃ v₃ (new₁ ++ new₂ ++ new₃) σ₃ (x₁.andThen x₃) :=
    h₁₂.trans hc (by simpa using h₃)
  have h₁₄ : Adds c v items σ c₄ v₃ (new₁ ++ new₂ ++ new₃ ++ [i]) _ (x₁.andThen x₃) :=
    h₁₃.trans_straight hc (by simpa using h₄)
  have hend {p : Nat} (hp : Waits c (new₁ ++ new₂) σ₂ x₁ p) :
      Waits c (new₁ ++ new₂ ++ new₃ ++ [i]) (σ₃.set i.offset c.unit.code.size) (x₁.andThen x₃) p :=
    (hp.andThen h₁₂ hc (by simpa using h₃)).andThen h₁₃ hc (by simpa using h₄)
  have hexit₄ (p : Nat) (hp : p ∈ exit.toList) :
      Waits c (new₁ ++ new₂ ++ new₃ ++ [i]) (σ₃.set i.offset c.unit.code.size) (x₁.andThen x₃) p ∧
        p ∉ jumps.breaks ++ jumps.continues :=
    ⟨hend ((hexit p hp).andThen h₁ hc h₂), fun hj =>
      Nat.not_le_of_lt ((hexit p hp).lt h₁ hc) (hjumps p hj).start⟩
  refine (h₁₄.closeLoop hexit₄ (fun j hj => hend ((hjumps j hj).behind h₁ hc)) hapart _).mono ?_
    fun _ _ h => h
  rintro _ c₅ ⟨hs₅, σ₅, h₅, hl₅⟩
  refine ⟨v₃, _, _, _, h₅, fun h => h.elim, fun pool captured τ b k hm => ?_⟩
  obtain ⟨hm₄, hexits, hbreaks, hcontinues⟩ := hl₅ pool captured τ b k hm
  have hback : τ i.offset = c.unit.code.size := hm₄.targets _ _ (by simp)
  have hm₃ := hm₄.before_straight h₄ h₃.stands
  have hm₂ := hm₃.before h₃ h₂.stands
  obtain ⟨hcode₁, henv₁⟩ := hl₁ pool captured τ b k _ (hm₂.before_straight h₂ h₁.stands) hexits
  have hcode₂ := hl₂ pool captured τ b k _ _ ⟨hm₂.constants, hm₂.captured, hm₂.targets, hbreaks,
    hcontinues⟩
  obtain ⟨hcode₃, henv₃⟩ := hl₃ pool captured τ b k hm₃.right
  have henv : v₃.env = v₂.env := henv₃
  have hstop : (c₅.cursor v₃).offset = c₄.unit.code.size := congrArg Cursor.offset hs₅
  have hi : i.aim τ = (c.setting v captured b k).item (c₃.cursor v₃)
      ⟨.jump, [(c.cursor v).offset]⟩ span := by
    rw [Item.aim_of_isJump rfl, hback]
    rfl
  rw [h₁.setting_eq, henv₁, h₁.held] at hcode₂
  rw [(h₁.toBalanced.trans h₂.toBalanced).setting_eq] at hcode₃
  refine ⟨aimed τ new₁, aimed τ new₂, aimed τ new₃, c₁.cursor v₁, c₂.cursor v₂, c₃.cursor v₃, ?_, ?_,
    hstop ▸ hcode₁, ?_, henv ▸ hcode₃⟩
  · simp only [aimed_append, aimed_singleton, hi]
  · rw [hs₅, hs₄]
  · rw [hstop, henv]
    exact hcode₂

theorem Stmt.Emitted.whileLoop {condition : Expr} {body : List Stmt} {bodySpan : Span}
    (hcond : condition.Emitted) (hbody : StmtsEmitted body) :
    (Stmt.whileLoop condition (.mk body bodySpan) span).Emitted := by
  unfold Emitted
  rw [Compile.stmt_whileLoop]
  refine (Emits.rounds (fun e he => Option.some.inj he ▸ hcond) (by simp)
    (Emits.blockWith hbody .loop)).mono (fun h => by cases h) ?_
  rintro - pool c s is s' env
    ⟨is₁, is₂, is₃, s₁, s₂, s₃, rfl, rfl, hguard, ⟨rfl, env', hcode⟩, hupdate⟩
  cases hupdate
  cases hguard with
  | some hexpr =>
    rw [List.append_nil]
    exact .whileLoop hexpr hcode

theorem Stmt.Emitted.forLoop {first : Option Stmt} {condition last : Option Expr}
    {body : List Stmt} {bodySpan : Span} (hfirst : ∀ st, first = some st → st.Emitted)
    (hcond : ∀ e, condition = some e → e.Emitted) (hlast : ∀ e, last = some e → e.Emitted)
    (hbody : StmtsEmitted body) :
    (Stmt.forLoop first condition last (.mk body bodySpan) span).Emitted := by
  unfold Emitted
  rw [Compile.stmt_forLoop]
  refine (Emits.blockWith ((Emits.init hfirst).bind fun _ => Emits.rounds hcond hlast hbody)
    .loop).mono (fun h => by cases h) ?_
  rintro - pool c s is s' env ⟨rfl, env₂, -, is₀, _, s₀, env₀, rfl, hinit, is₁, is₂, is₃, s₁, s₂, s₃,
    rfl, rfl, hguard, hcode, hupdate⟩
  simp only [← List.append_assoc]
  exact .forLoop hinit hguard hcode hupdate

end Rounds

end StackScript
