import StackScript.Proofs.Compile.Quiet
import StackScript.Proofs.Compile.Visibility

/-! # Judgements

The compiler goes through the places of a program in order. A judgement on a step says which flaw the
step finds, if any, what it takes of the limits at most, and what is visible behind it.
-/

namespace StackScript

/-! ## What a step needs and keeps -/

/-- The compiler stands where `γ` is visible. Since the innermost loop began, `exit` operands have been
pushed; outside of loops it is `none`. -/
structure Compiler.Sees (c : Compiler) (v : OpenScopes) (γ : Visible) (exit : Option Nat) : Prop where
  shows : c.scopes.Shows v
  agrees : γ.Agrees v.env
  exit : c.unit.exitPops? = exit
  held : ∀ l ∈ c.unit.loops.head?, l.held ≤ c.unit.held

/-- There is room for `n` in the constants and in the innermost body, and for the bodies in it. -/
structure Compiler.Room (c : Compiler) (v : OpenScopes) (n : Size) : Prop where
  holds : c.Holds n
  slots : v.slots + n.slots ≤ 16384
  captured : (v.captured.toFinset ∪ n.captured).card ≤ 16384
  bodies : ∀ b ∈ n.bodies, b.Fits

/-- What a step keeps, with a result or with an error, when it takes at most `n`. -/
structure Compiler.Passes (c : Compiler) (v : OpenScopes) (n : Size) (c' : Compiler)
    (v' : OpenScopes) : Prop where
  shows : c'.scopes.Shows v'
  scopes : v.Extends v'
  unit : c.unit.Level c'.unit
  constants : c'.constants.size ≤ c.constants.size + n.constants
  bytes : c'.unit.code.size ≤ c.unit.code.size + n.bytes
  slots : v'.slots ≤ v.slots + n.slots
  captured : v'.captured.toFinset ⊆ v.captured.toFinset ∪ n.captured

section Passes

variable {c c₁ c₂ : Compiler} {v v₁ v₂ : OpenScopes} {γ γ' : Visible} {exit : Option Nat} {m n : Size}

theorem Compiler.Sees.passes (h : c.Sees v γ exit) (n : Size) : c.Passes v n c v :=
  ⟨h.shows, .refl v, .refl _, Nat.le_add_right _ _, Nat.le_add_right _ _, Nat.le_add_right _ _,
    Finset.subset_union_left⟩

theorem Compiler.Writes.passes (h : c.Writes n c₁) (hv : c.scopes.Shows v) : c.Passes v n c₁ v :=
  ⟨h.scopes ▸ hv, .refl v, h.unit, h.constants, h.bytes, Nat.le_add_right _ _,
    Finset.subset_union_left⟩

theorem Compiler.Passes.of_scopes {t : ScopeTable} (ht : t.Shows v₁) (h : v.Extends v₁)
    (hslots : v₁.slots ≤ v.slots + n.slots)
    (hcaptured : v₁.captured.toFinset ⊆ v.captured.toFinset ∪ n.captured) :
    c.Passes v n { c with scopes := t } v₁ :=
  ⟨ht, h, .refl _, Nat.le_add_right _ _, Nat.le_add_right _ _, hslots, hcaptured⟩

theorem Compiler.Passes.trans (h₁ : c.Passes v m c₁ v₁) (h₂ : c₁.Passes v₁ n c₂ v₂) :
    c.Passes v (m + n) c₂ v₂ where
  shows := h₂.shows
  scopes := h₁.scopes.trans h₂.scopes
  unit := h₁.unit.trans h₂.unit
  constants := by
    have := h₁.constants
    have := h₂.constants
    rw [Size.constants_add]
    omega
  bytes := by
    have := h₁.bytes
    have := h₂.bytes
    rw [Size.bytes_add]
    omega
  slots := by
    have := h₁.slots
    have := h₂.slots
    rw [Size.slots_add]
    omega
  captured := by
    rw [Size.captured_add, ← Finset.union_assoc]
    exact h₂.captured.trans (Finset.union_subset_union_left h₁.captured)

theorem Compiler.Passes.within (h : c.Passes v m c₁ v₁) (hmn : m.Within n) : c.Passes v n c₁ v₁ :=
  { h with
    constants := h.constants.trans (Nat.add_le_add_left hmn.constants _)
    bytes := h.bytes.trans (Nat.add_le_add_left hmn.bytes _)
    slots := h.slots.trans (Nat.add_le_add_left hmn.slots _)
    captured := h.captured.trans (Finset.union_subset_union_right hmn.captured) }

theorem Compiler.Room.within (h : c.Room v n) (hmn : m.Within n) : c.Room v m where
  holds := ⟨(Nat.add_le_add_left hmn.constants _).trans h.holds.constants,
    (Nat.add_le_add_left hmn.bytes _).trans h.holds.bytes⟩
  slots := (Nat.add_le_add_left hmn.slots _).trans h.slots
  captured := (Finset.card_le_card (Finset.union_subset_union_right hmn.captured)).trans h.captured
  bodies b hb := h.bodies b (hmn.bodies hb)

theorem Compiler.Room.right (h : c.Room v (m + n)) (hp : c.Passes v m c₁ v₁) : c₁.Room v₁ n where
  holds := by
    obtain ⟨hconstants, hbytes⟩ := h.holds
    have := hp.constants
    have := hp.bytes
    rw [Size.constants_add] at hconstants
    rw [Size.bytes_add] at hbytes
    exact ⟨by omega, by omega⟩
  slots := by
    have hslots := h.slots
    have := hp.slots
    rw [Size.slots_add] at hslots
    omega
  captured := by
    refine (Finset.card_le_card ?_).trans h.captured
    rw [Size.captured_add, ← Finset.union_assoc]
    exact Finset.union_subset_union_left hp.captured
  bodies b hb := h.bodies b (List.mem_append_right _ hb)

theorem Compiler.Room.congr (h : c.Room v n) (hconstants : c₁.constants = c.constants)
    (hcode : c₁.unit.code = c.unit.code) (hslots : v₁.slots = v.slots)
    (hcaptured : v₁.captured = v.captured) : c₁.Room v₁ n where
  holds := ⟨by simpa [hconstants] using h.holds.constants, by simpa [hcode] using h.holds.bytes⟩
  slots := hslots ▸ h.slots
  captured := hcaptured ▸ h.captured
  bodies := h.bodies

theorem CodeUnit.Level.exitPops? {u u' : CodeUnit} (h : u.Level u') : u'.exitPops? = u.exitPops? := by
  have hexit (u : CodeUnit) : u.exitPops? = (u.loops.map (·.held)).head?.map fun n => u.held - n := by
    rw [List.head?_map, Option.map_map]
    rfl
  rw [hexit, hexit, h.loops, h.held]

theorem CodeUnit.Level.held_le {u u' : CodeUnit} (h : u.Level u')
    (hheld : ∀ l ∈ u.loops.head?, l.held ≤ u.held) : ∀ l ∈ u'.loops.head?, l.held ≤ u'.held := by
  have hmap (u : CodeUnit) : (∀ l ∈ u.loops.head?, l.held ≤ u.held) ↔
      ∀ n ∈ (u.loops.map (·.held)).head?, n ≤ u.held := by
    cases u.loops <;> simp
  rw [hmap] at hheld ⊢
  rwa [h.loops, h.held]

theorem Compiler.Sees.after (h : c.Sees v γ exit) (hp : c.Passes v n c₁ v₁)
    (ha : γ'.Agrees v₁.env) : c₁.Sees v₁ γ' exit :=
  ⟨hp.shows, ha, hp.unit.exitPops?.trans h.exit, hp.unit.held_le h.held⟩

/-- No name is captured twice, and each has a slot. -/
theorem ScopeTable.Shows.captured {t : ScopeTable} (h : t.Shows v) :
    v.captured.Nodup ∧ v.captured.length ≤ Storage.slotLimit := by
  obtain ⟨_, inner, _, _⟩ := t
  obtain ⟨_, _, bodies⟩ := v
  cases h.inner with
  | nil => exact ⟨List.nodup_nil, Nat.zero_le _⟩
  | cons hbody _ _ => exact ⟨hbody.nodup, hbody.captured_le⟩

end Passes

namespace Compile

variable {α β : Type} {x : Compile α} {f : α → Compile β} {γ γ₁ γ₂ : Visible} {exit : Option Nat}
  {flaw flaw₁ flaw₂ : Option CompileError} {left left' : Lexical → Prop} {m n : Size} {ok : Prop}
  {P : α → Prop} {Q : β → Prop} {span : Span}

/-- Where `γ` is visible and there is room for `n`, the step takes at most `n`. If there is no flaw its
result satisfies `Q`, and `after` is visible behind it. Or it fails with the flaw, and leaves names that
satisfy `left`, or for a fault of the compiler. -/
def Yields (γ : Visible) (exit : Option Nat) (flaw : Option CompileError) (n : Size) (after : Visible)
    (left : Lexical → Prop) (Q : α → Prop) (x : Compile α) : Prop :=
  ∀ c v, Compiler.Sees c v γ exit → c.Room v n → Gives x c
    (fun a c' => flaw = none ∧ Q a ∧ ∃ v', c.Passes v n c' v' ∧ after.Agrees v'.env)
    fun e c' => ∃ v', c.Passes v n c' v' ∧
      ((∃ m, e.cause = .internal m) ∨ flaw = some e ∧ left v'.env)

/-- The same of a step whose result does not matter. -/
abbrev Judges (γ : Visible) (exit : Option Nat) (flaw : Option CompileError) (n : Size)
    (after : Visible) (left : Lexical → Prop) (x : Compile α) : Prop :=
  Yields γ exit flaw n after left (fun _ => True) x

namespace Yields

theorem bind (h : Yields γ exit flaw₁ m γ₁ left P x)
    (hf : ∀ a, P a → Yields γ₁ exit flaw₂ n γ₂ left Q (f a)) :
    Yields γ exit (flaw₁.or flaw₂) (m + n) γ₂ left Q (x >>= f) := by
  intro c v hc hroom
  refine (h c v hc (hroom.within (.left m n))).bind ?_ ?_
  · rintro e c₁ ⟨v₁, hp, he⟩
    refine ⟨v₁, hp.within (.left m n), he.imp_right ?_⟩
    rintro ⟨rfl, hleft⟩
    exact ⟨rfl, hleft⟩
  · rintro a c₁ ⟨rfl, ha, v₁, hp, hagrees⟩
    refine (hf a ha c₁ v₁ (hc.after hp hagrees) (hroom.right hp)).mono ?_ ?_
    · rintro b c₂ ⟨hnone, hb, v₂, hp₂, hagrees₂⟩
      exact ⟨hnone, hb, v₂, hp.trans hp₂, hagrees₂⟩
    · rintro e c₂ ⟨v₂, hp₂, he⟩
      exact ⟨v₂, hp.trans hp₂, he⟩

end Yields

theorem Judges.bind (h : Judges γ exit flaw₁ m γ₁ left x)
    (hf : ∀ a, Yields γ₁ exit flaw₂ n γ₂ left Q (f a)) :
    Yields γ exit (flaw₁.or flaw₂) (m + n) γ₂ left Q (x >>= f) :=
  Yields.bind h fun a _ => hf a

namespace Yields

theorem within (h : Yields γ exit flaw m γ₁ left P x) (hmn : m.Within n) :
    Yields γ exit flaw n γ₁ left P x := by
  refine fun c v hc hroom => (h c v hc (hroom.within hmn)).mono ?_ ?_
  · rintro a c' ⟨hnone, ha, v', hp, hagrees⟩
    exact ⟨hnone, ha, v', hp.within hmn, hagrees⟩
  · rintro e c' ⟨v', hp, he⟩
    exact ⟨v', hp.within hmn, he⟩

theorem mono (h : Yields γ exit flaw n γ₁ left P x) (hleft : ∀ env, left env → left' env) :
    Yields γ exit flaw n γ₁ left' P x :=
  fun c v hc hroom => (h c v hc hroom).mono (fun _ _ hx => hx)
    fun _ _ ⟨v', hp, he⟩ => ⟨v', hp, he.imp_right fun ⟨hflaw, henv⟩ => ⟨hflaw, hleft _ henv⟩⟩

theorem pure {a : α} (ha : P a) : Yields γ exit none n γ left P (pure a) :=
  fun _ v hc _ => ⟨rfl, ha, v, hc.passes n, hc.agrees⟩

/-- A number that is counted in bytes has an operand of 16 bits. -/
theorem counting {k : Nat} (hk : k ≤ n.bytes)
    (h : k < 65536 → Yields γ exit flaw n γ₁ left P x) : Yields γ exit flaw n γ₁ left P x := by
  intro c v hc hroom
  refine h ?_ c v hc hroom
  have := hroom.holds.bytes
  omega

theorem fail (e : CompileError) (h : ∀ env, γ.Agrees env → left env) :
    Judges γ exit (some e) n γ₁ left (fail e.cause e.span : Compile α) :=
  fun _ v hc _ => ⟨v, hc.passes n, .inr ⟨rfl, h _ hc.agrees⟩⟩

theorem quiet (h : Quiet True n x) : Judges γ exit none n γ left x :=
  fun c v hc hroom => (h c).mono
    (fun _ _ hw => ⟨rfl, trivial, v, hw.passes hc.shows, hc.agrees⟩)
    fun _ _ he => ⟨v, he.1.passes hc.shows, .inl (he.2 trivial hroom.holds)⟩

theorem andQuiet (h : Judges γ exit flaw m γ₁ left x) (hf : ∀ a, Quiet True n (f a)) :
    Judges γ exit flaw (m + n) γ₁ left (x >>= f) := by
  rw [← Option.or_none (o := flaw)]
  exact h.bind fun a => quiet (hf a)

theorem afterQuiet (h : Quiet True m x) (hf : ∀ a, Judges γ exit flaw n γ₁ left (f a)) :
    Judges γ exit flaw (m + n) γ₁ left (x >>= f) :=
  (quiet h).bind hf

theorem andSilent (h : Judges γ exit flaw n γ₁ left x) (hf : ∀ a, Quiet True 0 (f a)) :
    Judges γ exit flaw n γ₁ left (x >>= f) :=
  add_zero n ▸ h.andQuiet hf

theorem afterSilent (h : Quiet True 0 x) (hf : ∀ a, Judges γ exit flaw n γ₁ left (f a)) :
    Judges γ exit flaw n γ₁ left (x >>= f) :=
  zero_add n ▸ afterQuiet h hf

/-- The offset of the next instruction is one that a jump can lead to. -/
theorem here {f : Nat → Compile β} (hf : ∀ offset < 65536, Judges γ exit flaw n γ₁ left (f offset)) :
    Judges γ exit flaw n γ₁ left (here >>= f) := by
  intro c v hc hroom
  refine Gives.reading (a := c.unit.code.size) rfl (hf _ ?_ c v hc hroom)
  have := hroom.holds.bytes
  omega

theorem holding (k : Nat) {x : Compile Unit}
    (h : Judges γ (exit.map (· + k)) flaw n γ₁ left x) : Judges γ exit flaw n γ₁ left (holding k x) := by
  intro c v hc hroom
  have hin : ({ c with unit := c.unit.hold k } : Compiler).Sees v γ (exit.map (· + k)) := by
    refine ⟨hc.shows, hc.agrees, ?_, fun l hl => Nat.le_add_right_of_le (hc.held l hl)⟩
    have hexit := hc.exit
    have hheld := hc.held
    unfold CodeUnit.exitPops? at hexit ⊢
    cases hl : c.unit.loops with
    | nil => simp [← hexit, CodeUnit.hold, hl]
    | cons l ls =>
      simp only [hl, List.head?_cons, Option.mem_some_iff, forall_eq'] at hheld
      simp [← hexit, CodeUnit.hold, hl, Nat.sub_add_comm hheld]
  have hout {c' : Compiler} {v' : OpenScopes}
      (hp : Compiler.Passes { c with unit := c.unit.hold k } v n c' v') :
      c.Passes v n { c' with unit := c'.unit.release k } v' :=
    { hp with unit := hp.unit.release }
  refine Gives.bracket ((h _ v hin (hroom.congr rfl rfl rfl rfl)).mono ?_ ?_)
  · rintro _ c' ⟨hnone, -, v', hp, ha⟩
    exact ⟨hnone, trivial, v', hout hp, ha⟩
  · rintro e c' ⟨v', hp, he⟩
    exact ⟨v', hout hp, he⟩

theorem blockWith (kind : BlockKind) {x : Compile Unit} (h : Judges γ exit flaw n γ₁ left x) :
    Judges γ exit flaw n γ γ.Agrees (blockWith kind x) := by
  intro c v hc hroom
  have hleave {c' : Compiler} {v' : OpenScopes}
      (hp : Compiler.Passes { c with scopes := c.scopes.enterBlock kind } (v.modify (·.enterBlock))
        n c' v') :
      c.Passes v n { c' with scopes := c'.scopes.leaveBlock } (v'.modify (·.leaveBlock)) ∧
        γ.Agrees (v'.modify (·.leaveBlock)).env := by
    obtain ⟨hext, henv⟩ := hp.scopes.leaveBlock
    refine ⟨{ hp with shows := hp.shows.leaveBlock, scopes := hext, slots := ?_, captured := ?_ },
      henv ▸ hc.agrees⟩
    · simpa using hp.slots
    · simpa using hp.captured
  have hin : ({ c with scopes := c.scopes.enterBlock kind } : Compiler).Sees
      (v.modify (·.enterBlock)) γ exit :=
    ⟨hc.shows.enterBlock kind, hc.agrees.enterBlock, hc.exit, hc.held⟩
  refine Gives.bracket ((h _ _ hin (hroom.congr rfl rfl (by simp) (by simp))).mono ?_ ?_)
  · rintro _ c' ⟨hnone, -, v', hp, -⟩
    exact ⟨hnone, trivial, _, (hleave hp).1, (hleave hp).2⟩
  · rintro e c' ⟨v', hp, he⟩
    exact ⟨_, (hleave hp).1, he.imp_right fun he => ⟨he.1, (hleave hp).2⟩⟩

theorem loopWith {x : Compile Unit} (h : Judges γ (some 0) flaw n γ₁ left x) :
    Judges γ exit flaw n γ₁ left (loopWith x) := by
  intro c v hc hroom
  have hsize (u : CodeUnit) : u.leaveLoop.2.code = u.code := by
    unfold CodeUnit.leaveLoop
    split <;> rfl
  have hleave {c' : Compiler} {v' : OpenScopes}
      (hp : Compiler.Passes { c with unit := c.unit.enterLoop } v n c' v') :
      c.Passes v n { c' with unit := c'.unit.leaveLoop.2 } v' :=
    { hp with
      unit := hp.unit.leaveLoop
      bytes := by
        rw [hsize]
        exact hp.bytes }
  have hin : ({ c with unit := c.unit.enterLoop } : Compiler).Sees v γ (some 0) := by
    refine ⟨hc.shows, hc.agrees, ?_, ?_⟩
    · simp [CodeUnit.exitPops?, CodeUnit.enterLoop]
    · rintro l hl
      cases hl
      exact Nat.le_refl _
  refine Gives.loopWith ((h _ v hin (hroom.congr rfl rfl rfl rfl)).mono ?_ ?_)
  · rintro _ c' ⟨hnone, -, v', hp, ha⟩
    exact ⟨hnone, trivial, v', hleave hp, ha⟩
  · rintro e c' ⟨v', hp, he⟩
    exact ⟨v', hleave hp, he⟩

end Yields

/-! ## Names -/

section Names

variable {c : Compiler} {v : OpenScopes} {name : String}

theorem reaches_origin (h : v.Reaches name) (hagrees : γ.Agrees v.env) :
    γ.origin name = some .outerBody := by
  obtain ⟨b, bs, hi, hfind, hbound⟩ := h
  have houter : (bs.map (·.names)).any (fun b => (b.find? name).isSome) = true := by
    rw [List.any_map]
    exact hbound
  rw [hagrees.origin, Lexical.origin?, OpenScopes.env, hi]
  simp only [List.map_cons, hfind, if_pos houter]

theorem not_full (hc : c.Sees v γ exit) (hroom : c.Room v (γ.captures name)) : ¬v.Full name := by
  intro hfull
  have hcard := hroom.captured
  have hnodup : (name :: v.captured).Nodup := List.nodup_cons.mpr ⟨hfull.new, hc.shows.captured.1⟩
  rw [Visible.captures, if_pos (reaches_origin hfull.reaches hc.agrees), Finset.union_comm,
    ← Finset.insert_eq, ← List.toFinset_cons, List.toFinset_card_of_nodup hnodup,
    List.length_cons] at hcard
  exact absurd (Nat.lt_of_succ_le hcard) (Nat.not_lt.mpr hfull.length)

/-- A name is found where it is bound, and it is not found if it is neither bound nor a builtin. -/
theorem resolve_yields (name : String) (span : Span) :
    Yields γ exit (Site.use γ name span).flaw? (γ.captures name) γ γ.Agrees
      (fun s => s.index < Storage.slotLimit ∧ s.storage = Origin.storage (γ.origin name) ∧
        γ.resolves name = true) (resolve name span) := by
  intro c v hc hroom
  have hfound {captured : List String} {s : Symbol}
      (hp : v.env.place? captured name = some s.place) :
      γ.resolves name = true ∧ s.storage = Origin.storage (γ.origin name) := by
    obtain ⟨hstorage, hbuiltin⟩ := Lexical.storage_of_place? hp
    rw [Visible.resolves, hc.agrees.origin]
    refine ⟨?_, hstorage⟩
    cases ho : v.env.origin? name with
    | none => exact hbuiltin ho
    | some o => rfl
  have hflaw : (Site.use γ name span).flaw? =
      if γ.resolves name then none else some ⟨.symbol (.unresolved name), span⟩ := rfl
  rw [hflaw]
  unfold resolve
  refine Gives.reading (a := c) rfl ?_
  split
  · next index hl hi =>
    refine (hc.shows.defineBuiltin hl hi).onScopes.mono ?_ ?_
    · rintro s _ ⟨t, ⟨ht, hp, hs⟩, rfl⟩
      exact ⟨if_pos (hfound hp).1, ⟨hs, (hfound hp).2, (hfound hp).1⟩, v,
        .of_scopes ht (.refl v) (Nat.le_add_right _ _) Finset.subset_union_left, hc.agrees⟩
    · rintro _ _ ⟨t, e, hfalse, -⟩
      exact hfalse.elim
  · next hnone =>
    refine (hc.shows.resolve name).onScopes.mono ?_ ?_
    · rintro s _ ⟨t, ⟨v', hext, henv, hslots, ht, hp, hs, hcaptured⟩, rfl⟩
      refine ⟨if_pos (hfound hp).1, ⟨hs, (hfound hp).2, (hfound hp).1⟩, v',
        .of_scopes ht hext (hslots ▸ Nat.le_add_right _ _) ?_, henv ▸ hc.agrees⟩
      rcases hcaptured with hcaptured | ⟨hcaptured, hreaches⟩
      · exact hcaptured ▸ Finset.subset_union_left
      · rw [hcaptured, Visible.captures, if_pos (reaches_origin hreaches hc.agrees)]
        simp
    · rintro _ _ ⟨t, e, ⟨rfl, ⟨hl, rfl⟩ | hfull⟩, rfl, rfl⟩
      · refine ⟨v, hc.passes _, .inr ⟨if_neg ?_, hc.agrees⟩⟩
        have hlocated := hc.shows.located name
        rw [hl] at hlocated
        cases hlocated with
        | nowhere hp _ =>
          rw [Visible.resolves, hc.agrees.origin, Lexical.origin?_of_place? hp]
          cases hi : Builtin.indexOf? name with
          | none => exact Bool.false_ne_true
          | some i => exact (hnone i hl hi).elim
      · exact absurd hfull (not_full hc hroom)

theorem Symbol.load_eq {s : Symbol} (h : s.storage = Origin.storage (γ.origin name)) :
    s.load = γ.load name := by
  unfold Symbol.load Visible.load
  rw [h]
  rcases γ.origin name with _ | _ | _ | _ | _ <;> rfl

theorem ident_judges (name : String) (span : Span) :
    Judges γ exit (Site.use γ name span).flaw? (γ.captures name + γ.load name) γ γ.Agrees
      (resolve name span >>= fun s => load s span) := by
  rw [← Option.or_none (o := (Site.use γ name span).flaw?)]
  refine (resolve_yields name span).bind fun s ⟨hs, hstorage, _⟩ => ?_
  exact Symbol.load_eq hstorage ▸ Yields.quiet ((load_quiet s).weaken fun _ => hs)

theorem targetFlaw?_eq (name : String) (span : Span) : γ.targetFlaw? name span =
    (Site.use γ name span).flaw?.or (if (Origin.storage (γ.origin name)).assignable then none
      else some ⟨.invalidAssignment (.named (Origin.storage (γ.origin name)) name), span⟩) := by
  unfold Visible.targetFlaw? Site.flaw? Visible.resolves
  rcases ho : γ.origin name with _ | _ | _ | _ | _ <;>
    simp [ho, Origin.storage, Storage.assignable]
  cases Builtin.indexOf? name <;> rfl

theorem assignable_yields (name : String) (span : Span) :
    Yields γ exit (γ.targetFlaw? name span) (γ.captures name) γ γ.Agrees
      (fun s => s.index < Storage.slotLimit ∧ s.storage ≠ .self) (assignable name span) := by
  rw [targetFlaw?_eq, ← add_zero (γ.captures name)]
  refine (resolve_yields name span).bind fun s h => ?_
  obtain ⟨hs, hstorage, -⟩ := h
  rw [← hstorage]
  by_cases ha : s.storage.assignable
  · rw [if_pos ha, if_pos ha]
    refine Yields.pure ⟨hs, fun hself => ?_⟩
    rw [hself] at ha
    cases ha
  · rw [if_neg ha, if_neg ha]
    exact fun _ v hc _ => ⟨v, hc.passes 0, .inr ⟨rfl, hc.agrees⟩⟩

theorem define_yields (name : Ident) :
    Yields γ exit none (γ.declares name.name) (γ.declare name.name) left
      (fun s => s.index < Storage.slotLimit) (define name) := by
  intro c v hc hroom
  have hslots := hroom.slots
  unfold Visible.declares at hslots ⊢
  rw [hc.agrees.assigns_eq] at hslots ⊢
  refine (hc.shows.define name.name).onScopes.mono ?_ ?_
  · rintro s _ ⟨t, ⟨-, hs, ht⟩, rfl⟩
    refine ⟨rfl, hs, _, .of_scopes ht (.declare v name.name) ?_ ?_, hc.agrees.declare name.name⟩
    · unfold OpenScopes.declare
      cases v.env.reused? name.name <;> simp [OpenScopes.bindSlot]
    · simp
  · rintro _ _ ⟨t, e, ⟨rfl, hnew, hfull⟩, rfl, rfl⟩
    rw [hnew] at hslots
    exact absurd (Nat.lt_of_succ_le hslots) (Nat.not_lt.mpr hfull)

theorem loopExit_judges (outside : CompileError.Cause) (span : Span) :
    Judges γ exit (if exit.isSome then none else some ⟨outside, span⟩) (.exit exit) γ γ.Agrees
      (emitLoopExit outside span) := by
  intro c v hc hroom
  unfold emitLoopExit
  refine Gives.reading (a := c.unit) rfl ?_
  rw [hc.exit]
  cases exit with
  | none => exact ⟨v, hc.passes _, .inr ⟨rfl, hc.agrees⟩⟩
  | some pending =>
    have hsize : Size.exit (some pending) =
        { bytes := pending * Opcode.pop.length } + .instruction .jump := by
      ext <;> simp [Size.exit, Size.instruction]
    rw [hsize] at hroom ⊢
    exact Yields.quiet ((emitPops_quiet pending).bind fun _ => emitJump_quiet .jump) c v hc hroom

end Names

/-! ## Functions and loops -/

section Functions

variable {self : Option String} {params : List Ident}

theorem defineParams_judges (h : γ.inFunction = true) :
    Judges γ exit none { slots := params.length } (γ.bindParams params) left (defineParams params) := by
  induction params generalizing γ with
  | nil => exact .pure trivial
  | cons p params ih =>
    have hsize : ({ slots := (p :: params).length } : Size) =
        { slots := 1 } + { slots := params.length } := by
      ext <;> simp [Nat.add_comm]
    have hparam : Judges γ exit none { slots := 1 } (γ.bind p.name .sameBody) left
        (discard (onScopes p.span (Scoping.defineParameter p.name))) := by
      intro c v hc hroom
      have hi : v.inner ≠ [] := by
        have hin := hc.agrees.inFunction
        rw [h] at hin
        rintro hnil
        simp [OpenScopes.env, hnil] at hin
      refine Gives.discard ((hc.shows.defineLocal hi p.name).onScopes.mono ?_ ?_)
      · rintro s _ ⟨t, ⟨-, -, ht⟩, rfl⟩
        have hagrees := hc.agrees.bindSlot p.name
        rw [if_pos h] at hagrees
        refine ⟨rfl, trivial, _, .of_scopes ht (.bindSlot v p.name fun hnil => absurd hnil hi) ?_ ?_,
          hagrees⟩
        · simp [OpenScopes.bindSlot]
        · simp [OpenScopes.bindSlot]
      · rintro _ _ ⟨t, e, ⟨rfl, hfull⟩, rfl, rfl⟩
        exact absurd (Nat.lt_of_succ_le hroom.slots) (Nat.not_lt.mpr hfull)
    exact hsize ▸ hparam.bind fun _ => ih h

theorem inBody_gives {step : Compile Unit} {c : Compiler} {v : OpenScopes}
    (hc : c.Sees v.enterFunction γ.enclose none)
    (hroom : c.Room v.enterFunction ({ slots := params.length } + n))
    (h : Judges (γ.enter self params) none flaw n γ₁ left step) :
    Gives (inBody self params step) c
      (fun _ c' => flaw = none ∧ ∃ v', c.Passes v.enterFunction ({ slots := params.length } + n) c' v')
      fun e c' => ∃ v', c.Passes v.enterFunction ({ slots := params.length } + n) c' v' ∧
        ((∃ m, e.cause = .internal m) ∨ flaw = some e) := by
  have hparams {γ' : Visible} (hin : γ'.inFunction = true)
      (henter : γ'.bindParams params = γ.enter self params) :
      Judges γ' none flaw ({ slots := params.length } + n) γ₁ left
        (defineParams params >>= fun _ => step) :=
    (defineParams_judges hin).bind fun _ => henter ▸ h
  cases self with
  | none =>
    refine (hparams rfl rfl c _ hc hroom).mono ?_ ?_
    · exact fun _ _ ⟨hnone, _, v', hp, _⟩ => ⟨hnone, v', hp⟩
    · exact fun _ _ ⟨v', hp, he⟩ => ⟨v', hp, he.imp_right And.left⟩
  | some name =>
    have hself : c.Passes v.enterFunction 0 { c with scopes := (c.scopes.defineSelf name).2 }
        (v.enterFunction.modify (·.bind name .self)) :=
      .of_scopes (hc.shows.defineSelf name) (.enterBody v _ 0) (Nat.zero_le _) (by simp)
    rw [← zero_add ({ slots := params.length } + n)] at hroom ⊢
    refine (hparams rfl rfl _ _ (hc.after hself (hc.agrees.bindSelf name)) (hroom.right hself)).mono
      ?_ ?_
    · exact fun _ _ ⟨hnone, _, v', hp, _⟩ => ⟨hnone, v', hself.trans hp⟩
    · exact fun _ _ ⟨v', hp, he⟩ => ⟨v', hself.trans hp, he.imp_right And.left⟩

theorem loadCaptured_judges {symbols : List Symbol} (hnodup : (symbols.map (·.name)).Nodup)
    (h : ∀ s ∈ symbols, γ.resolves s.name = true) :
    Judges γ exit none (γ.loads (symbols.map (·.name)).toFinset) γ γ.Agrees
      (loadCaptured span symbols) := by
  induction symbols with
  | nil => exact .pure trivial
  | cons s symbols ih =>
    obtain ⟨hnew, hnodup⟩ := List.nodup_cons.mp hnodup
    have hflaw : (Site.use γ s.name span).flaw? = none :=
      if_pos (h s List.mem_cons_self)
    rw [List.map_cons, List.toFinset_cons, γ.loads_insert s.name (by simpa using hnew)]
    refine (hflaw ▸ resolve_yields s.name span).bind fun symbol hsymbol => ?_
    rw [← Symbol.load_eq hsymbol.2.1]
    exact .afterQuiet ((load_quiet symbol).weaken fun _ => hsymbol.1) fun _ =>
      ih hnodup fun s hs => h s (List.mem_cons_of_mem _ hs)

theorem closure_judges {written : CodeUnit} {symbols : FunctionSymbols}
    (hparams : params.length < 65536) (hfree : symbols.free.size < 65536)
    (hnodup : (symbols.free.toList.map (·.name)).Nodup)
    (h : ∀ s ∈ symbols.free.toList, γ.resolves s.name = true) :
    Judges γ exit none
      (γ.loads (symbols.free.toList.map (·.name)).toFinset + (.constant + .instruction .closure))
      γ γ.Agrees (closure self params span written symbols) := by
  unfold closure
  rw [if_pos hparams]
  refine (loadCaptured_judges hnodup h).andQuiet fun _ => addConstant_quiet _ fun index hindex => ?_
  refine (write_quiet .closure _).weaken fun _ => ?_
  simp [hindex, hfree]

theorem functionWith_judges {bodySpan : Span} {body : Compile Unit}
    (h : Judges (γ.enter self params) none flaw n γ₁ left (body >>= fun _ => returnBodyValue bodySpan)) :
    Judges γ exit flaw (γ.closure params.length n) γ γ.Agrees
      (functionWith self params span bodySpan body) := by
  intro c v hc hroom
  have hin : (c.enterBody self).Sees v.enterFunction γ.enclose none :=
    ⟨hc.shows.enterFunction self, hc.agrees.enclose, rfl, nofun⟩
  obtain ⟨hbytes, hlocals, hcaptured⟩ := hroom.bodies _ List.mem_cons_self
  have hroom' : (c.enterBody self).Room v.enterFunction ({ slots := params.length } + n) := by
    have hconstants := (hroom.within (.left _ _)).holds.constants
    refine ⟨⟨?_, ?_⟩, ?_, ?_, fun b hb => hroom.bodies b ?_⟩
    · simpa [Compiler.enterBody] using hconstants
    · simpa [Compiler.enterBody] using hbytes
    · simpa [OpenScopes.enterFunction, OpenScopes.slots] using hlocals
    · simpa [OpenScopes.enterFunction, OpenScopes.captured] using hcaptured
    · exact List.mem_append_left _ (List.mem_cons_of_mem _ (by simpa using hb))
  have hleave {c' : Compiler} {b : OpenBody}
      (hp : (c.enterBody self).Passes v.enterFunction ({ slots := params.length } + n) c'
        { v with inner := b :: v.inner }) :
      c.Passes v ⟨n.constants, 0, 0, ∅, ⟨n.bytes, params.length + n.slots, n.captured.card⟩ :: n.bodies⟩
        (c'.leaveBody c.unit) v := by
    obtain ⟨-, -, -, hshows⟩ := hp.shows.leaveFunction
    refine ⟨hshows, .refl v, .refl _, ?_, Nat.le_refl _, Nat.le_refl _, Finset.subset_union_left⟩
    simpa [Compiler.leaveBody, Compiler.enterBody] using hp.constants
  refine Gives.functionWith ((inBody_gives hin hroom' h).mono ?_ ?_)
  · rintro _ c' ⟨hnone, v', hp⟩
    obtain ⟨b, rfl⟩ := hp.scopes.leaveFunction
    obtain ⟨-, hnames, henclosed, -⟩ := hp.shows.leaveFunction
    obtain ⟨hnodup, hlength⟩ := hp.shows.captured
    have hresolves : ∀ s ∈ c'.scopes.leaveFunction.1.free.toList, γ.resolves s.name = true := by
      intro s hs
      refine hc.agrees.resolves_of_enclosed ?_
      have hbound := henclosed s.name (hnames ▸ List.mem_map_of_mem hs)
      simpa [Lexical.enclosed, OpenScopes.env, boundIn, List.any_map, Function.comp_def]
        using hbound
    have hsub : (c'.scopes.leaveFunction.1.free.toList.map (·.name)).toFinset ⊆ n.captured := by
      rw [hnames]
      simpa [OpenScopes.enterFunction, OpenScopes.captured] using hp.captured
    have hsize : c'.scopes.leaveFunction.1.free.size = b.captured.length := by
      rw [← hnames, List.length_map, Array.length_toList]
    have hfree : c'.scopes.leaveFunction.1.free.size < 65536 :=
      hsize ▸ Nat.lt_of_le_of_lt hlength (by decide)
    have hparams : params.length < 65536 := by
      dsimp only at hlocals
      omega
    have hclosure : Judges γ exit none (γ.loads n.captured + (.constant + .instruction .closure)) γ
        γ.Agrees (closure self params span c'.unit c'.scopes.leaveFunction.1) :=
      (closure_judges hparams hfree (hnames ▸ hnodup) hresolves).within ((γ.loads_within hsub).add _)
    refine (hclosure _ v (hc.after (hleave hp) hc.agrees) (hroom.right (hleave hp))).mono ?_ ?_
    · rintro _ c'' ⟨-, -, v', hp', ha⟩
      exact ⟨hnone, trivial, v', (hleave hp).trans hp', ha⟩
    · rintro e c'' ⟨v', hp', hinternal | ⟨hflaw, -⟩⟩
      · exact ⟨v', (hleave hp).trans hp', .inl hinternal⟩
      · cases hflaw
  · rintro e c' ⟨v', hp, he⟩
    obtain ⟨b, rfl⟩ := hp.scopes.leaveFunction
    exact ⟨v, (hleave hp).within (.left _ _), he.imp_right fun hflaw => ⟨hflaw, hc.agrees⟩⟩

theorem guard_judges {condition : Expr} (h : Judges γ exit flaw n γ left (expr condition)) :
    Judges γ exit flaw (n + .instruction .jumpIfFalse) γ left (guard (some condition)) :=
  h.andQuiet fun _ => (emitJump_quiet _).map _

theorem rounds_judges {condition last : Option Expr} {body : Compile Unit} {g l : Size}
    (span : Span) (toStart : Bool) (hcondition : Judges γ exit flaw g γ left (guard condition))
    (hbody : Judges γ (some 0) flaw₁ n γ₁ left body)
    (hlast : Judges γ₁ exit flaw₂ l γ₁ left (update last)) :
    Judges γ exit (flaw.or (flaw₁.or flaw₂)) (g + (n + (l + .instruction .jump))) γ₁ left
      (rounds condition last toStart body span) := by
  have hend (start next : Nat) (hstart : start < 65536) (hnext : next < 65536) (exit : Option Nat)
      (jumps : LoopJumps) : Quiet True 0 (do
        patchExit span exit
        let stop ← here
        patchAll stop span jumps.breaks
        patchAll (if toStart then start else next) span jumps.continues) :=
    (patchExit_quiet exit).bind_zero fun _ => .here fun stop =>
      ((patchAll_quiet stop _).weaken And.right).bind_zero fun _ =>
        (patchAll_quiet _ _).weaken fun _ => by split <;> assumption
  refine Yields.here fun start hstart => hcondition.bind fun exit => hbody.loopWith.bind fun jumps =>
    Yields.here fun next hnext => hlast.andQuiet fun _ => ?_
  rw [← add_zero (Size.instruction .jump)]
  exact ((emitJumpTo_quiet .jump start).weaken fun _ => hstart).bind fun _ =>
    hend start next hstart hnext exit jumps

end Functions

end Compile

end StackScript
