import Mathlib.Data.Set.Insert
import StackScript.Proofs.Compile.Listing
import StackScript.Proofs.Compile.Settled

/-! # Assignment before use

A `let` makes a name visible to what follows in the source, and its code is behind that of the `let`.
So in a settled program, on every way through the code, a variable has been assigned where its name is
read. Every instruction of a listing becomes a checkpoint, which knows variables that have been assigned
whenever control is there; checkpoints are composed as control flow is.
-/

namespace StackScript

namespace Lexical

variable {env env' : Lexical} {taken slots : Nat} {bound name : String} {place p : Place}

/-- A `let` makes its name stand for its variable, and no other name for another one. -/
theorem reused?_declare (hd : env.declare taken bound = (place, env', slots))
    (hr : env'.reused? name = some p) : name = bound ∧ p = place ∨ env.reused? name = some p := by
  unfold declare at hd
  split at hd
  · cases hd
    exact .inr hr
  · cases hd
    by_cases hn : name = bound
    · refine .inl ⟨hn, ?_⟩
      obtain ⟨main, _ | ⟨b, bs⟩⟩ := env <;>
        simp_all [reused?, place?, outside?, modify, Body.find?_bind, slot, Option.filter]
    · refine .inr ?_
      obtain ⟨main, _ | ⟨b, bs⟩⟩ := env <;>
        simpa [reused?, place?, outside?, modify, Body.find?_bind, hn] using hr

theorem reused?_enterBlock (env : Lexical) (name : String) :
    env.enterBlock.reused? name = env.reused? name := by
  obtain ⟨main, _ | ⟨b, bs⟩⟩ := env <;>
    simp [reused?, place?, outside?, enterBlock, modify, Body.find?_enterBlock]

/-- A global that is visible in a function is the one that is visible around it. -/
theorem reused?_enterFunction {self : Option String} {params : List String} {k : Nat}
    (h : (env.enterFunction self params).reused? name = some ⟨.globalSlot, k⟩) :
    (env.enterFunction self params).binds name = false ∧ env.reused? name = some ⟨.globalSlot, k⟩ := by
  obtain ⟨hplace, -⟩ := Option.filter_eq_some_iff.mp h
  simp only [place?, enterFunction] at hplace
  split at hplace
  · cases hplace
  · cases hplace
  · next hnone =>
    split at hplace
    · simp at hplace
    · next hany =>
      have houtside : env.place? [] name = some ⟨.globalSlot, k⟩ := by
        obtain ⟨main, _ | ⟨b, bs⟩⟩ := env
        · exact hplace
        · simp only [List.any_cons, Bool.or_eq_true, not_or, Option.not_isSome_iff_eq_none] at hany
          simp only [place?, hany.1, hany.2, Bool.false_eq_true, if_false]
          exact hplace
      exact ⟨by simp [binds, enterFunction, hnone], by rw [reused?, houtside]; rfl⟩

theorem reused?_of_place? {captured : List String} (hp : env.place? captured name = some p)
    (ha : p.storage.assignable = true) : env.reused? name = some p := by
  rw [env.reused?_eq captured, hp]
  exact Option.filter_eq_some_iff.mpr ⟨rfl, ha⟩

theorem binds_enterFunction (env : Lexical) (name : String) (params : List String) :
    (env.enterFunction (some name) params).binds name = true := by
  simp only [binds, enterFunction, List.head?_cons, Option.any_some, Body.find?, Body.ofParams,
    List.findSome?_nil, Option.none_or, Option.map_some, Option.toList_some]
  rw [List.lookup_append]
  simp

/-- The variables of all visible names but `late` are among `A`. -/
def Assigned (env : Lexical) (late : List String) (A : Set Place) : Prop :=
  ∀ name p, name ∉ late → env.reused? name = some p → p ∈ A

/-- In the empty environment no name stands for a variable. -/
theorem assigned_empty (late : List String) (A : Set Place) : ({} : Lexical).Assigned late A := by
  intro name p _ hr
  obtain ⟨hplace, ha⟩ := Option.filter_eq_some_iff.mp hr
  obtain ⟨i, -, rfl⟩ := Option.map_eq_some_iff.mp
    (show (Builtin.indexOf? name).map (⟨.builtin, ·⟩) = some p from hplace)
  cases ha

theorem Assigned.enterBlock {late : List String} {A : Set Place} (h : env.Assigned late A) :
    env.enterBlock.Assigned late A :=
  fun name p hn hr => h name p hn (env.reused?_enterBlock name ▸ hr)

theorem Assigned.mem {late captured : List String} {A : Set Place} (h : env.Assigned late A)
    (hn : (!late.contains name) = true) (hp : env.place? captured name = some p)
    (ha : p.storage.assignable = true) : p ∈ A :=
  h name p (by simpa using hn) (reused?_of_place? hp ha)

theorem Assigned.declare {late : List String} {A : Set Place} (h : env.Assigned late A)
    (hd : env.declare taken bound = (place, env', slots)) : env'.Assigned late (insert place A) := by
  intro name p hn hr
  rcases reused?_declare hd hr with ⟨-, rfl⟩ | hr
  · exact Set.mem_insert _ _
  · exact Set.mem_insert_of_mem _ (h name p hn hr)

end Lexical

def Instruction.reads? (i : Instruction) : Option Place :=
  match i.op with
  | .get | .setElement => i.operands.head?.map Place.ofOperand
  | _ => none

def Instruction.writes? (i : Instruction) : Option Place :=
  match i.op with
  | .set | .setElement => i.operands.head?.map Place.ofOperand
  | _ => none

def Instruction.assigned (i : Instruction) (A : Set Place) : Set Place :=
  match i.writes? with
  | some p => insert p A
  | none => A

theorem Instruction.writes?_eq_some {i : Instruction} {p : Place} (h : i.writes? = some p) :
    (i.op = .set ∨ i.op = .setElement) ∧ i.operands.head?.map Place.ofOperand = some p := by
  unfold writes? at h
  split at h
  · next ho => exact ⟨.inl ho, h⟩
  · next ho => exact ⟨.inr ho, h⟩
  · cases h

theorem Instruction.subset_assigned (i : Instruction) (A : Set Place) : A ⊆ i.assigned A := by
  unfold assigned
  split
  · exact Set.subset_insert _ _
  · exact Set.Subset.rfl

/-- A function literal of a settled program, where the globals that its body sees are among `A`. -/
structure Literal.Supplied (l : Literal) (A : Set Place) : Prop where
  settled : stmtsSettled [] l.body = true
  globals : ∀ name k, (l.env.enterFunction l.self (l.params.map (·.name))).reused? name =
    some ⟨.globalSlot, k⟩ → (⟨.globalSlot, k⟩ : Place) ∈ A

/-- An instruction of a listing, with variables that have been assigned whenever control is there. -/
structure Checkpoint extends Item where
  known : Set Place

/-- What the instruction reads has been assigned, and so has what a closure may read that it makes. -/
structure Checkpoint.Ok (m : Checkpoint) : Prop where
  reads : ∀ p, m.reads? = some p → p.storage.assignable = true → p ∈ m.known
  closes : ∀ l, m.literal = some l → l.Supplied m.known

/-- Control can come to the offset when the variables `A` have been assigned. -/
def Admits (ks : List Checkpoint) (offset : Nat) (A : Set Place) : Prop :=
  ∃ m ∈ ks, m.offset = offset ∧ m.known ⊆ A

def AtAssigned (offset : Nat) (A : Set Place) (t : Nat) (S : Set Place) : Prop := t = offset ∧ A ⊆ S

/-- Checkpoints of a listing from `start`, where `A` has been assigned, to `stop`, where `B` has. Control
leaves it there or for the places in `out`. -/
structure Checkpoints (out : Nat → Set Place → Prop) (start : Nat) (A : Set Place) (ks : List Checkpoint)
    (stop : Nat) (B : Set Place) : Prop where
  entry : Admits ks start A ∨ ks = [] ∧ AtAssigned stop B start A
  next : ∀ m ∈ ks, ∀ t ∈ m.targets,
    Admits ks t (m.assigned m.known) ∨ AtAssigned stop B t (m.assigned m.known) ∨
      out t (m.assigned m.known)
  ok : ∀ m ∈ ks, m.Ok

/-- A listing whose instructions can be made checkpoints. -/
def Assigns (out : Nat → Set Place → Prop) (start : Nat) (A : Set Place) (is : List Item)
    (stop : Nat) (B : Set Place) : Prop :=
  ∃ ks : List Checkpoint, ks.map (·.toItem) = is ∧ Checkpoints out start A ks stop B

section Assigns

variable {out out₁ : Nat → Set Place → Prop} {a b d : Nat} {A B D : Set Place}
  {is is₁ is₂ : List Item} {i : Item}

theorem Admits.mono {ks₁ ks : List Checkpoint} (h : Admits ks₁ a A) (hs : ks₁ ⊆ ks) (hA : A ⊆ B) :
    Admits ks a B := by
  obtain ⟨m, hm, ho, hk⟩ := h
  exact ⟨m, hs hm, ho, hk.trans hA⟩

theorem AtAssigned.mono {t : Nat} (h : AtAssigned a A t B) (hD : D ⊆ A) : AtAssigned a D t B :=
  ⟨h.1, hD.trans h.2⟩

theorem Assigns.nil : Assigns out a A [] a A :=
  ⟨[], rfl, .inr ⟨rfl, rfl, Set.Subset.rfl⟩, by simp, by simp⟩

theorem Assigns.mono (h : Assigns out₁ a A is b B) (hB : D ⊆ B)
    (ho : ∀ t S, out₁ t S → AtAssigned b D t S ∨ out t S) : Assigns out a A is b D := by
  obtain ⟨ks, rfl, h⟩ := h
  refine ⟨ks, rfl, h.entry.imp_right fun ⟨hnil, hat⟩ => ⟨hnil, hat.mono hB⟩, ?_, h.ok⟩
  intro m hm t ht
  rcases h.next m hm t ht with hin | hat | hout
  · exact .inl hin
  · exact .inr (.inl (hat.mono hB))
  · exact .inr (ho t _ hout)

theorem Assigns.weaken (h : Assigns out a A is b B) (hB : D ⊆ B) : Assigns out a A is b D :=
  h.mono hB fun _ _ ht => .inr ht

theorem Assigns.append (h₁ : Assigns out a A is₁ b B) (h₂ : Assigns out b B is₂ d D) :
    Assigns out a A (is₁ ++ is₂) d D := by
  obtain ⟨ks₁, rfl, h₁⟩ := h₁
  obtain ⟨ks₂, rfl, h₂⟩ := h₂
  have hleft : ks₁ ⊆ ks₁ ++ ks₂ := List.subset_append_left _ _
  have hright : ks₂ ⊆ ks₁ ++ ks₂ := List.subset_append_right _ _
  have hbetween {t : Nat} {S : Set Place} (hat : AtAssigned b B t S) :
      Admits (ks₁ ++ ks₂) t S ∨ ks₂ = [] ∧ AtAssigned d D t S := by
    obtain ⟨rfl, hB⟩ := hat
    rcases h₂.entry with he | ⟨hnil, rfl, hD⟩
    · exact .inl (he.mono hright hB)
    · exact .inr ⟨hnil, rfl, hD.trans hB⟩
  refine ⟨ks₁ ++ ks₂, List.map_append, ?_, ?_, ?_⟩
  · rcases h₁.entry with he | ⟨rfl, hat⟩
    · exact .inl (he.mono hleft Set.Subset.rfl)
    · exact (hbetween hat).imp_right fun ⟨hnil, hat⟩ => ⟨by simp [hnil], hat⟩
  · intro m hm t ht
    rcases List.mem_append.mp hm with hm | hm
    · rcases h₁.next m hm t ht with hin | hat | hout
      · exact .inl (hin.mono hleft Set.Subset.rfl)
      · exact (hbetween hat).imp_right fun hat => .inl hat.2
      · exact .inr (.inr hout)
    · exact (h₂.next m hm t ht).imp_left fun hin => hin.mono hright Set.Subset.rfl
  · intro m hm
    exact (List.mem_append.mp hm).elim (h₁.ok m) (h₂.ok m)

theorem Assigns.loop (h : Assigns out₁ a A is b B) (hn : is ≠ [])
    (ho : ∀ t S, out₁ t S → AtAssigned a A t S ∨ AtAssigned b B t S ∨ out t S) :
    Assigns out a A is b B := by
  obtain ⟨ks, rfl, h⟩ := h
  have he : Admits ks a A := h.entry.resolve_right fun he => hn (by simp [he.1])
  refine ⟨ks, rfl, .inl he, fun m hm t ht => ?_, h.ok⟩
  rcases h.next m hm t ht with hin | hat | hout
  · exact .inl hin
  · exact .inr (.inl hat)
  · rcases ho t _ hout with ⟨rfl, hA⟩ | hout
    · exact .inl (he.mono (List.Subset.refl _) hA)
    · exact .inr hout

theorem Assigns.single (ho : i.offset = a)
    (hn : ∀ t ∈ i.targets, AtAssigned b B t (i.assigned A) ∨ out t (i.assigned A))
    (hr : ∀ p, i.reads? = some p → p.storage.assignable = true → p ∈ A)
    (hc : ∀ l, i.literal = some l → l.Supplied A) : Assigns out a A [i] b B := by
  refine ⟨[⟨i, A⟩], rfl, .inl ⟨_, List.mem_singleton_self _, ho, Set.Subset.rfl⟩, ?_, ?_⟩
  · intro m hm t ht
    obtain rfl := List.mem_singleton.mp hm
    exact .inr (hn t ht)
  · intro m hm
    obtain rfl := List.mem_singleton.mp hm
    exact ⟨hr, hc⟩

end Assigns

section Instructions

variable {out : Nat → Set Place → Prop} {c : Setting} {s : Cursor} {i : Instruction} {span : Span}
  {A B : Set Place} {place : Place}

theorem Assigns.straight {j : Item} (hs : j.op.straight = true)
    (hr : ∀ p, j.reads? = some p → p.storage.assignable = true → p ∈ A)
    (hc : ∀ l, j.literal = some l → l.Supplied A) (hB : B ⊆ j.assigned A) :
    Assigns out j.offset A [j] (j.offset + j.op.length) B := by
  refine .single rfl (fun t ht => .inl ?_) hr hc
  rw [Item.targets_of_straight hs] at ht
  exact ⟨List.mem_singleton.mp ht, hB⟩

theorem Assigns.quiet (hs : i.op.straight = true) (hr : i.reads? = none) :
    Assigns out s.offset A [c.item s i span] (s.skip i.op).offset A :=
  .straight (j := c.item s i span) hs (fun p hp => by cases hr.symm.trans hp) (fun _ hl => by cases hl)
    (i.subset_assigned A)

theorem Assigns.set (ha : place.storage.assignable = true) (hi : place.index < Storage.slotLimit) :
    Assigns out s.offset A [c.item s ⟨.set, [place.operand]⟩ span] (s.skip .set).offset
      (insert place A) := by
  refine .straight (j := c.item s ⟨.set, [place.operand]⟩ span) rfl (fun p hp => by cases hp)
    (fun _ hl => by cases hl) ?_
  change insert place A ⊆ insert (Place.ofOperand place.operand) A
  rw [Place.ofOperand_operand (Place.storage_ne_self ha) hi]

theorem Place.reads?_load {p : Place} (hi : place.index < Storage.slotLimit)
    (h : place.load.reads? = some p) : p = place := by
  unfold Place.load at h
  split at h
  · cases h
  · next hself =>
    exact (Option.some.inj h).symm.trans (Place.ofOperand_operand hself hi)

theorem Place.straight_load (p : Place) : p.load.op.straight = true := by
  unfold Place.load
  split <;> rfl

theorem Assigns.load (loaded : List Place) (hi : place.index < Storage.slotLimit)
    (h : place.storage.assignable = true → place ∈ A) :
    Assigns out s.offset A [{ c.item s place.load span with loaded := loaded }]
      (s.skip place.load.op).offset A := by
  refine .straight (j := { c.item s place.load span with loaded := loaded }) place.straight_load ?_
    (fun _ hl => by cases hl) (Instruction.subset_assigned _ A)
  intro p hp ha
  obtain rfl := Place.reads?_load hi hp
  exact h ha

theorem Assigns.jump {target : Nat} (h : out target A) :
    Assigns out s.offset A [c.item s ⟨.jump, [target]⟩ span] (s.skip .jump).offset B := by
  refine .single rfl (fun t ht => .inr ?_) (fun _ hp => by cases hp) fun _ hl => by cases hl
  exact List.mem_singleton.mp ht ▸ h

theorem Assigns.jumpIfFalse {target : Nat} (h : out target A) :
    Assigns out s.offset A [c.item s ⟨.jumpIfFalse, [target]⟩ span] (s.skip .jumpIfFalse).offset A := by
  refine .single rfl (fun t ht => ?_) (fun _ hp => by cases hp) fun _ hl => by cases hl
  rcases List.mem_cons.mp ht with rfl | ht
  · exact .inl ⟨rfl, Set.Subset.rfl⟩
  · exact .inr (List.mem_singleton.mp ht ▸ h)

theorem Assigns.returns (ho : i.op = .ret ∨ i.op = .retValue) :
    Assigns out s.offset A [c.item s i span] (s.skip i.op).offset B := by
  have htargets : (c.item s i span).targets = [] := by
    rcases ho with ho | ho <;> simp [Item.targets, Setting.item, ho]
  have hreads : i.reads? = none := by
    rcases ho with ho | ho <;> simp [Instruction.reads?, ho]
  refine .single rfl (fun t ht => ?_) (fun p hp => ?_) fun _ hl => by cases hl
  · simp [htargets] at ht
  · change i.reads? = _ at hp
    simp [hreads] at hp

theorem Assigns.drops (n : Nat) : Assigns out s.offset A (c.drops s span n) (s.offset + n) A := by
  induction n generalizing c s with
  | zero => exact .nil
  | succ n ih =>
    have hpop : Assigns out s.offset A [c.item s ⟨.pop, []⟩ span] (s.skip .pop).offset A :=
      .quiet rfl rfl
    have hrest := ih (c := { c with height := c.height - 1 }) (s := s.skip .pop)
    have hoffset : (s.skip .pop).offset + n = s.offset + (n + 1) := by
      change s.offset + 1 + n = _
      omega
    rw [hoffset] at hrest
    exact hpop.append hrest

theorem Assigns.loads (loaded : List Place) {places : List Place}
    (hi : ∀ p ∈ places, p.index < Storage.slotLimit)
    (h : ∀ p ∈ places, p.storage.assignable = true → p ∈ A) :
    Assigns out s.offset A (c.loads s span loaded places) (s.skipLoads places).offset A := by
  induction places generalizing c s loaded with
  | nil => exact .nil
  | cons p places ih =>
    have hfirst : Assigns out s.offset A [{ c.item s p.load span with loaded := loaded }]
        (s.skip p.load.op).offset A := .load loaded (hi p (by simp)) (h p (by simp))
    exact hfirst.append (ih (loaded ++ [p]) (fun q hq => hi q (by simp [hq])) fun q hq => h q (by simp [hq]))

end Instructions

/-- What has been assigned where the `break`s and where the `continue`s of a loop lead. -/
structure Needs where
  breaks : Set Place
  continues : Set Place

def Setting.LeavesFor (c : Setting) (n : Needs) (t : Nat) (S : Set Place) : Prop :=
  ∃ x, c.loop = some x ∧
    (AtAssigned x.breakTo n.breaks t S ∨ AtAssigned x.continueTo n.continues t S)

/-- A node can begin: the variables of all visible names but `late` have been assigned, and so has what
is needed where the node can leave the loop around. -/
structure Needs.Met (n : Needs) (late : List String) (env : Lexical) (A : Set Place)
    (continues : Bool) : Prop where
  visible : env.Assigned late A
  breaks : n.breaks ⊆ A
  continues : continues = true → n.continues ⊆ A

section Needs

variable {n : Needs} {late late' : List String} {env env' : Lexical} {A B : Set Place} {x y : Bool}

theorem Needs.Met.left (h : n.Met late env A (x || y)) : n.Met late env A x :=
  ⟨h.visible, h.breaks, fun hx => h.continues (by simp [hx])⟩

theorem Needs.Met.right (h : n.Met late env A (x || y)) : n.Met late env A y :=
  ⟨h.visible, h.breaks, fun hy => h.continues (by simp [hy])⟩

theorem Needs.Met.grow (h : n.Met late env A x) (hA : A ⊆ B) (hv : env'.Assigned late' B) :
    n.Met late' env' B x :=
  ⟨hv, h.breaks.trans hA, fun hx => (h.continues hx).trans hA⟩

theorem Needs.Met.enterBlock (h : n.Met late env A x) : n.Met late env.enterBlock A x :=
  h.grow Set.Subset.rfl h.visible.enterBlock

end Needs

section Nodes

variable {pool : Array Value} {n : Needs} {c : Setting} {s s₁ s₂ s₃ : Cursor}
  {is is₁ is₂ is₃ : List Item} {A B : Set Place} {span : Span}

/-- The listing of a node: what has been assigned behind it, or where control leaves the loop around. -/
abbrev Setting.Assigns (c : Setting) (n : Needs) (s : Cursor) (A : Set Place) (is : List Item)
    (s₁ : Cursor) (B : Set Place) : Prop :=
  StackScript.Assigns (c.LeavesFor n) s.offset A is s₁.offset B

/-- A condition and two branches behind it; a jump skips the second one. -/
theorem Assigns.branches (h₁ : c.Assigns n s A is₁ s₁ A)
    (h₂ : c.Assigns n (s₁.skip .jumpIfFalse) A is₂ s₂ A)
    (h₃ : c.Assigns n (s₂.skip .jump) A is₃ s₃ A) :
    c.Assigns n s A (is₁ ++ [(c.above 1).item s₁ ⟨.jumpIfFalse, [(s₂.skip .jump).offset]⟩ span] ++
      is₂ ++ [(c.above 1).item s₂ ⟨.jump, [s₃.offset]⟩ span] ++ is₃) s₃ A := by
  -- Until its target is reached, each of the two jumps is a way out.
  let out (t : Nat) (S : Set Place) : Prop :=
    AtAssigned (s₂.skip .jump).offset A t S ∨ AtAssigned s₃.offset A t S ∨ c.LeavesFor n t S
  have hleaves {a b : Nat} {is : List Item} (h : StackScript.Assigns (c.LeavesFor n) a A is b A) :
      StackScript.Assigns out a A is b A := h.mono Set.Subset.rfl fun _ _ ht => .inr (.inr (.inr ht))
  have htest : StackScript.Assigns out s₁.offset A
      [(c.above 1).item s₁ ⟨.jumpIfFalse, [(s₂.skip .jump).offset]⟩ span]
      (s₁.skip .jumpIfFalse).offset A := .jumpIfFalse (.inl ⟨rfl, Set.Subset.rfl⟩)
  have hskip : StackScript.Assigns out s₂.offset A
      [(c.above 1).item s₂ ⟨.jump, [s₃.offset]⟩ span] (s₂.skip .jump).offset A :=
    .jump (.inr (.inl ⟨rfl, Set.Subset.rfl⟩))
  have hfirst : StackScript.Assigns (fun t S => AtAssigned s₃.offset A t S ∨ c.LeavesFor n t S)
      s.offset A _ (s₂.skip .jump).offset A :=
    ((((hleaves h₁).append htest).append (hleaves h₂)).append hskip).mono Set.Subset.rfl
      fun _ _ ht => ht
  refine (hfirst.append (h₃.mono Set.Subset.rfl fun _ _ ht => .inr (.inr ht))).mono Set.Subset.rfl ?_
  exact fun _ _ ht => ht

theorem Assigns.guard {stop : Nat} (span : Span) (h : c.Assigns n s A is s₁ A) :
    StackScript.Assigns (fun t S => AtAssigned stop A t S ∨ c.LeavesFor n t S) s.offset A
      (is ++ [(c.above 1).item s₁ ⟨.jumpIfFalse, [stop]⟩ span]) (s₁.skip .jumpIfFalse).offset A :=
  (h.mono Set.Subset.rfl fun _ _ ht => .inr (.inr ht)).append (.jumpIfFalse (.inl ⟨rfl, Set.Subset.rfl⟩))

/-- The rounds of a loop: a guard that may leave it, the body, and the way back. `continue` leads
behind the body or to the guard, and `B` has been assigned then. -/
theorem Assigns.rounds {b : Setting} (span : Span) {k height : Nat} (hA : A ⊆ B)
    (h₁ : StackScript.Assigns (fun t S => AtAssigned (s₃.skip .jump).offset A t S ∨ c.LeavesFor n t S)
      s.offset A is₁ s₁.offset A)
    (hb : b.loop = some ⟨(s₃.skip .jump).offset, k, height⟩) (hk : k = s.offset ∨ k = s₂.offset)
    (h₂ : StackScript.Assigns (b.LeavesFor ⟨A, B⟩) s₁.offset A is₂ s₂.offset B)
    (h₃ : c.Assigns n s₂ B is₃ s₃ B) :
    c.Assigns n s A (is₁ ++ is₂ ++ is₃ ++ [c.item s₃ ⟨.jump, [s.offset]⟩ span]) (s₃.skip .jump) A := by
  let out (t : Nat) (S : Set Place) : Prop :=
    AtAssigned s.offset A t S ∨ AtAssigned (s₃.skip .jump).offset A t S ∨ c.LeavesFor n t S
  have hguard : StackScript.Assigns out s.offset A is₁ s₁.offset A :=
    h₁.mono Set.Subset.rfl fun _ _ ht => .inr (.inr ht)
  have hbody : StackScript.Assigns out s₁.offset A is₂ s₂.offset B := by
    refine h₂.mono Set.Subset.rfl ?_
    rintro t S ⟨x, hx, ht⟩
    obtain rfl := Option.some.inj (hb.symm.trans hx)
    rcases ht with ht | ⟨rfl, hB⟩
    · exact .inr (.inr (.inl ht))
    · rcases hk with rfl | rfl
      · exact .inr (.inl ⟨rfl, hA.trans hB⟩)
      · exact .inl ⟨rfl, hB⟩
  have hupdate : StackScript.Assigns out s₂.offset B is₃ s₃.offset B :=
    h₃.mono Set.Subset.rfl fun _ _ ht => .inr (.inr (.inr ht))
  have hback : StackScript.Assigns out s₃.offset B [c.item s₃ ⟨.jump, [s.offset]⟩ span]
      (s₃.skip .jump).offset A := .jump (.inl ⟨rfl, hA⟩)
  exact (((hguard.append hbody).append hupdate).append hback).loop (by simp) fun _ _ ht => ht

/-- The way out of a loop drops the operands pushed since the loop began. -/
theorem Assigns.exit {x : LoopExit} {target k : Nat} (hl : c.loop = some x)
    (ht : AtAssigned x.breakTo n.breaks target A ∨ AtAssigned x.continueTo n.continues target A)
    (hs : s₂ = { s with offset := s.offset + k }) :
    c.Assigns n s A (c.drops s span k ++ [{ c with height := x.height }.item s₂ ⟨.jump, [target]⟩ span])
      (s₂.skip .jump) A := by
  subst hs
  exact (Assigns.drops k).append (.jump (c := { c with height := x.height })
    (s := { s with offset := s.offset + k }) ⟨x, hl, ht⟩)

/-- What a closure captures has been assigned, and so have the globals that its body sees. -/
theorem ClosureCode.assigns {self : Option String} {params : List Ident} {body : List Stmt}
    {bodySpan : Span} (h : ClosureCode pool c s self params body bodySpan span is s₁)
    (hs : stmtsSettled [] body = true)
    (hv : ∀ name p, (c.env.enterFunction self (params.map (·.name))).binds name = false →
      c.env.reused? name = some p → p ∈ A) : c.Assigns n s A is s₁ A := by
  cases h with
  | @mk _ _ s₂ _ _ _ _ _ names places _ _ hbody hpool hplaces hnames hlt =>
    have hloads : c.Assigns n s A (c.loads s span [] places) (s.skipLoads places) A := by
      refine .loads [] hlt fun p hp ha => ?_
      have hmem : some p ∈ names.map (c.env.place? c.captured) := hplaces ▸ List.mem_map_of_mem hp
      obtain ⟨name, hname, hplace⟩ := List.mem_map.mp hmem
      exact hv name p (hnames name hname).2 (Lexical.reused?_of_place? hplace ha)
    refine hloads.append (.straight (j := { (c.above places.length).item (s.skipLoads places)
      ⟨.closure, [s₂.constants, names.length]⟩ span with
        loaded := places, literal := some ⟨c.env, self, params, body, names⟩ }) rfl
      (fun _ hp => by cases hp) ?_ Set.Subset.rfl)
    rintro l ⟨⟩
    refine ⟨hs, fun name k hr => ?_⟩
    obtain ⟨hbinds, hr⟩ := Lexical.reused?_enterFunction hr
    exact hv name _ hbinds hr

theorem StmtCode.reused?_eq_some {st : Stmt} {env : Lexical} {name : String} {p : Place}
    (h : StmtCode pool c s st is s₁ env) (hn : st.bound? ≠ some name)
    (hr : env.reused? name = some p) : c.env.reused? name = some p := by
  cases h with
  | bindFunction hd | bind _ _ hd =>
    exact (Lexical.reused?_declare hd hr).resolve_left fun hbound => hn (congrArg some hbound.1.symm)
  | _ => exact hr

theorem StmtsCode.reused?_eq_some {ss : List Stmt} {env : Lexical} {name : String} {p : Place}
    (h : StmtsCode pool c s ss is s₁ env) (hn : name ∉ ss.filterMap Stmt.bound?)
    (hr : env.reused? name = some p) : c.env.reused? name = some p := by
  induction ss generalizing c s is with
  | nil =>
    cases h
    exact hr
  | cons st ss ih =>
    cases h with
    | cons hst hss =>
      have hne : st.bound? ≠ some name := fun hbound => hn (by simp [hbound])
      refine hst.reused?_eq_some hne (ih hss fun hmem => hn ?_)
      rw [List.filterMap_cons]
      split
      · exact hmem
      · exact List.mem_cons_of_mem _ hmem

/-- The names that statements do not bind stand for what they did before. -/
theorem StmtsCode.assigned_of_unbound {ss : List Stmt} {env : Lexical} {late : List String}
    (h : StmtsCode pool c s ss is s₁ env) (hv : c.env.Assigned late A) :
    env.Assigned (late ++ ss.filterMap Stmt.bound?) A := by
  intro name p hname hr
  rw [List.mem_append, not_or] at hname
  exact hv name p hname.1 (h.reused?_eq_some hname.2 hr)

mutual

theorem ExprCode.assigns {n : Needs} {late : List String} {c : Setting} {s s₁ : Cursor} {e : Expr}
    {is : List Item} {A : Set Place} :
    ExprCode pool c s e is s₁ → e.settled late = true → n.Met late c.env A e.continues →
      c.Assigns n s A is s₁ A
  | .constant _ _, _, _ => .quiet rfl rfl
  | .bool (b := b), _, _ => by cases b <;> exact .quiet rfl rfl
  | .null, _, _ => .quiet rfl rfl
  | .ident hp hi, hs, hn => .load [] hi (hn.visible.mem hs hp)
  | .unary h, hs, hn => (h.assigns hs hn).append (.quiet rfl rfl)
  | .binary _ h₁ h₂, hs, hn => by
    obtain ⟨hs₁, hs₂⟩ := Bool.and_eq_true_iff.mp hs
    exact ((h₁.assigns hs₁ hn.left).append (h₂.assigns hs₂ hn.right)).append (.quiet rfl rfl)
  | .cond h₁ h₂ h₃, hs, hn => by
    obtain ⟨hs, hs₃⟩ := Bool.and_eq_true_iff.mp hs
    obtain ⟨hs₁, hs₂⟩ := Bool.and_eq_true_iff.mp hs
    exact .branches (h₁.assigns hs₁ hn.left.left) (h₂.assigns hs₂ hn.left.right) (h₃.assigns hs₃ hn.right)
  | .function h, hs, hn => by
    obtain ⟨hlate, hs⟩ := Bool.and_eq_true_iff.mp hs
    obtain rfl := List.isEmpty_iff.mp hlate
    exact h.assigns hs fun name p _ => hn.visible name p (List.not_mem_nil)
  | .call h₁ h₂, hs, hn => by
    obtain ⟨hs₁, hs₂⟩ := Bool.and_eq_true_iff.mp hs
    exact ((h₁.assigns hs₁ hn.left).append (h₂.assigns hs₂ hn.right)).append (.quiet rfl rfl)
  | .array h, hs, hn => (h.assigns hs hn).append (.quiet rfl rfl)
  | .hash h, hs, hn => (h.assigns hs hn).append (.quiet rfl rfl)
  | .index h₁ h₂, hs, hn => by
    obtain ⟨hs₁, hs₂⟩ := Bool.and_eq_true_iff.mp hs
    exact ((h₁.assigns hs₁ hn.left).append (h₂.assigns hs₂ hn.right)).append (.quiet rfl rfl)
  | .assign _ hi ha h, hs, hn =>
    (((h.assigns hs hn.right).append (.set ha hi)).append (.load [] hi fun _ => Set.mem_insert _ _)).weaken
      (Set.subset_insert _ _)
  | @ExprCode.assignElement _ _ _ _ s₂ _ _ _ span _ _ place _ _ hp hi ha h₁ h₂, hs, hn => by
    obtain ⟨hs, hs₂⟩ := Bool.and_eq_true_iff.mp hs
    obtain ⟨hname, hs₁⟩ := Bool.and_eq_true_iff.mp hs
    refine ((h₁.assigns hs₁ hn.left.right).append (h₂.assigns hs₂ hn.right)).append
      (.straight (j := (c.above 2).item s₂ ⟨.setElement, [place.operand]⟩ span) rfl ?_
        (fun _ hl => by cases hl) (Instruction.subset_assigned _ A))
    rintro p ⟨⟩ -
    rw [Place.ofOperand_operand (Place.storage_ne_self ha) hi]
    exact hn.visible.mem hname hp ha

theorem ExprsCode.assigns {n : Needs} {late : List String} {c : Setting} {s s₁ : Cursor} {es : List Expr}
    {is : List Item} {A : Set Place} :
    ExprsCode pool c s es is s₁ → exprsSettled late es = true →
      n.Met late c.env A (exprsContinue es) → c.Assigns n s A is s₁ A
  | .nil, _, _ => .nil
  | .cons h₁ h₂, hs, hn => by
    obtain ⟨hs₁, hs₂⟩ := Bool.and_eq_true_iff.mp hs
    exact (h₁.assigns hs₁ hn.left).append (h₂.assigns hs₂ hn.right)

theorem PairsCode.assigns {n : Needs} {late : List String} {c : Setting} {s s₁ : Cursor}
    {ps : List (Expr × Expr)} {is : List Item} {A : Set Place} :
    PairsCode pool c s ps is s₁ → pairsSettled late ps = true →
      n.Met late c.env A (pairsContinue ps) → c.Assigns n s A is s₁ A
  | .nil, _, _ => .nil
  | .cons h₁ h₂ h₃, hs, hn => by
    obtain ⟨hs, hs₃⟩ := Bool.and_eq_true_iff.mp hs
    obtain ⟨hs₁, hs₂⟩ := Bool.and_eq_true_iff.mp hs
    exact ((h₁.assigns hs₁ hn.left.left).append (h₂.assigns hs₂ hn.left.right)).append
      (h₃.assigns hs₃ hn.right)

theorem BranchCode.assigns {n : Needs} {late : List String} {c : Setting} {s s₁ : Cursor} {b : Block}
    {is : List Item} {A : Set Place} :
    BranchCode pool c s b is s₁ → b.settled late = true → n.Met late c.env A b.continues →
      c.Assigns n s A is s₁ A
  | .value h, hs, hn => h.assigns hs hn.enterBlock
  | .null _ h, hs, hn => by
    obtain ⟨B, hB, -, hassigns⟩ := h.assigns hs hn.enterBlock
    exact (hassigns.weaken hB).append (.quiet rfl rfl)

theorem ElseCode.assigns {n : Needs} {late : List String} {c : Setting} {s s₁ : Cursor} {b : Option Block}
    {span : Span} {is : List Item} {A : Set Place} :
    ElseCode pool c s b span is s₁ → elseSettled late b = true →
      n.Met late c.env A (elseContinues b) → c.Assigns n s A is s₁ A
  | .block h, hs, hn => h.assigns hs hn
  | .null, _, _ => .quiet rfl rfl

theorem ValueCode.assigns {n : Needs} {late : List String} {c : Setting} {s s₁ : Cursor} {ss : List Stmt}
    {is : List Item} {A : Set Place} :
    ValueCode pool c s ss is s₁ → stmtsSettled late ss = true →
      n.Met late c.env A (stmtsContinue ss) → c.Assigns n s A is s₁ A
  | .last h, hs, hn => h.assigns (Bool.and_eq_true_iff.mp hs).1 hn.left
  | .cons h₁ h₂, hs, hn => by
    obtain ⟨hs₁, hs₂⟩ := Bool.and_eq_true_iff.mp hs
    obtain ⟨B, hB, hvisible, hassigns⟩ := h₁.assigns hs₁ hn.left
    exact (hassigns.append (h₂.assigns hs₂ (hn.right.grow hB hvisible))).weaken hB

/-- A statement assigns more variables, those of the names that it makes visible among them. -/
theorem StmtCode.assigns {n : Needs} {late : List String} {c : Setting} {s s₁ : Cursor} {st : Stmt}
    {is : List Item} {env : Lexical} {A : Set Place} :
    StmtCode pool c s st is s₁ env → st.settled late = true → n.Met late c.env A st.continues →
      ∃ B, A ⊆ B ∧ env.Assigned late B ∧ c.Assigns n s A is s₁ B
  | @StmtCode.bindFunction _ _ _ _ name own _ _ _ _ _ place env _ _ hd hi h, hs, hn => by
    obtain ⟨hown, hs⟩ := Bool.and_eq_true_iff.mp hs
    obtain ⟨hlate, hs⟩ := Bool.and_eq_true_iff.mp hs
    obtain rfl := List.isEmpty_iff.mp hlate
    have hself : own.or (some name.name) = some name.name := by
      cases own with
      | none => rfl
      | some other => exact congrArg some (beq_iff_eq.mp hown)
    refine ⟨_, Set.subset_insert _ _, hn.visible.declare hd,
      (h.assigns hs fun other p hfree hr => ?_).append (.set (Lexical.assignable_declare hd) hi)⟩
    -- The variable has not been assigned yet, but in the body its name is that of the function.
    rcases Lexical.reused?_declare hd hr with ⟨rfl, -⟩ | hr
    · rw [hself, Lexical.binds_enterFunction] at hfree
      cases hfree
    · exact hn.visible other p List.not_mem_nil hr
  | .bind hf h hd hi, hs, hn => by
    obtain ⟨-, hs⟩ := Bool.and_eq_true_iff.mp hs
    exact ⟨_, Set.subset_insert _ _, hn.visible.declare hd,
      (h.assigns hs hn).append (.set (Lexical.assignable_declare hd) hi)⟩
  | .ret, _, hn => ⟨A, Set.Subset.rfl, hn.visible, .returns (.inl rfl)⟩
  | .retValue h, hs, hn =>
    ⟨A, Set.Subset.rfl, hn.visible, (h.assigns hs hn).append (.returns (.inr rfl))⟩
  | .expr h, hs, hn => ⟨A, Set.Subset.rfl, hn.visible, (h.assigns hs hn).append (.quiet rfl rfl)⟩
  | @StmtCode.whileLoop _ _ _ _ _ condition body _ span _ _ _ h₁ h₂, hs, hn => by
    obtain ⟨hs₁, hs₂⟩ := Bool.and_eq_true_iff.mp hs
    have hbody : Needs.Met ⟨A, A⟩ late c.env.enterBlock A (stmtsContinue body) :=
      ⟨hn.visible.enterBlock, Set.Subset.rfl, fun _ => Set.Subset.rfl⟩
    obtain ⟨B, hB, -, hassigns⟩ := h₂.assigns hs₂ hbody
    have hrounds := Assigns.rounds span Set.Subset.rfl (.guard condition.span (h₁.assigns hs₁ hn)) rfl
      (.inl rfl) (hassigns.weaken hB) .nil
    rw [List.append_nil] at hrounds
    exact ⟨A, Set.Subset.rfl, hn.visible, hrounds⟩
  | @StmtCode.forLoop _ _ _ _ _ _ _ _ _ _ _ _ span _ _ _ _ _ _ h₀ h₁ h₂ h₃, hs, hn => by
    obtain ⟨hs, hs₃⟩ := Bool.and_eq_true_iff.mp hs
    obtain ⟨hs, hs₂⟩ := Bool.and_eq_true_iff.mp hs
    obtain ⟨hs₀, hs₁⟩ := Bool.and_eq_true_iff.mp hs
    obtain ⟨B, hB, hvisible, hinit⟩ := h₀.assigns hs₀ hn.left.left.enterBlock
    obtain ⟨D, hD, hlate, hbody⟩ := h₂.settles hs₂ hvisible Set.Subset.rfl
    have hrounds := Assigns.rounds span hD (h₁.assigns hs₁ (hn.left.right.grow hB hvisible)) rfl
      (.inr rfl) hbody (h₃.assigns hs₃ (hn.right.grow (hB.trans hD) hlate))
    have hall := hinit.append hrounds
    simp only [← List.append_assoc] at hall
    exact ⟨B, hB, fun name p hname hr => hB (hn.visible name p hname hr), hall⟩
  | .breakLoop hl _ hs, _, hn =>
    ⟨A, Set.Subset.rfl, hn.visible, .exit hl (.inl ⟨rfl, hn.breaks⟩) hs⟩
  | .continueLoop hl _ hs, _, hn =>
    ⟨A, Set.Subset.rfl, hn.visible, .exit hl (.inr ⟨rfl, hn.continues rfl⟩) hs⟩

theorem StmtsCode.assigns {n : Needs} {late : List String} {c : Setting} {s s₁ : Cursor} {ss : List Stmt}
    {is : List Item} {env : Lexical} {A : Set Place} :
    StmtsCode pool c s ss is s₁ env → stmtsSettled late ss = true →
      n.Met late c.env A (stmtsContinue ss) →
      ∃ B, A ⊆ B ∧ env.Assigned late B ∧ c.Assigns n s A is s₁ B
  | .nil, _, hn => ⟨A, Set.Subset.rfl, hn.visible, .nil⟩
  | .cons h₁ h₂, hs, hn => by
    obtain ⟨hs₁, hs₂⟩ := Bool.and_eq_true_iff.mp hs
    obtain ⟨B, hB, hvisible, hassigns⟩ := h₁.assigns hs₁ hn.left
    obtain ⟨D, hD, hvisible, hrest⟩ := h₂.assigns hs₂ (hn.right.grow hB hvisible)
    exact ⟨D, hB.trans hD, hvisible, hassigns.append hrest⟩

/-- The body of a `for`: what the names have that the last clause can read is assigned wherever control
comes to that clause. -/
theorem StmtsCode.settles {late : List String} {c : Setting} {s s₁ : Cursor} {ss : List Stmt}
    {is : List Item} {env : Lexical} {A K : Set Place} :
    StmtsCode pool c s ss is s₁ env → stmtsSettled late ss = true → c.env.Assigned late A → K ⊆ A →
      ∃ B, A ⊆ B ∧ env.Assigned (late ++ lateNames ss) B ∧ c.Assigns ⟨K, B⟩ s A is s₁ B
  | .nil, _, hv, _ => ⟨A, Set.Subset.rfl, by rwa [lateNames, List.dropWhile_nil, List.filterMap_nil,
      List.append_nil], .nil⟩
  | @StmtsCode.cons _ _ _ _ _ st ss _ _ _ _ h₁ h₂, hs, hv, hK => by
    obtain ⟨hs₁, hs₂⟩ := Bool.and_eq_true_iff.mp hs
    cases hst : st.continues with
    | true =>
      have hlate : lateNames (st :: ss) = (st :: ss).filterMap Stmt.bound? := by
        rw [lateNames, List.dropWhile_cons_of_neg (by simp [hst])]
      rw [hlate]
      obtain ⟨B, hB, hvisible, hassigns⟩ := h₁.assigns (n := ⟨K, A⟩) hs₁
        ⟨hv, hK, fun _ => Set.Subset.rfl⟩
      obtain ⟨D, hD, -, hrest⟩ := h₂.assigns (n := ⟨K, A⟩) hs₂ ⟨hvisible, hK.trans hB, fun _ => hB⟩
      exact ⟨A, Set.Subset.rfl, (StmtsCode.cons h₁ h₂).assigned_of_unbound hv,
        (hassigns.append hrest).weaken (hB.trans hD)⟩
    | false =>
      have hlate : lateNames (st :: ss) = lateNames ss := by
        rw [lateNames, lateNames, List.dropWhile_cons_of_pos (by simp [hst])]
      rw [hlate]
      -- No `continue` leads out of the statement, whatever is needed there.
      obtain ⟨B, hB, hvisible, hassigns⟩ := h₁.assigns (n := ⟨K, Set.univ⟩) hs₁
        ⟨hv, hK, fun h => by simp [hst] at h⟩
      obtain ⟨D, hD, hnames, hrest⟩ := h₂.settles hs₂ hvisible (hK.trans hB)
      refine ⟨D, hB.trans hD, hnames, (hassigns.mono Set.Subset.rfl ?_).append hrest⟩
      rintro t S ⟨x, hx, ht⟩
      exact .inr ⟨x, hx, ht.imp_right fun h => h.mono (Set.subset_univ D)⟩

theorem InitCode.assigns {n : Needs} {late : List String} {c : Setting} {s s₁ : Cursor}
    {st : Option Stmt} {is : List Item} {env : Lexical} {A : Set Place} :
    InitCode pool c s st is s₁ env → initSettled late st = true →
      n.Met late c.env A (initContinues st) →
      ∃ B, A ⊆ B ∧ env.Assigned late B ∧ c.Assigns n s A is s₁ B
  | .none, _, hn => ⟨A, Set.Subset.rfl, hn.visible, .nil⟩
  | .some h, hs, hn => h.assigns hs hn

theorem GuardCode.assigns {n : Needs} {late : List String} {c : Setting} {s s₁ : Cursor}
    {e : Option Expr} {stop : Nat} {is : List Item} {A : Set Place} :
    GuardCode pool c s e stop is s₁ → clauseSettled late e = true →
      n.Met late c.env A (clauseContinues e) →
      StackScript.Assigns (fun t S => AtAssigned stop A t S ∨ c.LeavesFor n t S) s.offset A is
        s₁.offset A
  | .none, _, _ => .nil
  | .some h, hs, hn => .guard _ (h.assigns hs hn)

theorem UpdateCode.assigns {n : Needs} {late : List String} {c : Setting} {s s₁ : Cursor}
    {e : Option Expr} {is : List Item} {A : Set Place} :
    UpdateCode pool c s e is s₁ → clauseSettled late e = true →
      n.Met late c.env A (clauseContinues e) → c.Assigns n s A is s₁ A
  | .none, _, _ => .nil
  | .some h, hs, hn => (h.assigns hs hn).append (.quiet rfl rfl)

end

theorem BodyCode.assigns {late : List String} {body : List Stmt}
    (h : BodyCode pool c s body span is s₁) (hs : stmtsSettled late body = true)
    (hn : n.Met late c.env A (stmtsContinue body)) : ∃ B, c.Assigns n s A is s₁ B := by
  cases h with
  | value h => exact ⟨A, (h.assigns hs hn).append (.returns (.inr rfl))⟩
  | returned _ h =>
    obtain ⟨B, -, -, hassigns⟩ := h.assigns hs hn
    exact ⟨B, hassigns⟩
  | null _ h =>
    obtain ⟨B, -, -, hassigns⟩ := h.assigns hs hn
    exact ⟨B, hassigns.append (.returns (.inl rfl))⟩

end Nodes

/-- Checkpoints of the whole code of a function, which begins when `A` has been assigned. -/
structure Checked (pool : Array Value) (f : Function) (A : Set Place) (ks : List Checkpoint) : Prop where
  listed : ∃ x final, Listed pool f (ks.map (·.toItem)) x final
  checks : ∃ B, Checkpoints (fun _ _ => False) 0 A ks f.code.size B

/-- What a call finds assigned when it begins: its arguments, and the globals among `A`. -/
def Function.given (f : Function) (A : Set Place) : Set Place :=
  {p | p.storage = .localSlot ∧ p.index < f.params ∨ p.storage = .globalSlot ∧ p ∈ A}

section Whole

variable {pool : Array Value} {f : Function} {A B : Set Place} {ks : List Checkpoint} {is : List Item}
  {x : Extent} {final stop : Nat}

theorem Checked.mono (h : Checked pool f A ks) (hA : A ⊆ B) : Checked pool f B ks := by
  obtain ⟨D, hchecks⟩ := h.checks
  refine ⟨h.listed, D, hchecks.entry.imp ?_ ?_, hchecks.next, hchecks.ok⟩
  · exact fun hentry => hentry.mono (List.Subset.refl _) hA
  · exact fun ⟨hnil, hstop, hD⟩ => ⟨hnil, hstop, hD.trans hA⟩

theorem Listed.checked {c : Setting} (hl : Listed pool f is x final) (hloop : c.loop = none)
    (ht : Tiled 0 is stop) (h : Assigns (c.LeavesFor ⟨∅, ∅⟩) 0 A is stop B) :
    ∃ ks, Checked pool f A ks := by
  obtain ⟨ks, rfl, hchecks⟩ : Assigns (fun _ _ => False) 0 A is stop B := by
    refine h.mono Set.Subset.rfl ?_
    rintro t S ⟨exit, hexit, -⟩
    cases hloop.symm.trans hexit
  obtain rfl := ht.unique hl.flows.tiled
  exact ⟨ks, ⟨x, final, hl⟩, B, hchecks⟩

theorem FunctionCode.checked {l : Literal} {first globals : Nat} {bodySpan : Span} {s : Cursor}
    (h : FunctionCode pool l.env l.names first l.self l.params l.body bodySpan f is s)
    (hb : l.env.main.Below globals) (hl : l.Supplied A) : ∃ ks, Checked pool f (f.given A) ks := by
  have hlisted := h.listed hb
  cases h with
  | mk hcode _ _ _ hparams _ _ =>
    have hvisible : (l.env.enterFunction l.self (l.params.map (·.name))).Assigned [] (f.given A) := by
      intro name p _ hr
      obtain ⟨storage, index⟩ := p
      obtain ⟨hplace, ha⟩ := Option.filter_eq_some_iff.mp hr
      cases storage with
      | globalSlot => exact .inr ⟨rfl, hl.globals name index hr⟩
      | localSlot =>
        refine .inl ⟨rfl, ?_⟩
        have hbelow := Lexical.below_enterFunction hb l.self (l.params.map (·.name))
        have hwithin := Lexical.Below.place (c := ⟨l.env.enterFunction l.self (l.params.map (·.name)),
          [], none, 0⟩) (s := ⟨0, _, 0⟩) hbelow hplace
        change index < (l.params.map (·.name)).length at hwithin
        rwa [hparams, ← List.length_map]
      | _ => cases ha
    obtain ⟨B, hassigns⟩ := hcode.assigns (n := ⟨∅, ∅⟩) hl.settled
      ⟨hvisible, Set.empty_subset _, fun _ => Set.empty_subset _⟩
    exact hlisted.checked rfl hcode.flows.tiled hassigns

theorem Object.Lists.checked {o : Object} {v : OpenScopes} {first : Nat} {body : List Stmt} {s : Cursor}
    (h : o.Lists v first body is s) (hv : v.inner = []) (hb : v.main.Below v.globals)
    (hs : stmtsSettled [] body = true) (hA : v.env.Assigned [] A) : ∃ ks, Checked o.constants o.main A ks := by
  have hn (continues : Bool) : Needs.Met ⟨∅, ∅⟩ [] v.env A continues :=
    ⟨hA, Set.empty_subset _, fun _ => Set.empty_subset _⟩
  have hlisted := h.listed_ending hv hb
  have htiled := h.listing.flows_ending.tiled
  cases h.listing with
  | value hcode => exact hlisted.checked rfl htiled (hcode.assigns hs (hn _))
  | other _ hcode =>
    obtain ⟨B, -, -, hassigns⟩ := hcode.assigns hs (hn _)
    exact hlisted.checked rfl htiled hassigns

end Whole

end StackScript
