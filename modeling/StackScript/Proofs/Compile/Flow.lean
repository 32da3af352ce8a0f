import StackScript.Proofs.Compile.Buffer

/-! # Control flow of listings

From each instruction of a listing, control goes to an instruction that expects as many operands as
are then on the stack, or it leaves the listing for one of a few known places. The parts of a listing
are composed by two rules: one part behind the other, and a part that leads back to its start.
-/

namespace StackScript

namespace Instruction

def pops (i : Instruction) : Nat :=
  match i.op with
  | .pop | .unary _ | .jumpIfFalse | .set | .retValue => 1
  | .binary _ | .index | .setElement => 2
  | .array | .hash => i.operands[0]?.getD 0
  | .call => i.operands[0]?.getD 0 + 1
  | .closure => i.operands[1]?.getD 0
  | _ => 0

def pushes (i : Instruction) : Nat :=
  match i.op with
  | .pop | .jump | .jumpIfFalse | .set | .ret | .retValue => 0
  | _ => 1

end Instruction

namespace Item

def after (i : Item) : Nat := i.height - i.pops + i.pushes

/-- Where control goes within the body. -/
def targets (i : Item) : List Nat :=
  match i.op with
  | .jump => i.operands
  | .jumpIfFalse => (i.offset + i.op.length) :: i.operands
  | .ret | .retValue => []
  | op => [i.offset + op.length]

/-- Values loaded before `j` to be captured are those loaded before `i` and the one loaded by `i`. -/
def Precedes (i j : Item) : Prop :=
  j.loaded = [] ∨
    ∃ p : Place, p.index < Storage.slotLimit ∧ i.toInstruction = p.load ∧ j.loaded = i.loaded ++ [p]

end Item

/-- Control enters a listing at an offset, with a number of operands. -/
def Enters (is : List Item) (offset height : Nat) : Prop :=
  ∃ j ∈ is, j.offset = offset ∧ j.height = height ∧ j.loaded = []

/-- From the instruction, control stays in the listing or leaves it for a place in `out`. -/
structure Item.Continues (i : Item) (is : List Item) (out : Nat → Nat → Prop) : Prop where
  pops : i.pops ≤ i.height
  next : ∀ t ∈ i.targets, (∃ j ∈ is, j.offset = t ∧ j.height = i.after ∧ i.Precedes j) ∨ out t i.after

def AtPoint (offset height t n : Nat) : Prop := t = offset ∧ n = height

/-- A listing from `start`, with `height` operands, to `stop`, with `final` operands. Control leaves
it there or for the places in `out`. -/
structure Flows (out : Nat → Nat → Prop) (start height : Nat) (is : List Item) (stop final : Nat) :
    Prop where
  tiled : Tiled start is stop
  entry : Enters is start height ∨ is = [] ∧ height = final
  continues : ∀ i ∈ is, i.Continues is fun t n => AtPoint stop final t n ∨ out t n

section Flows

variable {out out₁ out₂ : Nat → Nat → Prop} {a b d h k l : Nat} {is is₁ is₂ : List Item} {i : Item}

theorem Enters.mono (he : Enters is₁ h k) (hs : is₁ ⊆ is) : Enters is h k := by
  obtain ⟨j, hj, hrest⟩ := he
  exact ⟨j, hs hj, hrest⟩

theorem Item.Continues.mono (hi : i.Continues is₁ out₁) (hs : is₁ ⊆ is)
    (ho : ∀ t n, out₁ t n → Enters is t n ∨ out t n) : i.Continues is out := by
  refine ⟨hi.pops, fun t ht => ?_⟩
  rcases hi.next t ht with ⟨j, hj, hrest⟩ | hout
  · exact .inl ⟨j, hs hj, hrest⟩
  · rcases ho t _ hout with ⟨j, hj, ho, hh, hl⟩ | hout
    · exact .inl ⟨j, hj, ho, hh, .inl hl⟩
    · exact .inr hout

theorem Flows.nil : Flows out a h [] a h :=
  ⟨rfl, .inr ⟨rfl, rfl⟩, fun i hi => by simp at hi⟩

theorem Flows.mono (hf : Flows out₁ a h is b k)
    (ho : ∀ t n, out₁ t n → AtPoint b k t n ∨ out t n) : Flows out a h is b k :=
  ⟨hf.tiled, hf.entry, fun i hi => (hf.continues i hi).mono (List.Subset.refl _) fun t n ht =>
    .inr (ht.elim .inl (ho t n))⟩

theorem Flows.append (h₁ : Flows out a h is₁ b k) (h₂ : Flows out b k is₂ d l) :
    Flows out a h (is₁ ++ is₂) d l := by
  have hleft : is₁ ⊆ is₁ ++ is₂ := List.subset_append_left _ _
  have hright : is₂ ⊆ is₁ ++ is₂ := List.subset_append_right _ _
  refine ⟨tiled_append.mpr ⟨b, h₁.tiled, h₂.tiled⟩, ?_, ?_⟩
  · rcases h₁.entry with he | ⟨rfl, rfl⟩
    · exact .inl (he.mono hleft)
    · obtain rfl : a = b := h₁.tiled
      exact h₂.entry
  · intro i hi
    rcases List.mem_append.mp hi with hi | hi
    · refine (h₁.continues i hi).mono hleft ?_
      rintro t n (⟨rfl, rfl⟩ | ht)
      · rcases h₂.entry with he | ⟨rfl, rfl⟩
        · exact .inl (he.mono hright)
        · exact .inr (.inl ⟨h₂.tiled, rfl⟩)
      · exact .inr (.inr ht)
    · exact (h₂.continues i hi).mono hright fun t n ht => .inr ht

theorem Flows.loop (hf : Flows out₁ a h is b k) (hn : is ≠ [])
    (ho : ∀ t n, out₁ t n → AtPoint a h t n ∨ AtPoint b k t n ∨ out t n) : Flows out a h is b k := by
  have he : Enters is a h := hf.entry.resolve_right fun he => hn he.1
  refine ⟨hf.tiled, hf.entry, fun i hi => (hf.continues i hi).mono (List.Subset.refl _) ?_⟩
  rintro t n (ht | ht)
  · exact .inr (.inl ht)
  · rcases ho t n ht with ⟨rfl, rfl⟩ | ht
    · exact .inl he
    · exact .inr ht

theorem Flows.single (ho : i.offset = a) (hh : i.height = h) (hl : i.loaded = [])
    (hb : a + i.op.length = b) (hp : i.pops ≤ h)
    (hn : ∀ t ∈ i.targets, AtPoint b k t i.after ∨ out t i.after) : Flows out a h [i] b k := by
  refine ⟨⟨ho, hb⟩, .inl ⟨i, by simp, ho, hh, hl⟩, ?_⟩
  intro j hj
  obtain rfl := List.mem_singleton.mp hj
  exact ⟨hh ▸ hp, fun t ht => .inr (hn t ht)⟩

end Flows

/-- Whether control goes to the next instruction only. -/
def Opcode.straight : Opcode → Bool
  | .jump | .jumpIfFalse | .ret | .retValue => .false
  | _ => .true

theorem Item.targets_of_straight {i : Item} (h : i.op.straight = true) :
    i.targets = [i.offset + i.op.length] := by
  cases ho : i.op <;> simp_all [Item.targets, Opcode.straight]

/-- The places that `break` and `continue` lead to. -/
def Setting.Leaves (c : Setting) (t n : Nat) : Prop :=
  ∃ x, c.loop = some x ∧ n = x.height ∧ (t = x.breakTo ∨ t = x.continueTo)

section Instructions

variable {out : Nat → Nat → Prop} {c : Setting} {s : Cursor} {i : Instruction} {span : Span} {h k : Nat}

theorem Flows.item (hs : i.op.straight = true) (hh : c.height = h + i.pops)
    (hk : h + i.pushes = k) :
    Flows out s.offset c.height [c.item s i span] (s.skip i.op).offset k := by
  refine .single rfl rfl rfl rfl (by change i.pops ≤ _; omega) fun t ht => .inl ?_
  rw [Item.targets_of_straight hs] at ht
  refine ⟨List.mem_singleton.mp ht, ?_⟩
  change c.height - i.pops + i.pushes = k
  omega

theorem Flows.jump {target : Nat} :
    Flows (AtPoint target c.height) s.offset c.height [c.item s ⟨.jump, [target]⟩ span]
      (s.skip .jump).offset k := by
  refine .single rfl rfl rfl rfl (Nat.zero_le _) fun t ht => .inr ?_
  exact ⟨List.mem_singleton.mp ht, rfl⟩

theorem Flows.jumpIfFalse {target : Nat} (hh : c.height = h + 1) :
    Flows (AtPoint target h) s.offset c.height [c.item s ⟨.jumpIfFalse, [target]⟩ span]
      (s.skip .jumpIfFalse).offset h := by
  have hafter : (c.item s ⟨.jumpIfFalse, [target]⟩ span).after = h := by
    change c.height - 1 + 0 = h
    omega
  refine .single rfl rfl rfl rfl (by change 1 ≤ _; omega) fun t ht => ?_
  rw [hafter]
  rcases List.mem_cons.mp ht with rfl | ht
  · exact .inl ⟨rfl, rfl⟩
  · exact .inr ⟨List.mem_singleton.mp ht, rfl⟩

theorem Flows.returns (ho : i.op = .ret ∨ i.op = .retValue) (hp : i.pops ≤ c.height) :
    Flows out s.offset c.height [c.item s i span] (s.skip i.op).offset k := by
  refine .single rfl rfl rfl rfl hp fun t ht => ?_
  have hn : (c.item s i span).targets = [] := by
    rcases ho with ho | ho <;> simp [Item.targets, Setting.item, ho]
  simp [hn] at ht

theorem Flows.drops (n : Nat) (hh : c.height = h + n) :
    Flows out s.offset c.height (c.drops s span n) (s.offset + n) h := by
  induction n generalizing c s with
  | zero => exact hh ▸ .nil
  | succ n ih =>
    have hpop : Flows out s.offset c.height [c.item s ⟨.pop, []⟩ span] (s.skip .pop).offset (h + n) :=
      .item rfl hh rfl
    have hrest := ih (c := { c with height := c.height - 1 }) (s := s.skip .pop)
      (by change c.height - 1 = _; omega)
    have hheight : c.height - 1 = h + n := by omega
    simp only [hheight] at hrest
    have hoffset : (s.skip .pop).offset + n = s.offset + (n + 1) := by
      change s.offset + 1 + n = _
      omega
    rw [hoffset] at hrest
    rw [Setting.drops, hheight]
    exact hpop.append hrest

/-- Loads one after the other and an instruction behind them that takes what they loaded. -/
theorem loads_continue (span : Span) {j : Item} {places : List Place} (hp : ∀ p ∈ places, p.index < Storage.slotLimit)
    (loaded : List Place) (ho : j.offset = (s.skipLoads places).offset)
    (hh : j.height = c.height + places.length) (hl : j.loaded = loaded ++ places)
    (hj : j.Continues [] out) :
    Tiled s.offset (c.loads s span loaded places ++ [j]) (j.offset + j.op.length) ∧
      (∃ i ∈ c.loads s span loaded places ++ [j], i.offset = s.offset ∧ i.height = c.height ∧
        i.loaded = loaded) ∧
      ∀ i ∈ c.loads s span loaded places ++ [j],
        i.Continues (c.loads s span loaded places ++ [j]) out := by
  induction places generalizing c s loaded with
  | nil =>
    refine ⟨⟨ho, by rw [ho]; rfl⟩, ⟨j, by simp [Setting.loads], ho, hh, by simpa using hl⟩, ?_⟩
    intro i hi
    obtain rfl := List.mem_singleton.mp hi
    exact hj.mono (List.nil_subset _) fun _ _ => .inr
  | cons p places ih =>
    obtain ⟨htiled, ⟨i₁, hi₁, ho₁, hh₁, hl₁⟩, hnext⟩ := ih (c := c.above 1) (s := s.skip p.load.op)
      (fun q hq => hp q (by simp [hq])) (loaded ++ [p]) ho
      (by rw [hh]; simp only [Setting.above, List.length_cons]; omega) (by simpa using hl)
    refine ⟨⟨rfl, htiled⟩, ⟨_, List.mem_cons_self, rfl, rfl, rfl⟩, ?_⟩
    intro i hi
    rcases List.mem_cons.mp hi with rfl | hi
    · have hop : p.load.op.straight = true := by unfold Place.load; cases p.storage <;> rfl
      have hpops : p.load.pops = 0 := by unfold Place.load; cases p.storage <;> rfl
      have hpushes : p.load.pushes = 1 := by unfold Place.load; cases p.storage <;> rfl
      refine ⟨by change p.load.pops ≤ _; omega, fun t ht => .inl ⟨i₁, List.mem_cons_of_mem _ hi₁, ?_⟩⟩
      rw [Item.targets_of_straight hop] at ht
      refine ⟨ho₁.trans (List.mem_singleton.mp ht).symm, ?_, .inr ⟨p, hp p (by simp), rfl, hl₁⟩⟩
      rw [hh₁]
      change c.height + 1 = c.height - p.load.pops + p.load.pushes
      omega
    · exact (hnext i hi).mono (List.subset_cons_self _ _) fun _ _ => .inr

end Instructions

section Nodes

variable {pool : Array Value} {c : Setting} {s s₁ : Cursor} {is : List Item} {env : Lexical}

/-- The listing of a node: control leaves it with `final` operands, or for the loop around. -/
abbrev Setting.Flows (c : Setting) (s : Cursor) (is : List Item) (s₁ : Cursor) (final : Nat) : Prop :=
  StackScript.Flows c.Leaves s.offset c.height is s₁.offset final

theorem Flows.last {i : Instruction} {span : Span} {n k : Nat} (h : c.Flows s is s₁ (c.height + n))
    (hs : i.op.straight = true) (hp : i.pops ≤ n) (hk : n - i.pops + i.pushes = k) :
    c.Flows s (is ++ [(c.above n).item s₁ i span]) (s₁.skip i.op) (c.height + k) := by
  refine Flows.append h (.item (c := c.above n) (h := c.height + (n - i.pops)) hs ?_ ?_)
  · simp only [Setting.above]
    omega
  · omega

theorem Flows.load {place : Place} {span : Span} :
    c.Flows s [c.item s place.load span] (s.skip place.load.op) (c.height + 1) := by
  unfold Place.load
  cases place.storage <;> exact .item rfl rfl rfl

/-- A condition and two branches behind it; a jump skips the second one. -/
theorem Flows.branches {s₂ s₃ : Cursor} {is₁ is₂ is₃ : List Item} {span : Span}
    (h₁ : c.Flows s is₁ s₁ (c.height + 1))
    (h₂ : c.Flows (s₁.skip .jumpIfFalse) is₂ s₂ (c.height + 1))
    (h₃ : c.Flows (s₂.skip .jump) is₃ s₃ (c.height + 1)) :
    c.Flows s (is₁ ++ [(c.above 1).item s₁ ⟨.jumpIfFalse, [(s₂.skip .jump).offset]⟩ span] ++ is₂ ++
      [(c.above 1).item s₂ ⟨.jump, [s₃.offset]⟩ span] ++ is₃) s₃ (c.height + 1) := by
  -- Until its target is reached, each of the two jumps is a way out.
  let out (t n : Nat) : Prop :=
    AtPoint (s₂.skip .jump).offset c.height t n ∨ AtPoint s₃.offset (c.height + 1) t n ∨ c.Leaves t n
  have hleaves {a h b k : Nat} {is : List Item} (hf : StackScript.Flows c.Leaves a h is b k) :
      StackScript.Flows out a h is b k := hf.mono fun _ _ ht => .inr (.inr (.inr ht))
  have htest : StackScript.Flows out s₁.offset (c.height + 1)
      [(c.above 1).item s₁ ⟨.jumpIfFalse, [(s₂.skip .jump).offset]⟩ span]
      (s₁.skip .jumpIfFalse).offset c.height :=
    (Flows.jumpIfFalse (c := c.above 1) rfl).mono fun _ _ ht => .inr (.inl ht)
  have hskip : StackScript.Flows out s₂.offset (c.height + 1)
      [(c.above 1).item s₂ ⟨.jump, [s₃.offset]⟩ span] (s₂.skip .jump).offset c.height :=
    (Flows.jump (c := c.above 1)).mono fun _ _ ht => .inr (.inr (.inl ht))
  have hfirst : StackScript.Flows (fun t n => AtPoint s₃.offset (c.height + 1) t n ∨ c.Leaves t n)
      s.offset c.height _ (s₂.skip .jump).offset c.height :=
    ((((hleaves h₁).append htest).append (hleaves h₂)).append hskip).mono fun _ _ ht => ht
  refine (hfirst.append (h₃.mono fun _ _ ht => .inr (.inr ht))).mono ?_
  exact fun _ _ ht => ht

theorem Flows.guard {stop : Nat} (span : Span) (h : c.Flows s is s₁ (c.height + 1)) :
    StackScript.Flows (fun t n => AtPoint stop c.height t n ∨ c.Leaves t n) s.offset c.height
      (is ++ [(c.above 1).item s₁ ⟨.jumpIfFalse, [stop]⟩ span]) (s₁.skip .jumpIfFalse).offset
      c.height := by
  refine (h.mono fun _ _ ht => .inr (.inr ht)).append ?_
  exact (Flows.jumpIfFalse (c := c.above 1) rfl).mono fun _ _ ht => .inr (.inl ht)

/-- The rounds of a loop: a guard that may leave it, the body, and the way back. `continue` leads
behind the body or to the guard. -/
theorem Flows.rounds {b : Setting} {s₂ s₃ : Cursor} {is₁ is₂ is₃ : List Item} (span : Span) {k : Nat}
    (h₁ : StackScript.Flows (fun t n => AtPoint (s₃.skip .jump).offset c.height t n ∨ c.Leaves t n)
      s.offset c.height is₁ s₁.offset c.height)
    (hb : b.loop = some ⟨(s₃.skip .jump).offset, k, c.height⟩)
    (hk : k = s.offset ∨ k = s₂.offset)
    (h₂ : StackScript.Flows b.Leaves s₁.offset c.height is₂ s₂.offset c.height)
    (h₃ : c.Flows s₂ is₃ s₃ c.height) :
    c.Flows s (is₁ ++ is₂ ++ is₃ ++ [c.item s₃ ⟨.jump, [s.offset]⟩ span]) (s₃.skip .jump)
      c.height := by
  let out (t n : Nat) : Prop :=
    AtPoint s.offset c.height t n ∨ AtPoint (s₃.skip .jump).offset c.height t n ∨ c.Leaves t n
  have hguard : StackScript.Flows out s.offset c.height is₁ s₁.offset c.height :=
    h₁.mono fun _ _ ht => .inr (.inr ht)
  have hbody : StackScript.Flows out s₁.offset c.height is₂ s₂.offset c.height := by
    refine h₂.mono ?_
    rintro t n ⟨x, hx, rfl, ht⟩
    obtain rfl := Option.some.inj (hb.symm.trans hx)
    rcases ht with rfl | rfl
    · exact .inr (.inr (.inl ⟨rfl, rfl⟩))
    · rcases hk with rfl | rfl
      · exact .inr (.inl ⟨rfl, rfl⟩)
      · exact .inl ⟨rfl, rfl⟩
  have hupdate : StackScript.Flows out s₂.offset c.height is₃ s₃.offset c.height :=
    h₃.mono fun _ _ ht => .inr (.inr (.inr ht))
  have hback : StackScript.Flows out s₃.offset c.height
      [c.item s₃ ⟨.jump, [s.offset]⟩ span] (s₃.skip .jump).offset c.height :=
    Flows.jump.mono fun _ _ ht => .inr (.inl ht)
  exact (((hguard.append hbody).append hupdate).append hback).loop (by simp) fun _ _ ht => ht

theorem Flows.exit {s₂ : Cursor} {x : LoopExit} {target n : Nat} {span : Span}
    (ht : target = x.breakTo ∨ target = x.continueTo) (hl : c.loop = some x)
    (hh : c.height = x.height + n) (hs : s₂ = { s with offset := s.offset + n }) {k : Nat} :
    c.Flows s (c.drops s span n ++ [{ c with height := x.height }.item s₂ ⟨.jump, [target]⟩ span])
      (s₂.skip .jump) k := by
  subst hs
  refine Flows.append (.drops n hh) (Flows.mono (Flows.jump (c := { c with height := x.height })
    (s := { s with offset := s.offset + n })) ?_)
  rintro t m ⟨rfl, rfl⟩
  exact .inr ⟨x, hl, rfl, ht⟩

theorem ClosureCode.flows {self : Option String} {params : List Ident} {body : List Stmt}
    {bodySpan span : Span} (h : ClosureCode pool c s self params body bodySpan span is s₁) :
    c.Flows s is s₁ (c.height + 1) := by
  cases h with
  | @mk _ _ s₂ _ _ _ _ _ names places _ _ hbody hpool hplaces _ hlt =>
    have hlen : names.length = places.length := by
      simpa using congrArg List.length hplaces
    let j : Item := { (c.above places.length).item (s.skipLoads places)
        ⟨.closure, [s₂.constants, names.length]⟩ span with
      loaded := places
      literal := some ⟨c.env, self, params, body, names⟩ }
    have hj : j.Continues [] fun t n =>
        AtPoint (j.offset + j.op.length) (c.height + 1) t n ∨ c.Leaves t n := by
      refine ⟨?_, fun t ht => .inr (.inl ⟨List.mem_singleton.mp ht, ?_⟩)⟩
      · change names.length ≤ c.height + places.length
        omega
      · change c.height + places.length - names.length + 1 = c.height + 1
        omega
    obtain ⟨htiled, hentry, hnext⟩ := loads_continue span hlt [] (show j.offset = _ from rfl)
      (show j.height = _ from rfl) (List.nil_append places).symm hj
    exact ⟨htiled, .inl hentry, hnext⟩

mutual

theorem ExprCode.flows {c : Setting} {s s₁ : Cursor} {e : Expr} {is : List Item} :
    ExprCode pool c s e is s₁ → c.Flows s is s₁ (c.height + 1)
  | .constant _ _ => .item rfl rfl rfl
  | .bool (b := b) => by cases b <;> exact .item rfl rfl rfl
  | .null => .item rfl rfl rfl
  | .ident _ _ => .load
  | .unary h => h.flows.last rfl (Nat.le_refl _) rfl
  | .binary _ h₁ h₂ => (h₁.flows.append h₂.flows).last (n := 2) rfl (Nat.le_refl _) rfl
  | .cond h₁ h₂ h₃ => .branches h₁.flows h₂.flows h₃.flows
  | .function h => h.flows
  | @ExprCode.call _ _ _ _ _ _ args _ _ _ h₁ h₂ => by
    have hargs := h₁.flows.append h₂.flows
    rw [Setting.above, Nat.add_assoc, Nat.add_comm 1] at hargs
    rw [Nat.add_comm 1 args.length]
    exact hargs.last rfl (Nat.le_refl _) (by simp [Instruction.pops]; rfl)
  | .array h => h.flows.last rfl (Nat.le_refl _) (by simp [Instruction.pops]; rfl)
  | .hash h => h.flows.last rfl (Nat.le_refl _) (by simp [Instruction.pops]; rfl)
  | .index h₁ h₂ => (h₁.flows.append h₂.flows).last (n := 2) rfl (Nat.le_refl _) rfl
  | .assign _ _ _ h => (h.flows.last (k := 0) rfl (Nat.le_refl _) rfl).append .load
  | .assignElement _ _ _ h₁ h₂ => (h₁.flows.append h₂.flows).last (n := 2) rfl (Nat.le_refl _) rfl

theorem ExprsCode.flows {c : Setting} {s s₁ : Cursor} {es : List Expr} {is : List Item} :
    ExprsCode pool c s es is s₁ → c.Flows s is s₁ (c.height + es.length)
  | .nil => .nil
  | .cons h₁ h₂ => by
    have hrest := h₂.flows
    rw [Setting.above, Nat.add_right_comm] at hrest
    exact h₁.flows.append hrest

theorem PairsCode.flows {c : Setting} {s s₁ : Cursor} {ps : List (Expr × Expr)} {is : List Item} :
    PairsCode pool c s ps is s₁ → c.Flows s is s₁ (c.height + 2 * ps.length)
  | .nil => .nil
  | .cons h₁ h₂ h₃ => by
    have hrest := h₃.flows
    rw [Setting.above, Nat.add_right_comm] at hrest
    exact (h₁.flows.append h₂.flows).append hrest

theorem BranchCode.flows {c : Setting} {s s₁ : Cursor} {b : Block} {is : List Item} :
    BranchCode pool c s b is s₁ → c.Flows s is s₁ (c.height + 1)
  | .value h => h.flows
  | .null _ h => h.flows.append (.item rfl rfl rfl)

theorem ElseCode.flows {c : Setting} {s s₁ : Cursor} {b : Option Block} {span : Span}
    {is : List Item} : ElseCode pool c s b span is s₁ → c.Flows s is s₁ (c.height + 1)
  | .block h => h.flows
  | .null => .item rfl rfl rfl

theorem ValueCode.flows {c : Setting} {s s₁ : Cursor} {ss : List Stmt} {is : List Item} :
    ValueCode pool c s ss is s₁ → c.Flows s is s₁ (c.height + 1)
  | .last h => h.flows
  | .cons h₁ h₂ => h₁.flows.append h₂.flows

theorem StmtCode.flows {c : Setting} {s s₁ : Cursor} {st : Stmt} {is : List Item} {env : Lexical} :
    StmtCode pool c s st is s₁ env → c.Flows s is s₁ c.height
  | .bindFunction _ _ h => h.flows.last (k := 0) rfl (Nat.le_refl _) rfl
  | .bind _ h _ _ => h.flows.last (k := 0) rfl (Nat.le_refl _) rfl
  | .ret => .returns (.inl rfl) (Nat.zero_le _)
  | .retValue h => h.flows.append (.returns (c := c.above 1) (.inr rfl) (Nat.le_add_left ..))
  | .expr h => h.flows.last (k := 0) rfl (Nat.le_refl _) rfl
  | @StmtCode.whileLoop _ _ _ _ _ condition _ _ span _ _ _ h₁ h₂ => by
    have hrounds := Flows.rounds span (.guard condition.span h₁.flows) rfl (.inl rfl) h₂.flows .nil
    rwa [List.append_nil] at hrounds
  | @StmtCode.forLoop _ _ _ _ _ _ _ _ _ _ _ _ span _ _ _ _ _ _ h₀ h₁ h₂ h₃ => by
    have hrounds := Flows.rounds span h₁.flows rfl (.inr rfl) h₂.flows h₃.flows
    have hall := h₀.flows.append hrounds
    simp only [← List.append_assoc] at hall
    exact hall
  | .breakLoop hl hh hs => .exit (.inl rfl) hl hh hs
  | .continueLoop hl hh hs => .exit (.inr rfl) hl hh hs

theorem StmtsCode.flows {c : Setting} {s s₁ : Cursor} {ss : List Stmt} {is : List Item}
    {env : Lexical} : StmtsCode pool c s ss is s₁ env → c.Flows s is s₁ c.height
  | .nil => .nil
  | .cons h₁ h₂ => h₁.flows.append h₂.flows

theorem InitCode.flows {c : Setting} {s s₁ : Cursor} {st : Option Stmt} {is : List Item}
    {env : Lexical} : InitCode pool c s st is s₁ env → c.Flows s is s₁ c.height
  | .none => .nil
  | .some h => h.flows

theorem GuardCode.flows {c : Setting} {s s₁ : Cursor} {e : Option Expr} {stop : Nat}
    {is : List Item} : GuardCode pool c s e stop is s₁ →
    StackScript.Flows (fun t n => AtPoint stop c.height t n ∨ c.Leaves t n) s.offset c.height is
      s₁.offset c.height
  | .none => .nil
  | .some h => .guard _ h.flows

theorem UpdateCode.flows {c : Setting} {s s₁ : Cursor} {e : Option Expr} {is : List Item} :
    UpdateCode pool c s e is s₁ → c.Flows s is s₁ c.height
  | .none => .nil
  | .some h => h.flows.last (k := 0) rfl (Nat.le_refl _) rfl

end

/-- A function body returns before its end. -/
theorem BodyCode.flows {body : List Stmt} {span : Span} (h : BodyCode pool c s body span is s₁) :
    c.Flows s is s₁ c.height := by
  cases h with
  | value h => exact h.flows.append (.returns (c := c.above 1) (.inr rfl) (Nat.le_add_left ..))
  | returned _ h => exact h.flows
  | null _ h => exact h.flows.append (.returns (.inl rfl) (Nat.zero_le _))

/-- At the end of a program there is its value, or nothing. -/
theorem ProgramCode.flows_ending {body : List Stmt} (h : ProgramCode pool env s body is s₁) :
    Flows (fun _ _ => False) s.offset 0 is s₁.offset (ending body).height := by
  have hout (t n : Nat) (ht : Setting.Leaves ⟨env, [], none, 0⟩ t n) : False := by
    obtain ⟨x, hx, -⟩ := ht
    cases hx
  cases h with
  | value h =>
    rw [h.ending_eq]
    exact h.flows.mono fun t n ht => (hout t n ht).elim
  | other he h =>
    have hzero : (ending body).height = 0 := by
      cases hb : ending body with
      | value => exact absurd hb he
      | _ => rfl
    rw [hzero]
    exact h.flows.mono fun t n ht => (hout t n ht).elim

theorem ProgramCode.flows {body : List Stmt} (h : ProgramCode pool env s body is s₁) :
    ∃ final ≤ 1, Flows (fun _ _ => False) s.offset 0 is s₁.offset final :=
  ⟨_, Ending.height_le _, h.flows_ending⟩

end Nodes

end StackScript
