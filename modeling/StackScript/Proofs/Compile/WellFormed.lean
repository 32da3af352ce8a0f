import StackScript.Proofs.Compile.Listing
import StackScript.Session

/-! # Well-formed objects

An object can be run without looking anything up in vain: its codes decode, their jumps lead to
instructions, and their operands name things that exist. Every object of a compiler is well formed,
whatever programs the compiler has seen before.
-/

namespace StackScript

def Code.Has (code : Code) (offset : Nat) (i : Instruction) : Prop :=
  .ok (offset, i) ∈ code.instructions

def SlotExists (globals locals : Nat) (inFunction : Bool) : Storage × Nat → Prop
  | (.globalSlot, index) => index < globals
  | (.localSlot, index) => index < locals
  | (.builtin, index) => ∃ b, Builtin.ofIndex? index = some b
  | (.captured, _) => inFunction = true
  | (.self, _) => False

/-- The operands of an instruction exist, for code whose closures are made of constants before
`limit`. -/
def Instruction.WellFormed (pool : Array Value) (globals : Nat) (code : Code) (locals limit : Nat)
    (inFunction : Bool) (i : Instruction) : Prop :=
  match i.op, i.operands with
  | .jump, [target] | .jumpIfFalse, [target] => target = code.size ∨ ∃ j, code.Has target j
  | .constant, [index] => index < pool.size
  | .get, [operand] => SlotExists globals locals inFunction (Storage.decode operand)
  | .set, [operand] | .setElement, [operand] =>
    (Storage.decode operand).1.assignable = true ∧
      SlotExists globals locals inFunction (Storage.decode operand)
  | .currentClosure, [] => inFunction = true
  | .hash, [length] => length % 2 = 0
  | .closure, [index, captured] => index < limit ∧
      ∃ f, pool[index]? = some (.function f) ∧ ∀ offset operand k, f.code.Has offset ⟨.get, [operand]⟩ →
        Storage.decode operand = (.captured, k) → k < captured
  | op, operands => operands.length = op.operandCount

structure Code.WellFormed (pool : Array Value) (globals : Nat) (code : Code) (locals limit : Nat)
    (inFunction : Bool) : Prop where
  decodes : ∃ is : List (Nat × Instruction), code.instructions = is.map .ok ∧
    code.toList = assemble (is.map (·.2))
  instructions : ∀ offset i, code.Has offset i →
    i.WellFormed pool globals code locals limit inFunction

structure Object.WellFormed (o : Object) (globals : Nat) : Prop where
  main : o.code.WellFormed o.constants globals 0 o.constants.size false
  functions : ∀ (index : Nat) (f : Function), o.constants[index]? = some (.function f) →
    f.params ≤ f.locals ∧ f.code.WellFormed o.constants globals f.locals index true

section Listed

variable {pool : Array Value} {f : Function} {is : List Item} {x : Extent} {final : Nat} {i : Item}

theorem Listed.has_iff (h : Listed pool f is x final) {offset : Nat} {j : Instruction} :
    f.code.Has offset j ↔ ∃ i ∈ is, i.offset = offset ∧ i.toInstruction = j := by
  simp [Code.Has, h.instructions]

theorem Listed.target (h : Listed pool f is x final) (hi : i ∈ is) {t : Nat} (ht : t ∈ i.targets) :
    t = f.code.size ∨ ∃ j, f.code.Has t j := by
  rcases (h.flows.continues i hi).next t ht with ⟨j, hj, ho, -⟩ | ⟨hend, -⟩ | hout
  · exact .inr ⟨j.toInstruction, h.has_iff.mpr ⟨j, hj, ho, rfl⟩⟩
  · exact .inl hend
  · exact hout.elim

theorem Place.Within.slotExists {p : Place} (hp : p.Within x) (hs : p.storage ≠ .self)
    (hi : p.index < Storage.slotLimit) (hx : x.inFunction = false → x.captured = []) :
    SlotExists x.globals x.locals x.inFunction (Storage.decode p.operand) := by
  obtain ⟨storage, index⟩ := p
  rw [Place.operand, Storage.decode_encode hs hi]
  cases storage with
  | globalSlot | localSlot => exact hp
  | builtin => exact ⟨_, List.getElem?_eq_getElem hp⟩
  | captured =>
    cases hf : x.inFunction with
    | true => rfl
    | false => simp [Place.Within, hx hf] at hp
  | self => exact absurd rfl hs

theorem Listed.captured_lt (h : Listed pool f is x final) {offset operand k : Nat}
    (hi : f.code.Has offset ⟨.get, [operand]⟩) (hk : Storage.decode operand = (.captured, k)) :
    k < x.captured.length := by
  obtain ⟨i, hi, -, hget⟩ := h.has_iff.mp hi
  have hsound := h.sound i hi
  obtain ⟨p, hp, hs, hlt, hwithin⟩ : i.Names x (· ≠ .self) := by
    simpa only [Item.Sound, hget] using hsound
  rw [hget] at hp
  obtain rfl := List.head_eq_of_cons_eq hp
  rw [Place.operand, Storage.decode_encode hs hlt] at hk
  obtain ⟨storage, index⟩ := p
  cases hk
  exact hwithin

theorem Listed.instruction (h : Listed pool f is x final) (hc : x.constants ≤ pool.size)
    (hx : x.inFunction = false → x.captured = []) (hi : i ∈ is) :
    i.toInstruction.WellFormed pool x.globals f.code f.locals x.constants x.inFunction := by
  have hfits := h.fits i hi
  have hsound := h.sound i hi
  have htarget (t : Nat) (ht : t ∈ i.targets) := h.target hi ht
  obtain ⟨⟨op, operands⟩, offset, span, height, loaded, literal⟩ := i
  unfold Instruction.WellFormed
  cases op with
  | jump =>
    obtain ⟨t, rfl⟩ := List.length_eq_one_iff.mp hfits.1
    exact htarget t (by simp [Item.targets])
  | jumpIfFalse =>
    obtain ⟨t, rfl⟩ := List.length_eq_one_iff.mp hfits.1
    exact htarget t (by simp [Item.targets])
  | constant =>
    obtain ⟨k, v, rfl, hk, -⟩ := hsound
    exact Nat.lt_of_lt_of_le hk hc
  | get =>
    obtain ⟨p, rfl, hs, hlt, hp⟩ := hsound
    rw [← h.locals]
    exact hp.slotExists hs hlt hx
  | set | setElement =>
    obtain ⟨p, rfl, ha, hlt, hp⟩ := hsound
    have hs : p.storage ≠ .self := Place.storage_ne_self ha
    rw [← h.locals]
    refine ⟨?_, hp.slotExists hs hlt hx⟩
    rw [Place.operand, Storage.decode_encode hs hlt]
    exact ha
  | currentClosure =>
    obtain rfl := List.length_eq_zero_iff.mp hfits.1
    exact hsound
  | hash =>
    obtain ⟨n, rfl⟩ := hsound
    exact Nat.mul_mod_right 2 n
  | closure =>
    obtain ⟨l, hl⟩ := hsound
    obtain ⟨k, g, js, s, rfl, hk, hg, hlisted⟩ := hl.listed
    exact ⟨hk, g, hg, fun offset operand k hget hdecode => hlisted.captured_lt hget hdecode⟩
  | _ => exact hfits.1

theorem Listed.wellFormed (h : Listed pool f is x final) (hc : x.constants ≤ pool.size)
    (hx : x.inFunction = false → x.captured = []) :
    f.code.WellFormed pool x.globals f.locals x.constants x.inFunction := by
  refine ⟨⟨is.map fun i => (i.offset, i.toInstruction), ?_, ?_⟩, fun offset i hi => ?_⟩
  · simp [h.instructions, Function.comp_def]
  · simp [h.code, Function.comp_def]
  · obtain ⟨j, hj, -, rfl⟩ := h.has_iff.mp hi
    exact h.instruction hc hx hj

end Listed

/-- The states that a compiler gets into: programs are compiled, with or without success, and the
names and constants may be handed on to another compiler. -/
inductive Compiler.Reachable : Compiler → Prop
  | initial : Reachable {}
  | compiled {c : Compiler} (program : Program) (unitName : String) : Reachable c →
      Reachable (c.compile program unitName).2
  | resumed {c : Compiler} : Reachable c → Reachable { c with unit := {} }

theorem Compiler.Reachable.ready {c : Compiler} (h : c.Reachable) : ∃ v, c.Ready v := by
  induction h with
  | initial => exact ⟨{}, .initial⟩
  | compiled program unitName _ ih =>
    obtain ⟨v, hv⟩ := ih
    obtain ⟨v', -, hready, -⟩ := hv.compile program unitName
    exact ⟨v', hready⟩
  | resumed _ ih =>
    obtain ⟨v, hv⟩ := ih
    exact ⟨v, hv.scopes, hv.outside, hv.pool⟩

theorem Compiler.Ready.main_below {c : Compiler} {v : OpenScopes} (h : c.Ready v) :
    v.main.Below v.globals := fun _ _ hi => h.scopes.slot_lt_globals hi

/-- A compiler gives errors, none of them its own, or a well-formed object. -/
theorem Compiler.Reachable.compile_wellFormed {c : Compiler} (h : c.Reachable) (program : Program)
    (unitName : String) :
    match (c.compile program unitName).1 with
    | .error errors => errors ≠ #[] ∧ ∀ e ∈ errors, ∀ m, e.cause ≠ .internal m
    | .ok o => o.WellFormed (c.compile program unitName).2.scopes.globals := by
  obtain ⟨v, hv⟩ := h.ready
  obtain ⟨v', -, hready, -, hresult⟩ := hv.compile program unitName
  cases hr : (c.compile program unitName).1 with
  | error errors => rwa [hr] at hresult
  | ok o =>
    rw [hr] at hresult
    obtain ⟨hconstants, is, s, hslots, hsize, hlists⟩ := hresult
    rw [hready.scopes.globals]
    obtain ⟨final, -, hmain⟩ := hlists.listed hv.outside hv.main_below
    refine ⟨?_, fun index f hf => ?_⟩
    · have hwf := hmain.wellFormed (Nat.le_of_eq hsize) fun _ => rfl
      rwa [hslots, hsize] at hwf
    · have hlt := (Array.getElem?_eq_some_iff.mp hf).1
      rw [hconstants] at hf
      obtain ⟨js, names, hlisted⟩ := hready.pool.listed hf (List.prefix_refl _)
      rw [← hconstants] at hlisted
      exact ⟨hlisted.params, hlisted.wellFormed (Nat.le_of_lt hlt) fun he => nomatch he⟩

/-- A global, parameters, a local and captured names, after a program that failed behind its `let`. -/
theorem Compiler.wellFormed_after_failure :
    let failing := "let total = 2; break;"
    let source := "let add = fn(n) \x7b
        let twice = n * total; fn(m) \x7b total = total + m; [n, twice] \x7d
      \x7d;
      while (true) \x7b add(1)(total); break; \x7d"
    ∃ first second, parseSource failing = .ok first ∧ parseSource source = .ok second ∧
      let c := (Compiler.compile {} first unitName).2
      (Compiler.compile {} first unitName).1.toBool = false ∧ c.Reachable ∧
      ∃ o, (c.compile second unitName).1 = .ok o ∧
        o.WellFormed (c.compile second unitName).2.scopes.globals := by
  intro failing source
  have hcompile : ((parseSource failing).toOption.any fun first =>
      (parseSource source).toOption.any fun second =>
        !(Compiler.compile {} first unitName).1.toBool &&
          ((Compiler.compile {} first unitName).2.compile second unitName).1.toBool) = true := by
    decide +kernel
  obtain ⟨first, hfirst, hcompile⟩ := (Option.any_eq_true ..).mp hcompile
  obtain ⟨second, hsecond, hcompile⟩ := (Option.any_eq_true ..).mp hcompile
  obtain ⟨hfails, hok⟩ := (Bool.and_eq_true ..).mp hcompile
  have hc : (Compiler.compile {} first unitName).2.Reachable := .compiled _ _ .initial
  have h := hc.compile_wellFormed second unitName
  refine ⟨first, second, eq_ok_of_toOption hfirst, eq_ok_of_toOption hsecond,
    (Bool.not_eq_true' _).mp hfails, hc, ?_⟩
  cases hr : ((Compiler.compile {} first unitName).2.compile second unitName).1 with
  | error errors => simp [hr, Except.toBool] at hok
  | ok o =>
    rw [hr] at h
    exact ⟨o, rfl, h⟩

end StackScript
