import StackScript.Proofs.Compile.WellFormed
import StackScript.Proofs.Machine.Preservation
import StackScript.Session

/-! # Entries of a session

Every entry of a session runs with the stack discipline: closures that earlier entries left in globals
stay good, whatever is compiled later and however the earlier entries ended.
-/

namespace StackScript

inductive Session.Reachable : Session → Prop
  | start (limits : Limits) : Reachable { limits := limits }
  | eval {s : Session} (source : String) : Reachable s → Reachable (s.eval source).2

/-- A source that is run by itself is the first entry of a session. -/
theorem runSource_eq_eval (source : String) (limits : Limits) :
    runSource source limits = (({ limits := limits } : Session).eval source).1 := by
  unfold runSource compileSource Session.eval
  cases parseSource source with
  | error ds => rfl
  | ok program =>
    simp only [bind, Except.bind, compile, unitName]
    rcases Compiler.compile {} program "main" with ⟨errors | o, c⟩
    · rfl
    · simp only [Except.mapError, link]
      cases Machine.start ⟨o.code, o.constants, o.spans⟩ limits #[] firstStamp <;> rfl

/-- A program compiles in a session to `o`, and `m` is the machine at its start, under any limits. -/
structure Session.Begins (s : Session) (program : Program) (name : String) (o : Object)
    (limits : Limits) (m : Machine) : Prop where
  compiled : (s.compiler.compile program name).1 = .ok o
  started : ∃ p, link [o] = .ok p ∧ Machine.start p limits s.globals s.nextStamp = .ok m

/-- What an entry compiles to and the machine at its start, computed. -/
def Session.begin? (s : Session) (program : Program) (name : String) (limits : Limits) :
    Option (Object × Machine) := do
  let o ← (s.compiler.compile program name).1.toOption
  let m ← (Machine.start ⟨o.code, o.constants, o.spans⟩ limits s.globals s.nextStamp).toOption
  return (o, m)

/-- The same for the text of an entry, with the program that is read from it. -/
def Session.opens? (s : Session) (source : String) (limits : Limits) :
    Option (Program × Object × Machine) := do
  let program ← (parseSource source).toOption
  let (o, m) ← s.begin? program unitName limits
  return (program, o, m)

/-- The names that the compiler knows are bound as in `v`, and all functions in globals can be
called. -/
structure Session.Sound (s : Session) (v : OpenScopes) : Prop where
  ready : s.compiler.Ready v
  stamps : firstStamp ≤ s.nextStamp
  globals : ∀ u ∈ s.globals,
    u.All (World.Callable { pool := s.compiler.constants, globals := v.globals } s.nextStamp)

theorem Session.Sound.initial {limits : Limits} : ({ limits := limits } : Session).Sound {} :=
  ⟨.initial, Nat.le_refl _, by simp⟩

section Entries

variable {s : Session} {v : OpenScopes} {program : Program} {name : String} {o : Object}
  {limits : Limits} {m : Machine}

theorem Session.begins_of_begin? (h : s.begin? program name limits = some (o, m)) :
    s.Begins program name o limits m := by
  simp only [Session.begin?, Option.bind_eq_bind, Option.bind_eq_some_iff] at h
  obtain ⟨o', ho, m', hm, h⟩ := h
  cases h
  exact ⟨eq_ok_of_toOption ho, _, rfl, eq_ok_of_toOption hm⟩

theorem Session.begins_of_opens? {source : String}
    (h : s.opens? source limits = some (program, o, m)) :
    parseSource source = .ok program ∧ s.Begins program unitName o limits m := by
  simp only [Session.opens?, Option.bind_eq_bind, Option.bind_eq_some_iff] at h
  obtain ⟨program', hparsed, ⟨o', m'⟩, hbegin, h⟩ := h
  cases h
  exact ⟨eq_ok_of_toOption hparsed, begins_of_begin? hbegin⟩

/-- The world of an entry: the constants and globals that the compiler has when it is done. -/
def Session.world (s : Session) (program : Program) (name : String) : World where
  pool := (s.compiler.compile program name).2.constants
  globals := (s.compiler.compile program name).2.scopes.globals

theorem Session.Sound.extend (hs : s.Sound v) (program : Program) (name : String) :
    ∃ v', v.Extends v' ∧ (s.compiler.compile program name).2.Ready v' ∧
      v'.globals = (s.world program name).globals ∧
      s.compiler.constants.toList <+: (s.world program name).pool.toList ∧
      ∀ u ∈ s.globals, u.All ((s.world program name).Callable s.nextStamp) := by
  obtain ⟨v', hext, hready, hpre, -⟩ := hs.ready.compile program name
  refine ⟨v', hext, hready, hready.scopes.globals.symm, hpre,
    fun u hu => (hs.globals u hu).mono fun f hf => ?_⟩
  refine hf.extend hpre ?_ fun _ _ _ _ _ hknown => hknown
  exact Nat.le_trans hext.globals_le (Nat.le_of_eq hready.scopes.globals.symm)

theorem Limits.stack_pos (h : limits.validate = .ok ()) : 0 < limits.stack := by
  unfold Limits.validate at h
  split at h
  · cases h
  · omega

theorem Stack.holds_ofCapacity (n : Nat) : (Stack.ofCapacity n).Holds n [] :=
  ⟨by simp [Stack.live, Stack.ofCapacity], by simp [Stack.capacity, Stack.ofCapacity]⟩

theorem Session.Sound.begins (hs : s.Sound v) (h : s.Begins program name o limits m)
    (known : Nat → Function → List Value → Prop) (hmain : known mainStamp o.main [])
    (hknown : ∀ stamp, firstStamp ≤ stamp → ∀ body free, known stamp body free) :
    m.Sound { s.world program name with known := known } ∧ m.globals.size = limits.globals ∧
      m.nextStamp = s.nextStamp := by
  obtain ⟨p, hlink, hstart⟩ := h.started
  cases hlink
  obtain ⟨hvalid, hsize, rfl⟩ := Machine.start_eq hstart
  obtain ⟨v', -, hready, hglobals, -, hcallable⟩ := hs.extend program name
  obtain ⟨v₁, -, hready₁, -, hresult⟩ := hs.ready.compile program name
  rw [h.compiled] at hresult
  obtain ⟨hconstants, is, c, hslots, hsizes, hlists⟩ := hresult
  obtain ⟨final, hfinal, hlisted⟩ := hlists.listed hs.ready.outside hs.ready.main_below
  have hholds := Stack.holds_ofCapacity limits.stack
  refine ⟨⟨hconstants, ?_, hs.stamps, ?_, ?_, nofun, ?_⟩, by simp; omega, rfl⟩
  · change 0 < (Stack.ofCapacity limits.stack).capacity
    rw [hholds.capacity]
    exact Limits.stack_pos hvalid
  · intro u hu
    change u ∈ (Stack.ofCapacity limits.stack).live at hu
    simp [hholds.live] at hu
  · intro u hu
    rcases Array.mem_append.mp hu with hu | hu
    · exact (hcallable u hu).mono fun f hf => hf.extend (List.prefix_refl _) (Nat.le_refl _)
        fun stamp hstamp _ body free _ => hknown stamp hstamp body free
    · rw [Array.eq_of_mem_replicate hu]
      exact .null
  · intro f fs hf
    cases hf
    refine ⟨.start rfl ?_ (Machine.loaded_nil _ _), rfl, rfl, hmain, is,
      ⟨c.slots, 0, [], c.constants, false⟩, final, ?_, hfinal, rfl⟩
    · change (Stack.ofCapacity limits.stack).live.length = 0
      rw [hholds.live]
      rfl
    · refine ⟨hconstants ▸ hlisted, ?_, rfl, nofun, by simp⟩
      exact hslots.trans (hready₁.scopes.globals.symm)

theorem Machine.Sound.runFor {w : World} (hs : m.Sound w) (hw : ∀ stamp body free, w.known stamp body free)
    (fuel : Nat) :
    (∀ u ∈ (m.runFor fuel).2.globals, u.All (w.Callable (m.runFor fuel).2.nextStamp)) ∧
      m.nextStamp ≤ (m.runFor fuel).2.nextStamp := by
  have hcases := m.runFor_cases fuel
  rcases hr : m.runFor fuel with ⟨outcome, m'⟩
  rw [hr] at hcases
  cases outcome with
  | done =>
    obtain ⟨hs', -, hstamp⟩ := hs.steps hcases.1 fun stamp _ => hw stamp
    exact ⟨hs'.globals, hstamp⟩
  | running =>
    obtain ⟨hs', -, hstamp⟩ := hs.steps hcases fun stamp _ => hw stamp
    exact ⟨hs'.globals, hstamp⟩
  | failed e =>
    obtain ⟨m₁, hsteps, hf, hstep, -⟩ := hcases
    obtain ⟨hs₁, -, hstamp⟩ := hs.steps hsteps fun stamp _ => hw stamp
    obtain ⟨-, hglobals, hstamp', -⟩ := (hs₁.step hf (hw _)).of_error hstep
    refine ⟨fun u hu => World.all_mono (hs₁.globals u ?_) hstamp', Nat.le_trans hstamp hstamp'⟩
    exact hglobals ▸ hu

/-- After an entry, accepted or not, the session is sound: names keep their slots and constants their
indices. -/
theorem Session.Sound.eval (hs : s.Sound v) (source : String) :
    ∃ v', (s.eval source).2.Sound v' ∧ v.Extends v' ∧
      s.compiler.constants.toList <+: (s.eval source).2.compiler.constants.toList := by
  unfold Session.eval
  cases parseSource source with
  | error ds => exact ⟨v, hs, .refl v, List.prefix_refl _⟩
  | ok program =>
    obtain ⟨v', hext, hready, hglobals, hpre, hcallable⟩ := hs.extend program unitName
    simp only
    rcases hc : s.compiler.compile program unitName with ⟨errors | o, c⟩
    · exact ⟨v, hs, .refl v, List.prefix_refl _⟩
    · have hworld : s.world program unitName = { pool := c.constants, globals := v'.globals } := by
        rw [hglobals]
        simp only [Session.world, hc]
      rw [hc] at hready
      rw [hworld] at hcallable hpre
      simp only [link]
      cases hstart : Machine.start ⟨o.code, o.constants, o.spans⟩ s.limits s.globals s.nextStamp with
      | error e => exact ⟨v', ⟨hready, hs.stamps, hcallable⟩, hext, hpre⟩
      | ok m =>
        obtain ⟨hsound, -, hstamp⟩ := hs.begins ⟨by rw [hc], _, rfl, hstart⟩ (fun _ _ _ => True)
          trivial fun _ _ _ _ => trivial
        rw [hworld] at hsound
        obtain ⟨hleft, hnext⟩ := hsound.runFor (fun _ _ _ => trivial) m.fuel
        exact ⟨v', ⟨hready, Nat.le_trans hs.stamps (hstamp ▸ hnext), hleft⟩, hext, hpre⟩

theorem Session.Reachable.sound (h : s.Reachable) : ∃ v, s.Sound v := by
  induction h with
  | start limits => exact ⟨{}, .initial⟩
  | eval source _ ih =>
    obtain ⟨v, hs⟩ := ih
    obtain ⟨v', hs', -⟩ := hs.eval source
    exact ⟨v', hs'⟩

end Entries

end StackScript
