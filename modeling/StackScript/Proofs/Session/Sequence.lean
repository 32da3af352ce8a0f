import StackScript.Proofs.Compile.Sequence
import StackScript.Proofs.Machine.Relocated
import StackScript.Proofs.Session.Entries

/-! # A session as one program

Entries that run one after the other do what their statements do as one program. The program has the
code of every entry, moved behind that of the ones before it, and the same constants; between two
entries it stands where a new machine would start, with the globals that the entries so far have left.
-/

namespace StackScript

/-- A program compiles in a session to `o` and runs from `m₀` to its end in `m`; no `return` of its
top level runs. -/
structure Session.Enters (s : Session) (program : Program) (name : String) (o : Object)
    (m₀ m : Machine) : Prop where
  begins : s.Begins program name o s.limits m₀
  finishes : m₀.Finishes m
  quiet : m₀.NeverReturns

/-- The session behind an entry that has ended in `m`. -/
def Session.behind (s : Session) (program : Program) (name : String) (m : Machine) : Session :=
  { s with
    compiler := (s.compiler.compile program name).2
    globals := m.globals
    nextStamp := m.nextStamp }

/-- Programs are entered one after the other. They print `text` in all. -/
inductive Session.Plays (name : String) : Session → List Program → Session → String → Prop
  | nil {s : Session} : Plays name s [] s ""
  | cons {s s' : Session} {program : Program} {programs : List Program} {o : Object}
      {m₀ m : Machine} {text : String} : s.Enters program name o m₀ m →
      Plays name (s.behind program name m) programs s' text →
      Plays name s (program :: programs) s' (m.output ++ text)

/-- The machine stands at an offset of the top level of `w`, with at most one value on its stack.
Everything else is as at the start of an entry. -/
structure Machine.AtEntry (n : Machine) (w : Object) (offset : Nat) (s : Session) (l : List Value) :
    Prop where
  frames : n.frames = [⟨mainStamp, w.main, [], offset, 0⟩]
  constants : n.constants = w.constants
  holds : n.stack.Holds s.limits.stack l
  value : l.length ≤ 1
  globals : n.globals = s.globals ++ Array.replicate (s.limits.globals - s.globals.size) .null
  limits : n.limits = s.limits
  stamp : n.nextStamp = s.nextStamp

/-- From an offset on, the listing `all` of an object is that of the statements `rest`. -/
def Object.Leaves (w : Object) (all : List Item) (v : OpenScopes) (first offset : Nat)
    (rest : List Stmt) : Prop :=
  ∃ before is s, all = before ++ is ∧ ProgramCode w.constants v.env ⟨offset, v.globals, first⟩ rest is s ∧
    s.offset = w.code.size

section Entries

variable {s s' : Session} {v v' : OpenScopes} {program : Program} {programs : List Program}
  {name text : String} {o w : Object} {m₀ m n : Machine} {all is : List Item} {first offset : Nat}
  {rest : List Stmt} {l : List Value}

theorem Machine.Finishes.steps (h : m₀.Finishes m) : m₀.Steps m ∧ m.frames = [] := by
  obtain ⟨fuel, hfuel⟩ := h
  have hcases := m₀.runFor_cases fuel
  rwa [hfuel fuel (Nat.le_refl _)] at hcases

theorem Session.Begins.compile_eq (h : s.Begins program name o s.limits m₀) :
    s.compiler.compile program name = (.ok o, (s.compiler.compile program name).2) :=
  Prod.ext h.compiled rfl

theorem Session.Begins.atEntry (h : s.Begins program name o s.limits m₀) :
    m₀.AtEntry o 0 s [] ∧ m₀.Within s.limits ∧ m₀.executed = 0 ∧ m₀.output = "" := by
  obtain ⟨p, hlink, hstart⟩ := h.started
  cases hlink
  have hwithin := Machine.start_within hstart
  obtain ⟨-, -, rfl⟩ := Machine.start_eq hstart
  exact ⟨⟨rfl, rfl, Stack.holds_ofCapacity _, Nat.zero_le _, rfl, rfl, rfl⟩, hwithin, rfl, rfl⟩

theorem Session.Sound.behind (hs : s.Sound v) (h : s.Enters program name o m₀ m)
    (hready : (s.compiler.compile program name).2.Ready v') :
    (s.behind program name m).Sound v' := by
  obtain ⟨hsound, -, hstamp⟩ := hs.begins h.begins (fun _ _ _ => True) trivial fun _ _ _ _ => trivial
  obtain ⟨hsound', -, hnext⟩ := hsound.steps h.finishes.steps.1 fun _ _ _ _ => trivial
  have hglobals : v'.globals = (s.world program name).globals := hready.scopes.globals.symm
  refine ⟨hready, Nat.le_trans hs.stamps (hstamp ▸ hnext), ?_⟩
  rw [hglobals]
  exact hsound'.globals

theorem Session.Plays.sound (h : s.Plays name programs s' text) (hs : s.Sound v) :
    ∃ v', s'.Sound v' ∧ s.compiler.constants.toList <+: s'.compiler.constants.toList := by
  induction h generalizing v with
  | nil => exact ⟨v, hs, List.prefix_refl _⟩
  | cons hentry _ ih =>
    obtain ⟨v₁, -, hready, -, hpre, -⟩ := hs.extend _ _
    obtain ⟨v', hs', hpre'⟩ := ih (hs.behind hentry hready)
    exact ⟨v', hs', hpre.trans hpre'⟩

theorem Session.Enters.constants (h : s.Enters program name o m₀ m) (hs : s.Sound v) :
    o.constants = (s.behind program name m).compiler.constants := by
  obtain ⟨_, _, _, -, hconstants, -⟩ := hs.ready.compile_ok h.begins.compile_eq
  exact hconstants

theorem Session.Plays.limits_eq (h : s.Plays name programs s' text) : s'.limits = s.limits := by
  induction h with
  | nil => rfl
  | cons _ _ ih => exact ih

/-- The statements of all entries, compiled as one program, leave the compiler of the session. -/
theorem Session.Plays.alike {d d' : Compiler} (h : s.Plays name programs s' text)
    (ha : Compiler.Alike { s.compiler with unit := {} } d)
    (hd : Compile.statements (programs.flatMap (·.statements)) d = (.ok (), d')) :
    Compiler.Alike { s'.compiler with unit := {} } d' := by
  induction h generalizing d with
  | nil =>
    cases hd
    exact ha
  | cons hentry _ ih =>
    rw [List.flatMap_cons] at hd
    obtain ⟨d₁, hd₁, hd'⟩ := statements_append.mp hd
    exact ih (ha.behind hentry.begins.compile_eq hd₁) hd'

theorem Listed.includes {pool : Array Value} {f : Function} {x : Extent} {final d : Nat}
    (hall : Listed pool f all x final) (hmem : ∀ i ∈ is, i.shift d ∈ all) :
    f.code.Includes d is := by
  intro i hi
  have hdecode := hall.decode (hmem i hi)
  have hbound : i.offset + d + i.op.length ≤ f.code.size :=
    (hall.flows.tiled.bounds (hmem i hi)).2
  have hpos := i.op.length_pos
  refine ⟨by omega, ?_⟩
  rw [Nat.add_right_comm]
  exact hdecode

/-- The part of an entry, and what follows it: if anything does, the value of the entry is dropped
first. -/
theorem Object.Leaves.split {c c₁ : Compiler} {x : Extent} {final : Nat}
    (h : w.Leaves all v c.constants.size offset (program.statements ++ rest))
    (hall : Listed w.constants w.main all x final) (hc : c.Ready v)
    (hcompile : c.compile program name = (.ok o, c₁)) :
    ∃ v' is t offset', c₁.Ready v' ∧ o.Lists v c.constants.size program.statements is t ∧
      w.Leaves all v' c₁.constants.size offset' rest ∧ w.code.Includes offset is ∧
      (ending program.statements = .value ∧ rest ≠ [] ∧
          w.code.decode (o.code.size + offset) = .ok (⟨.pop, []⟩, offset') ∨
        (ending program.statements ≠ .value ∨ rest = []) ∧ offset' = o.code.size + offset) := by
  obtain ⟨v', is, t, hready, hconstants, hslots, hsize, hlists, is₀, t₀, hscope⟩ :=
    hc.compile_ok hcompile
  have hinner : v.env.inner = [] := by simp [OpenScopes.env, hc.outside]
  have hend : t.offset = o.code.size :=
    size_eq_of_tiled hlists.listing.flows_ending.tiled hlists.fits hlists.code
  have hshift : (⟨offset, v.globals, c.constants.size⟩ : Cursor) =
      Cursor.shift offset ⟨0, v.globals, c.constants.size⟩ := by simp [Cursor.shift]
  obtain ⟨before, js, u, rfl, hcode, hu⟩ := h
  by_cases hrest : rest = []
  · subst hrest
    rw [List.append_nil] at hcode
    obtain ⟨rfl, rfl⟩ := hlists.listing.moved hinner hshift hcode
    refine ⟨v', is, t, t.offset + offset, hready, hlists, ?_, hall.includes ?_, ?_⟩
    · exact ⟨_, [], _, (List.append_nil _).symm, .other (by simp [ending]) .nil, hu⟩
    · intro i hi
      exact List.mem_append_right _ (List.mem_map_of_mem hi)
    · exact .inr ⟨.inr rfl, by rw [hend]⟩
  · obtain ⟨is₁, t₁, env₁, is₂, hfirst, hnext, rfl⟩ := hcode.split hrest
    obtain rfl : env₁ = v'.env := hscope.env_eq (.refl _) hshift hfirst
    have hleaves (hslots₁ : t₁.slots = v'.globals) (hsize₁ : t₁.constants = c₁.constants.size) :
        w.Leaves (before ++ (is₁ ++ is₂)) v' c₁.constants.size t₁.offset rest := by
      refine ⟨before ++ is₁, is₂, u, (List.append_assoc ..).symm, ?_, hu⟩
      rw [← hslots₁, ← hsize₁]
      exact hnext
    rcases hlists.listing.moved_stmts hinner hshift hfirst with
      ⟨he, rfl, i, hi, hio, rfl⟩ | ⟨he, rfl, rfl⟩
    · have hdecode := hall.decode (i := i) (by simp)
      rw [hi, hio, hend] at hdecode
      refine ⟨v', is, t, _, hready, hlists, hleaves hslots hsize, hall.includes ?_,
        .inl ⟨he, hrest, hdecode.trans (by rw [← hend]; rfl)⟩⟩
      intro j hj
      simp [List.mem_map_of_mem hj]
    · refine ⟨v', is, t, _, hready, hlists, hleaves hslots hsize, hall.includes ?_,
        .inr ⟨.inl he, congrArg (· + offset) hend⟩⟩
      intro j hj
      simp [List.mem_map_of_mem hj]

theorem Object.Lists.code_of_empty {t : Cursor} (h : o.Lists v first [] is t) : o.code = #[] := by
  have hcode := h.code
  cases h.listing with
  | value h => cases h
  | other _ h =>
    cases h
    simpa [assemble] using hcode

theorem Session.Enters.of_empty (h : s.Enters program name o m₀ m) (hcode : o.code = #[]) :
    m.globals = m₀.globals ∧ m.nextStamp = m₀.nextStamp ∧ m.output = m₀.output := by
  obtain ⟨hsteps, hend⟩ := h.finishes.steps
  obtain ⟨hat, -⟩ := h.begins.atEntry
  have hsize : 0 = o.main.code.size := (congrArg Array.size hcode).symm
  cases hsteps with
  | refl => simp [hat.frames] at hend
  | step hne hstep hrest =>
    have hleft := Exec.step_end hat.frames hsize
      (Exec.leave_end_gives hat.frames hat.holds hat.value)
    obtain ⟨_, -, -, rfl⟩ := hleft.of_ok hstep
    obtain rfl := hrest.of_ended rfl
    exact ⟨rfl, rfl, rfl⟩

theorem Session.Enters.globals (h : s.Enters program name o m₀ m) :
    (s.behind program name m).globals ++ Array.replicate
      ((s.behind program name m).limits.globals - (s.behind program name m).globals.size) .null =
      m.globals := by
  obtain ⟨-, hwithin, -⟩ := h.begins.atEntry
  have hsize := (hwithin.steps h.finishes.steps.1).globals
  change m.globals ++ Array.replicate (s.limits.globals - m.globals.size) .null = m.globals
  simp [hsize]

/-- The program does what an entry does, up to the end of its part, and leaves the value of the
entry on the stack. -/
theorem Machine.AtEntry.enter {t : Cursor} (hn : n.AtEntry w offset s []) (hs : s.Sound v)
    (hfree : s.limits.budget = none) (hentry : s.Enters program name o m₀ m)
    (hlists : o.Lists v s.compiler.constants.size program.statements is t)
    (hincludes : w.code.Includes offset is) (hpool : o.constants.toList <+: w.constants.toList) :
    ∃ n' l, n.Steps n' ∧ n'.AtEntry w (o.code.size + offset) (s.behind program name m) l ∧
      n'.output = n.output ++ m.output ∧ l.length = (ending program.statements).height ∧
      ∀ u, l = [u] → m.lastPopped = u := by
  obtain ⟨hat, hwithin, hexecuted, houtput⟩ := hentry.begins.atEntry
  obtain ⟨hsteps, hend⟩ := hentry.finishes.steps
  have hlisted := hlists.listed_ending hs.ready.outside hs.ready.main_below
  obtain ⟨extra, hextra⟩ := hpool
  let known (stamp : Nat) (body : Function) (free : List Value) : Prop :=
    stamp = mainStamp → body = o.main ∧ free = []
  have hfresh (stamp : Nat) (hstamp : firstStamp ≤ stamp) (body : Function) (free : List Value) :
      known stamp body free := fun h => absurd hstamp (by rw [h]; decide)
  obtain ⟨hsound, -, -⟩ := hs.begins hentry.begins known (fun _ => ⟨rfl, rfl⟩) hfresh
  have hconstants : m₀.constants ++ extra.toArray = w.constants := by
    rw [hat.constants, ← Array.toList_inj, ← hextra]
    simp
  have hbeside : m₀.Beside (.inside w.main offset extra.toArray n.executed n.output) n := by
    refine ⟨n.stack, hat.holds.sameLive hn.holds, ?_⟩
    obtain ⟨constants, stack, frames, globals, limits, executed, nextStamp, output⟩ := n
    obtain ⟨rfl, rfl, -, -, rfl, rfl, rfl⟩ := hn
    simp [Machine.widen, Margin.inside, relocate, hconstants, hat.frames, hat.globals, hat.limits,
      hat.stamp, hexecuted, houtput]
  obtain ⟨m₁, n₁, hm₁, hn₁, hbeside₁, hframes₁, hstep⟩ := hsteps.inside hend (by simp [hat.frames])
    hsound (fun _ _ _ => Iff.rfl) hwithin hfree hentry.quiet (hsound.constants ▸ hat.constants ▸ hlisted)
    rfl hincludes hbeside
  obtain ⟨s₁, hsame, rfl⟩ := hbeside₁
  obtain ⟨hsound₁, -, -⟩ := hsound.steps hm₁ fun stamp hstamp =>
    hfresh stamp (Nat.le_trans hsound.stamps hstamp)
  have hwithin₁ := hwithin.steps hm₁
  have hholds : m₁.stack.Holds s.limits.stack m₁.stack.live := ⟨rfl, hwithin₁.capacity⟩
  have hheight : m₁.stack.live.length = (ending program.statements).height := by
    have hlisted₁ : Listed (s.world program name).pool o.main is _ _ :=
      hsound.constants ▸ hat.constants ▸ hlisted
    obtain ⟨height, loaded, hsp, hstands, -⟩ := (hsound₁.frames _ _ hframes₁).1 is _ _ hlisted₁
    have hfinal := hlisted₁.height_at_end (f := ⟨mainStamp, o.main, [], o.main.code.size, 0⟩) rfl hstands
    have hlocals : o.main.locals = 0 := rfl
    simp only [hlocals] at hsp
    omega
  have hone : m₁.stack.live.length ≤ 1 := hheight ▸ Ending.height_le _
  have hleft := Exec.step_end hframes₁ rfl (Exec.leave_end_gives hframes₁ hholds hone)
  obtain ⟨s₂, -, hlast, rfl⟩ := hleft.of_ok hstep
  refine ⟨_, m₁.stack.live, hn₁, ⟨?_, ?_, hsame.holds hholds, hone, ?_, ?_, rfl⟩, rfl, hheight, hlast⟩
  · simp [Machine.widen, Margin.inside, relocate, hframes₁]
    rfl
  · rw [← hconstants, hsound.constants, ← hsound₁.constants]
    rfl
  · rw [hentry.globals]
    simp [Machine.widen, Margin.inside]
  · simp [Machine.widen, Margin.inside, hwithin₁.limits]
    rfl

theorem Machine.AtEntry.drop {u : Value} {next : Nat} (hn : n.AtEntry w offset s [u])
    (hfree : s.limits.budget = none) (hdecode : w.code.decode offset = .ok (⟨.pop, []⟩, next)) :
    ∃ n', n.Steps n' ∧ n'.AtEntry w next s [] ∧ n'.output = n.output := by
  have hlt : offset < w.main.code.size := by
    rcases Nat.lt_or_ge offset w.code.size with hlt | hge
    · exact hlt
    · simp [Code.decode, hge] at hdecode
  have hbudget : ∀ b, n.limits.budget ≠ some b := by simp [hn.limits, hfree]
  have hpops : Gives Exec.step n (fun _ n' => n'.AtEntry w next s [] ∧ n'.output = n.output)
      fun _ _ => False := by
    refine Exec.step_gives hn.frames hlt hdecode (fun b hb => hbudget b hb) ?_
    refine (Exec.pop_gives (l := []) (m := n.fetched _ _ next) hn.holds).discarded.mono ?_
      fun _ _ h => h
    rintro _ _ ⟨_, -, ⟨stack, hstack, rfl⟩, -⟩
    exact ⟨⟨rfl, hn.constants, hstack, Nat.zero_le _, hn.globals, hn.limits, hn.stamp⟩, rfl⟩
  rcases hstep : Exec.step n with ⟨e | _, n'⟩
  · exact (hpops.of_error hstep).elim
  · exact ⟨n', .step (by simp [hn.frames]) hstep .refl, hpops.of_ok hstep⟩

/-- What the next entry leaves, the program leaves behind its part. A value stays on the stack only
at the end of the program. -/
theorem Machine.AtEntry.enters {x : Extent} {final : Nat} (hn : n.AtEntry w offset s l)
    (hs : s.Sound v) (hfree : s.limits.budget = none)
    (hall : Listed w.constants w.main all x final)
    (hleaves : w.Leaves all v s.compiler.constants.size offset (program.statements ++ rest))
    (hl : program.statements ++ rest ≠ [] → l = []) (hentry : s.Enters program name o m₀ m)
    (hpool : o.constants.toList <+: w.constants.toList) :
    ∃ v' offset' n' l', n.Steps n' ∧ n'.AtEntry w offset' (s.behind program name m) l' ∧
      n'.output = n.output ++ m.output ∧ (s.behind program name m).Sound v' ∧
      w.Leaves all v' (s.behind program name m).compiler.constants.size offset' rest ∧
      (rest ≠ [] → l' = []) ∧
      (ending program.statements = .value → rest = [] → l' = [m.lastPopped]) := by
  obtain ⟨v', is, t, offset', hready, hlists, hleaves', hincludes, hcases⟩ :=
    hleaves.split hall hs.ready hentry.begins.compile_eq
  have hsound := hs.behind hentry hready
  by_cases hempty : program.statements = []
  · rw [hempty] at hlists hcases hl
    have hcode := hlists.code_of_empty
    obtain ⟨hglobals, hstamp, houtput⟩ := hentry.of_empty hcode
    obtain ⟨hat, -, -, houtput₀⟩ := hentry.begins.atEntry
    obtain rfl : offset' = offset := by
      rcases hcases with ⟨h, -⟩ | ⟨-, h⟩
      · cases h
      · simpa [hcode] using h
    refine ⟨v', offset', n, l, .refl, ⟨hn.frames, hn.constants, hn.holds, hn.value, ?_, hn.limits, ?_⟩,
      by simp [houtput, houtput₀], hsound, hleaves', by simpa using hl, fun h => ?_⟩
    · rw [hentry.globals, hglobals, hat.globals, hn.globals]
    · exact hn.stamp.trans (hat.stamp.symm.trans hstamp.symm)
    · rw [hempty] at h
      cases h
  · obtain rfl := hl (by simp [hempty])
    obtain ⟨n₁, l₁, hsteps, hn₁, houtput, hlength, hlast⟩ :=
      hn.enter hs hfree hentry hlists hincludes hpool
    rcases hcases with ⟨hvalue, hrest, hdecode⟩ | ⟨hother, rfl⟩
    · obtain ⟨u, rfl⟩ := List.length_eq_one_iff.mp (by rw [hlength, hvalue]; rfl)
      obtain ⟨n₂, hsteps₂, hn₂, houtput₂⟩ := hn₁.drop hfree hdecode
      exact ⟨v', offset', n₂, [], hsteps.trans hsteps₂, hn₂, houtput₂.trans houtput, hsound, hleaves',
        fun _ => rfl, fun _ h => absurd h hrest⟩
    · refine ⟨v', _, n₁, l₁, hsteps, hn₁, houtput, hsound, hleaves', fun hrest => ?_, fun hvalue _ => ?_⟩
      · have hzero : (ending program.statements).height = 0 := by
          cases h : ending program.statements with
          | value => exact absurd h (hother.resolve_right hrest)
          | _ => rfl
        exact List.length_eq_zero_iff.mp (hlength.trans hzero)
      · obtain ⟨u, rfl⟩ := List.length_eq_one_iff.mp (by rw [hlength, hvalue]; rfl)
        rw [hlast u rfl]

/-- What entries leave one after the other, the program leaves behind their parts. -/
theorem Session.Plays.runs {x : Extent} {final : Nat} (h : s.Plays name programs s' text)
    (hn : n.AtEntry w offset s l) (hs : s.Sound v) (hfree : s.limits.budget = none)
    (hall : Listed w.constants w.main all x final)
    (hleaves : w.Leaves all v s.compiler.constants.size offset
      (programs.flatMap (·.statements) ++ rest))
    (hl : programs.flatMap (·.statements) ++ rest ≠ [] → l = [])
    (hpool : s'.compiler.constants.toList <+: w.constants.toList) :
    ∃ v' offset' n' l', n.Steps n' ∧ n'.AtEntry w offset' s' l' ∧ n'.output = n.output ++ text ∧
      s'.Sound v' ∧ w.Leaves all v' s'.compiler.constants.size offset' rest ∧
      (rest ≠ [] → l' = []) := by
  induction h generalizing n v offset l with
  | nil => exact ⟨v, offset, n, l, .refl, hn, by simp, hs, hleaves, hl⟩
  | @cons s s' program programs o m₀ m text hentry hplays ih =>
    rw [List.flatMap_cons, List.append_assoc] at hleaves hl
    obtain ⟨_, -, hready, -⟩ := hs.extend program name
    obtain ⟨_, -, hlater⟩ := hplays.sound (hs.behind hentry hready)
    obtain ⟨v₁, offset₁, n₁, l₁, hsteps₁, hn₁, houtput₁, hs₁, hleaves₁, hl₁, -⟩ :=
      hn.enters hs hfree hall hleaves hl hentry (hentry.constants hs ▸ hlater.trans hpool)
    obtain ⟨v', offset', n', l', hsteps, hn', houtput, hs', hleaves', hl'⟩ :=
      ih hn₁ hs₁ hfree hleaves₁ hl₁ hpool
    refine ⟨v', offset', n', l', hsteps₁.trans hsteps, hn', ?_, hs', hleaves', hl'⟩
    rw [houtput, houtput₁, String.append_assoc]

theorem Machine.AtEntry.finish (hn : n.AtEntry w w.code.size s l) :
    ∃ n', n.Steps n' ∧ n'.frames = [] ∧ n'.globals = n.globals ∧ n'.output = n.output ∧
      n'.nextStamp = n.nextStamp ∧ ∀ u, l = [u] → n'.lastPopped = u := by
  have hleft := Exec.step_end hn.frames rfl (Exec.leave_end_gives hn.frames hn.holds hn.value)
  rcases hstep : Exec.step n with ⟨e | _, n'⟩
  · exact (hleft.of_error hstep).elim
  · obtain ⟨stack, -, hlast, rfl⟩ := hleft.of_ok hstep
    exact ⟨_, .step (by simp [hn.frames]) hstep .refl, rfl, rfl, rfl, rfl, hlast⟩

theorem Object.Leaves.at_end (h : w.Leaves all v first offset []) : offset = w.code.size := by
  obtain ⟨_, _, _, -, hcode, hsize⟩ := h
  cases hcode with
  | value h => cases h
  | other _ h =>
    cases h
    exact hsize

theorem ending_of_getLast? {ss : List Stmt} {st : Stmt} (h : ss.getLast? = some st) :
    ending ss = st.ending := by
  obtain ⟨init, rfl⟩ := List.getLast?_eq_some_iff.mp h
  exact ending_append (List.cons_ne_nil _ _)

end Entries

/-- Code without a `return`. -/
def Code.returnless (code : Code) : Bool :=
  code.instructions.all (·.toOption.all fun i => i.2.op ≠ .ret ∧ i.2.op ≠ .retValue)

/-- A program without a `return` at its top level is never left by one. -/
theorem Session.Sound.neverReturns {s : Session} {v : OpenScopes} {program : Program} {name : String}
    {o : Object} {m₀ : Machine} (hs : s.Sound v) (h : s.Begins program name o s.limits m₀)
    (hcode : o.code.returnless = true) : m₀.NeverReturns := by
  intro m f i hsteps hf hi
  have hfresh (stamp : Nat) (hstamp : firstStamp ≤ stamp) (body : Function) (_ : List Value) :
      stamp = mainStamp → body = o.main := fun h => absurd hstamp (by rw [h]; decide)
  obtain ⟨hsound, -, -⟩ := hs.begins h (fun stamp body _ => stamp = mainStamp → body = o.main)
    (fun _ => rfl) hfresh
  obtain ⟨hsound', -, -⟩ := hsound.steps hsteps fun stamp hstamp =>
    hfresh stamp (Nat.le_trans hsound.stamps hstamp)
  obtain ⟨-, hstamp, hknown, -⟩ := (hsound'.frames f [] hf).2
  rw [hknown hstamp] at hi
  simpa [Except.toOption] using List.all_eq_true.mp hcode _ hi

/-- What an entry without a `return` at its top level compiles to and the machines at its start and
at its end, computed in `fuel` steps. -/
def Session.enter? (s : Session) (program : Program) (name : String) (fuel : Nat) :
    Option (Object × Machine × Machine) :=
  (s.begin? program name s.limits).bind fun begun =>
    if begun.1.code.returnless ∧ (begun.2.runFor fuel).1 = .done then
      some (begun.1, begun.2, (begun.2.runFor fuel).2)
    else none

theorem Session.Sound.enters {s : Session} {v : OpenScopes} {program : Program} {name : String}
    {fuel : Nat} {entry : Object × Machine × Machine} (hs : s.Sound v)
    (h : s.enter? program name fuel = some entry) :
    s.Enters program name entry.1 entry.2.1 entry.2.2 := by
  obtain ⟨⟨o, m₀⟩, hbegun, hentry⟩ := Option.bind_eq_some_iff.mp h
  have hbegins := Session.begins_of_begin? hbegun
  split at hentry
  · next hdone =>
    cases hentry
    refine ⟨hbegins, ?_, hs.neverReturns hbegins hdone.1⟩
    have hcases := m₀.runFor_cases fuel
    rcases hrun : m₀.runFor fuel with ⟨outcome, m⟩
    obtain rfl : outcome = .done := by simpa [hrun] using hdone.2
    rw [hrun] at hcases
    exact hcases.1.finishes hcases.2
  · cases hentry

/-- The entries of a session are one program. It has the constants of the last entry, its run ends,
with the globals that the last entry leaves and the output of all of them; and if the last entry has a
value, with that. -/
theorem Session.plays_as_one {limits : Limits} (hfree : limits.budget = none) {name unit : String}
    {programs : List Program} {last whole : Program} {s : Session} {text : String} {o w : Object}
    {m₀ m : Machine} {c : Compiler}
    (hplays : ({ limits := limits } : Session).Plays name programs s text)
    (hlast : s.Enters last name o m₀ m)
    (hwhole : whole.statements = (programs ++ [last]).flatMap (·.statements))
    (hcompile : Compiler.compile {} whole unit = (.ok w, c)) :
    w.constants = o.constants ∧
    ∃ p n₀ n, link [w] = .ok p ∧ Machine.start p limits #[] firstStamp = .ok n₀ ∧
      n₀.Finishes n ∧ n.globals = m.globals ∧ n.output = text ++ m.output ∧
      n.nextStamp = m.nextStamp ∧
      ∀ e span, last.statements.getLast? = some (.expr e span) → n.lastPopped = m.lastPopped := by
  obtain ⟨v₁, all, t, -, -, -, -, hlists, -⟩ := Compiler.Ready.initial.compile_ok hcompile
  have hall := hlists.listed_ending rfl Compiler.Ready.initial.main_below
  obtain ⟨v, hs, -⟩ := hplays.sound .initial
  rw [List.flatMap_append, List.flatMap_singleton] at hwhole
  have hpool : w.constants = o.constants := by
    obtain ⟨d, hd, -, hconstants, -⟩ := Compiler.statements_of_compile hcompile
    rw [hwhole] at hd
    obtain ⟨d₁, hd₁, hd₂⟩ := statements_append.mp hd
    have halike := (hplays.alike ⟨rfl, rfl⟩ hd₁).behind hlast.begins.compile_eq hd₂
    rw [hconstants, halike.constants, hlast.constants hs]
    rfl
  have hpre : s.compiler.constants.toList <+: w.constants.toList := by
    obtain ⟨_, -, -, -, hpre, -⟩ := hs.extend last name
    rw [hpool, hlast.constants hs]
    exact hpre
  refine ⟨hpool, ?_⟩
  have hlimits : s.limits = limits := hplays.limits_eq
  obtain ⟨n₀, hstart⟩ : ∃ n₀, Machine.start ⟨w.code, w.constants, w.spans⟩ limits #[] firstStamp =
      .ok n₀ := by
    obtain ⟨p, -, hstart⟩ := hlast.begins.started
    obtain ⟨hvalid, -⟩ := Machine.start_eq hstart
    exact Machine.start_isOk _ _ (hlimits ▸ hvalid) (Nat.zero_le _)
  have hbegins : ({ limits := limits } : Session).Begins whole unit w limits n₀ :=
    ⟨congrArg Prod.fst hcompile, _, rfl, hstart⟩
  obtain ⟨hat, -, -, houtput₀⟩ := hbegins.atEntry
  have hleaves : w.Leaves all {} 0 0 (programs.flatMap (·.statements) ++ last.statements) :=
    ⟨[], all, t, rfl, hwhole ▸ hlists.listing,
      size_eq_of_tiled hlists.listing.flows_ending.tiled hlists.fits hlists.code⟩
  obtain ⟨v₂, offset₂, n₂, l₂, hsteps₂, hn₂, houtput₂, hs₂, hleaves₂, hl₂⟩ :=
    hplays.runs hat .initial hfree hall hleaves (fun _ => rfl) hpre
  obtain ⟨v₃, offset₃, n₃, l₃, hsteps₃, hn₃, houtput₃, -, hleaves₃, -, hvalue⟩ :=
    hn₂.enters hs₂ (hlimits ▸ hfree) hall (by rwa [List.append_nil]) (by simpa using hl₂) hlast
      (hpool ▸ List.prefix_refl _)
  obtain rfl := hleaves₃.at_end
  obtain ⟨n, hsteps, hend, hglobals, houtput, hstamp, hpopped⟩ := hn₃.finish
  refine ⟨_, n₀, n, rfl, hstart, (hsteps₂.trans (hsteps₃.trans hsteps)).finishes hend, ?_, ?_, ?_, ?_⟩
  · rw [hglobals, hn₃.globals, hlast.globals]
  · rw [houtput, houtput₃, houtput₂, houtput₀, String.empty_append]
  · exact hstamp.trans hn₃.stamp
  · intro e span he
    exact hpopped _ (hvalue (ending_of_getLast? he) rfl)

/-- The second entry calls a function of the first one, which writes to a global and prints it. -/
theorem Session.plays_as_one_conditionals :
    let limits : Limits := ⟨16, 4, 4, none⟩
    let define :=
      "let total = 0; let add = fn(n) \x7b total = total + n; puts(total); total \x7d; add(3);"
    let call := "if (total > 2) \x7b add(4) \x7d else \x7b 0 \x7d"
    ∃ first last s text o m₀ m w c, parseSource define = .ok first ∧ parseSource call = .ok last ∧
      ({ limits := limits } : Session).Plays unitName [first] s text ∧ s.Enters last unitName o m₀ m ∧
      Compiler.compile {} ⟨first.statements ++ last.statements⟩ unitName = (.ok w, c) ∧
      w.constants = o.constants ∧
      ∃ p n₀ n, link [w] = .ok p ∧ Machine.start p limits #[] firstStamp = .ok n₀ ∧
        n₀.Finishes n ∧ n.globals = m.globals ∧ n.output = text ++ m.output ∧ m.output = "7\n" ∧
        n.lastPopped = m.lastPopped ∧ n.lastPopped.display = "7" := by
  intro limits define call
  let s₀ : Session := { limits := limits }
  have hcomputed : ((parseSource define).toOption.any fun first =>
      (parseSource call).toOption.any fun last =>
        (((s₀.enter? first unitName 40).any fun entry =>
          ((s₀.behind first unitName entry.2.2).enter? last unitName 40).any fun entry =>
            decide (entry.2.2.output = "7\n" ∧ entry.2.2.lastPopped.display = "7")) &&
          (Compiler.compile {} ⟨first.statements ++ last.statements⟩ unitName).1.toBool &&
          last.statements.getLast?.any (·.ending = .value))) = true := by
    decide +kernel
  obtain ⟨first, hfirst, hcomputed⟩ := (Option.any_eq_true ..).mp hcomputed
  obtain ⟨last, hlast, hcomputed⟩ := (Option.any_eq_true ..).mp hcomputed
  obtain ⟨hcomputed, hends⟩ := (Bool.and_eq_true ..).mp hcomputed
  obtain ⟨hentries, hwhole⟩ := (Bool.and_eq_true ..).mp hcomputed
  obtain ⟨entry, hentry, hlater⟩ := (Option.any_eq_true ..).mp hentries
  obtain ⟨entry', hentry', hresult⟩ := (Option.any_eq_true ..).mp hlater
  obtain ⟨st, hst, hvalue⟩ := (Option.any_eq_true ..).mp hends
  obtain ⟨houtput, hdisplay⟩ := of_decide_eq_true hresult
  obtain ⟨e, span, rfl⟩ : ∃ e span, st = .expr e span := by
    cases st with
    | expr e span => exact ⟨e, span, rfl⟩
    | _ => cases hvalue
  have hplays : s₀.Plays unitName [first] _ _ := .cons (Session.Sound.initial.enters hentry) .nil
  obtain ⟨v, hs, -⟩ := hplays.sound .initial
  have henters := hs.enters hentry'
  rcases hcompile : Compiler.compile {} ⟨first.statements ++ last.statements⟩ unitName with
    ⟨errors | w, c⟩
  · simp [hcompile, Except.toBool] at hwhole
  · obtain ⟨hpool, p, n₀, n, hlink, hstart, hfinishes, hglobals, hprinted, -, hpopped⟩ :=
      Session.plays_as_one rfl hplays henters (by simp) hcompile
    have hsame := hpopped e span hst
    exact ⟨first, last, _, _, _, _, _, w, c, eq_ok_of_toOption hfirst, eq_ok_of_toOption hlast, hplays,
      henters, hcompile, hpool, p, n₀, n, hlink, hstart, hfinishes, hglobals, hprinted, houtput, hsame,
      hsame ▸ hdisplay⟩

end StackScript
