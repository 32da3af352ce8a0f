import StackScript.Proofs.Machine.Bounds
import StackScript.Proofs.Session.Capture

/-! # Sessions grow

What a session has, later entries add to and never take away: constants keep their indices and names
their slots, so that a closure of an earlier entry goes on reading what it was compiled to read. An
entry that is rejected leaves no trace.
-/

namespace StackScript

/-- The slot of a name that is bound to a global at the top level. -/
def Compiler.globalSlot? (c : Compiler) (name : String) : Option Nat :=
  ((c.scopes.main.root.find? name).filter (·.storage = .globalSlot)).map (·.index)

theorem Compiler.Ready.globalSlot?_eq_some {c : Compiler} {v : OpenScopes} (h : c.Ready v)
    {name : String} {i : Nat} :
    c.globalSlot? name = some i ↔ v.main.root.lookup name = some (.slot i) := by
  have hroot := h.scopes.main.root
  rw [← hroot.binding name, Compiler.globalSlot?]
  cases hs : c.scopes.main.root.find? name with
  | none => simp
  | some s =>
    rcases hroot.ok name s hs with hslot | ⟨hbuiltin, -⟩
    · simp [Option.filter, Symbol.binding?, hslot.storage]
    · simp [Option.filter, Symbol.binding?, hbuiltin]

/-- The session that comes later has all constants and names of the earlier one; the names that are
new have slots of their own. -/
structure Session.Continues (s s' : Session) : Prop where
  constants : s.compiler.constants.toList <+: s'.compiler.constants.toList
  kept : ∀ name i, s.compiler.globalSlot? name = some i → s'.compiler.globalSlot? name = some i
  added : ∀ name i, s'.compiler.globalSlot? name = some i →
    s.compiler.globalSlot? name = some i ∨ s.compiler.scopes.globals ≤ i

theorem Session.Sound.continues {s s' : Session} {v v' : OpenScopes} (h : s.Sound v)
    (h' : s'.Sound v') (hext : v.Extends v')
    (hpre : s.compiler.constants.toList <+: s'.compiler.constants.toList) : s.Continues s' where
  constants := hpre
  kept name i hi := by
    rw [h.ready.globalSlot?_eq_some] at hi
    rw [h'.ready.globalSlot?_eq_some]
    exact hext.main.kept name i hi
  added name i hi := by
    rw [h'.ready.globalSlot?_eq_some] at hi
    rw [h.ready.globalSlot?_eq_some, h.ready.scopes.globals]
    exact hext.main.added name i hi

/-! ## Entries one after the other -/

def Session.after (s : Session) (sources : List String) : Session :=
  sources.foldl (fun s source => (s.eval source).2) s

def Session.accepts (s : Session) (source : String) : Bool :=
  match parseSource source with
  | .error _ => false
  | .ok program => (s.compiler.compile program unitName).1.toBool

/-- An entry, what came of it and the session behind it. -/
structure Entry where
  source : String
  accepted : Bool
  evaluation : Evaluation
  session : Session

/-- What comes of entries one after the other. -/
def Session.entries (s : Session) : List String → List Entry
  | [] => []
  | source :: sources =>
    ⟨source, s.accepts source, (s.eval source).1, (s.eval source).2⟩ ::
      (s.eval source).2.entries sources

theorem Session.start_eq {limits : Limits} {s : Session} (h : Session.start limits = .ok s) :
    limits.validate = .ok () ∧ s = { limits := limits } := by
  unfold Session.start at h
  cases hv : limits.validate with
  | error e => simp [hv, bind, Except.bind] at h
  | ok u =>
    simp only [hv, bind, Except.bind] at h
    exact ⟨rfl, (Except.ok.inj h).symm⟩

section Entries

variable {s : Session} {v : OpenScopes} {source : String} {sources : List String}

theorem Session.eval_of_rejected (h : s.accepts source = false) : (s.eval source).2 = s := by
  unfold Session.accepts at h
  unfold Session.eval
  cases hp : parseSource source with
  | error ds => rfl
  | ok program =>
    simp only [hp] at h ⊢
    rcases hc : s.compiler.compile program unitName with ⟨errors | o, c⟩
    · rfl
    · simp [hc, Except.toBool] at h

/-- Without the rejected entries the others come out the same. -/
theorem Session.entries_of_accepted (s : Session) (sources : List String) :
    s.entries (((s.entries sources).filter (·.accepted)).map (·.source)) =
      (s.entries sources).filter (·.accepted) := by
  induction sources generalizing s with
  | nil => rfl
  | cons source sources ih =>
    cases ha : s.accepts source with
    | false => simp [Session.entries, ha, Session.eval_of_rejected ha, ih]
    | true => simp [Session.entries, ha, ih]

theorem Session.Sound.after (hs : s.Sound v) (sources : List String) :
    ∃ v', (s.after sources).Sound v' ∧ v.Extends v' ∧
      s.compiler.constants.toList <+: (s.after sources).compiler.constants.toList := by
  induction sources generalizing s v with
  | nil => exact ⟨v, hs, .refl v, List.prefix_refl _⟩
  | cons source sources ih =>
    obtain ⟨v₁, hs₁, hext₁, hpre₁⟩ := hs.eval source
    obtain ⟨v', hs', hext, hpre⟩ := ih hs₁
    exact ⟨v', hs', hext₁.trans hext, hpre₁.trans hpre⟩

/-- The limits can be met by a machine, and the globals fit them. -/
structure Session.Fits (s : Session) : Prop where
  valid : s.limits.validate = .ok ()
  globals : s.globals.size ≤ s.limits.globals

theorem Session.Fits.eval (h : s.Fits) (source : String) : (s.eval source).2.Fits := by
  unfold Session.eval
  cases parseSource source with
  | error ds => exact h
  | ok program =>
    simp only
    rcases s.compiler.compile program unitName with ⟨errors | o, c⟩
    · exact h
    · simp only [link]
      cases hstart : Machine.start ⟨o.code, o.constants, o.spans⟩ s.limits s.globals s.nextStamp with
      | error e => exact ⟨h.valid, h.globals⟩
      | ok m =>
        have hwithin := (Machine.start_within hstart).runFor m.fuel
        exact ⟨h.valid, Nat.le_of_eq hwithin.globals⟩

theorem Session.Fits.after (h : s.Fits) (sources : List String) : (s.after sources).Fits := by
  induction sources generalizing s with
  | nil => exact h
  | cons source sources ih => exact ih (h.eval source)

end Entries

/-! ## Closures of earlier entries -/

/-- In every run from `m₀`, calls of `body` find the constants that `c` had, and the globals in slots
that `c` had taken. -/
structure Machine.Serves (m₀ : Machine) (c : Compiler) (body : Function) : Prop where
  constant : ∀ {m f fs k m'}, m₀.Steps m → m.frames = f :: fs → f.body = body →
    body.code.Has f.ip ⟨.constant, [k]⟩ → Exec.step m = (.ok (), m') →
    ∃ v, c.constants[k]? = some v ∧ m'.stack.live = m.stack.live ++ [v]
  closure : ∀ {m f fs k n m'}, m₀.Steps m → m.frames = f :: fs → f.body = body →
    body.code.Has f.ip ⟨.closure, [k, n]⟩ → Exec.step m = (.ok (), m') →
    ∃ g below free, c.constants[k]? = some (.function g) ∧ m.stack.live = below ++ free ∧
      m'.stack.live = below ++ [.closure m.nextStamp g free]
  global : ∀ {m f fs operand i m'}, m₀.Steps m → m.frames = f :: fs → f.body = body →
    body.code.Has f.ip ⟨.get, [operand]⟩ → Storage.decode operand = (.globalSlot, i) →
    Exec.step m = (.ok (), m') →
    i < c.scopes.globals ∧ ∃ v, m.globals[i]? = some v ∧ m'.stack.live = m.stack.live ++ [v]

section Closures

variable {m m' : Machine} {w : World} {f : Frame} {fs : List Frame} {body : Function}
  {is : List Item} {l : Literal} {offset k n operand i : Nat}

theorem World.Compiled.constant (h : w.Compiled body is l)
    (hhas : body.code.Has offset ⟨.constant, [k]⟩) : ∃ v, w.pool[k]? = some v := by
  obtain ⟨constants, hlisted⟩ := h.listed
  obtain ⟨j, hj, -, hinstr⟩ := hlisted.has_iff.mp hhas
  have hsound := hlisted.sound j hj
  simp only [Item.Sound, hinstr] at hsound
  obtain ⟨k', v, hk, -, hv, -⟩ := hsound
  obtain rfl : k = k' := by simpa using hk
  exact ⟨v, hv⟩

theorem World.Compiled.closure (h : w.Compiled body is l)
    (hhas : body.code.Has offset ⟨.closure, [k, n]⟩) : ∃ g, w.pool[k]? = some (.function g) := by
  obtain ⟨constants, hlisted⟩ := h.listed
  obtain ⟨j, hj, -, hinstr⟩ := hlisted.has_iff.mp hhas
  have hsound := hlisted.sound j hj
  simp only [Item.Sound, hinstr] at hsound
  obtain ⟨literal, hcloses⟩ := hsound
  obtain ⟨k', -, -, g, -, -, hk, -, hg, -⟩ := hcloses.body
  obtain rfl : k = k' := by
    rw [hinstr] at hk
    exact (List.cons.inj hk).1
  exact ⟨g, hg⟩

theorem World.Compiled.global (h : w.Compiled body is l)
    (hhas : body.code.Has offset ⟨.get, [operand]⟩)
    (hd : Storage.decode operand = (.globalSlot, i)) : i < w.globals := by
  obtain ⟨constants, hlisted⟩ := h.listed
  obtain ⟨j, hj, -, hinstr⟩ := hlisted.has_iff.mp hhas
  have hsound := hlisted.sound j hj
  simp only [Item.Sound, hinstr] at hsound
  obtain ⟨p, hp, hself, hlt, hwithin⟩ := hsound
  rw [hinstr] at hp
  obtain rfl := (List.cons.inj hp).1
  rw [Place.operand, Storage.decode_encode hself hlt] at hd
  obtain ⟨hstorage, rfl⟩ := Prod.mk.inj hd
  simpa only [Place.Within, hstorage] using hwithin

theorem Machine.Sound.loads {op : Opcode} (hs : m.Sound w) (hf : m.frames = f :: fs)
    (hop : op = .constant ∨ op = .get) (hhas : f.body.code.Has f.ip ⟨op, [k]⟩)
    (hstep : Exec.step m = (.ok (), m')) :
    ∃ v, m'.stack.live = m.stack.live ++ [v] ∧ (op = .constant → m.constants[k]? = some v) ∧
      (op = .get → m.valueAt? f (Place.ofOperand k) = some v) := by
  obtain ⟨x, j, l, args, h, hj⟩ := hs.faces_of_has hf hhas
  have hjop : j.op = op := congrArg Instruction.op hj
  obtain rfl : args = [] := by
    rw [← List.length_eq_zero_iff, h.pops]
    rcases hop with rfl | rfl <;> simp [Instruction.pops, hjop]
  have hgives := h.computes hs (by rcases hop with rfl | rfl <;> simp [hjop, Opcode.straight])
    (by rcases hop with rfl | rfl <;> simp [hjop])
  obtain ⟨r, hr, s, hholds, rfl⟩ := hgives.of_ok hstep
  have hlive : m.stack.live = l := by rw [h.live, List.append_nil]
  rw [hj] at hr
  rcases hop with rfl | rfl
  · simp only [Machine.compute, List.getElem?_cons_zero, Option.getD_some] at hr
    cases hv : m.constants[k]? with
    | none => simp [hv] at hr
    | some v =>
      simp only [hv] at hr
      cases hr
      exact ⟨v, hlive ▸ hholds.live, fun _ => rfl, by simp⟩
  · simp only [Machine.compute, List.getElem?_cons_zero, Option.getD_some] at hr
    cases hv : m.valueAt? f (Place.ofOperand k) with
    | none => simp [hv] at hr
    | some v =>
      simp only [hv] at hr
      cases hr
      exact ⟨v, hlive ▸ hholds.live, by simp, fun _ => rfl⟩

/-- A closure that was good before is served by every later machine. -/
theorem Machine.Sound.serves {w' : World} {c : Compiler} (hs : m.Sound w')
    (hfresh : ∀ stamp, m.nextStamp ≤ stamp → ∀ body free, w'.known stamp body free)
    (hbody : w.Compiled body is l) (hpool : w.pool = c.constants)
    (hglobals : w.globals = c.scopes.globals) (hpre : c.constants.toList <+: w'.pool.toList) :
    m.Serves c body := by
  have hsound {m₁ : Machine} (hsteps : m.Steps m₁) : m₁.Sound w' := (hs.steps hsteps hfresh).1
  constructor
  case constant =>
    rintro m₁ f fs k m' hsteps hf rfl hhas hstep
    obtain ⟨v, hv⟩ := hbody.constant hhas
    rw [hpool] at hv
    obtain ⟨u, hlive, hu, -⟩ := (hsound hsteps).loads hf (.inl rfl) hhas hstep
    have hsame := getElem?_of_extends hpre hv
    rw [← (hsound hsteps).constants, hu rfl] at hsame
    exact ⟨v, hv, Option.some.inj hsame ▸ hlive⟩
  case closure =>
    rintro m₁ f fs k n m' hsteps hf rfl hhas hstep
    obtain ⟨g, hg⟩ := hbody.closure hhas
    rw [hpool] at hg
    obtain ⟨x, j, l, args, h, hj⟩ := (hsound hsteps).faces_of_has hf hhas
    have hg' : w'.pool[j.operands[0]?.getD 0]? = some (.function g) := by
      rw [hj]
      exact getElem?_of_extends hpre hg
    obtain ⟨hlive, -⟩ := h.makes (hsound hsteps) (congrArg Instruction.op hj) hg' hstep
    exact ⟨g, l, args, hg, h.live, hlive⟩
  case global =>
    rintro m₁ f fs operand i m' hsteps hf rfl hhas hd hstep
    obtain ⟨v, hlive, -, hv⟩ := (hsound hsteps).loads hf (.inr rfl) hhas hstep
    refine ⟨hglobals ▸ hbody.global hhas hd, v, ?_, hlive⟩
    simpa only [Place.ofOperand, hd, Machine.valueAt?] using hv rfl

end Closures

/-- The closures in a value, with their captured values, run `body`s in `P`. -/
def Value.AllBodies (P : Function → Prop) (v : Value) : Prop :=
  v.All fun
    | .closure _ body _ => P body
    | _ => True

/-- A session with valid limits can always start a machine, forgets entries that it rejects, and
keeps constants and slots: what an earlier entry left in globals reads the same in every later one,
however the entries between them ended. -/
theorem Session.append_only {l : Limits} {s₀ : Session} (hstart : Session.start l = .ok s₀)
    (sources : List String) :
    let s := s₀.after sources
    (∀ program o c, s.compiler.compile program unitName = (.ok o, c) →
      ∃ p m, link [o] = .ok p ∧ Machine.start p s.limits s.globals s.nextStamp = .ok m) ∧
    s₀.entries (((s₀.entries sources).filter (·.accepted)).map (·.source)) =
      (s₀.entries sources).filter (·.accepted) ∧
    ∀ later, s.Continues (s.after later) ∧
      ∀ program o m, (s.after later).Begins program unitName o (s.after later).limits m →
        s.compiler.constants.toList <+: o.constants.toList ∧
        ∀ u ∈ s.globals, u.AllBodies (m.Serves s.compiler) := by
  intro s
  obtain ⟨hvalid, rfl⟩ := Session.start_eq hstart
  obtain ⟨v, hs⟩ : ∃ v, s.Sound v := by
    obtain ⟨v, hs, -⟩ := Session.Sound.initial.after sources
    exact ⟨v, hs⟩
  have hfits : s.Fits := Session.Fits.after ⟨hvalid, Nat.zero_le _⟩ sources
  refine ⟨fun program o c _ => ?_, Session.entries_of_accepted _ sources, fun later => ?_⟩
  · obtain ⟨m, hm⟩ := Machine.start_isOk ⟨o.code, o.constants, o.spans⟩ s.nextStamp hfits.valid
      hfits.globals
    exact ⟨_, m, rfl, hm⟩
  · obtain ⟨v', hs', hext, hpre⟩ := hs.after later
    refine ⟨hs.continues hs' hext hpre, fun program o m hbegins => ?_⟩
    obtain ⟨-, -, -, -, hpool, -⟩ := hs'.extend program unitName
    obtain ⟨hm, -, -⟩ := hs'.begins hbegins (fun _ _ _ => True) trivial fun _ _ _ _ => trivial
    have hconstants : o.constants = ((s.after later).world program unitName).pool := by
      obtain ⟨p, hlink, hp⟩ := hbegins.started
      cases hlink
      obtain ⟨-, -, rfl⟩ := Machine.start_eq hp
      exact hm.constants
    refine ⟨hconstants ▸ hpre.trans hpool, fun u hu => (hs.globals u hu).mono fun w hw => ?_⟩
    cases w with
    | closure stamp body free =>
      obtain ⟨-, -, -, is, l, hbody, -⟩ := hw
      exact hm.serves (fun _ _ _ _ => trivial) hbody rfl hs.ready.scopes.globals.symm
        (hpre.trans hpool)
    | _ => trivial

/-- A global and a function that reads it, then an entry that does not parse and one that does not
compile, then a call of the function. -/
theorem Session.append_only_past_rejected :
    let limits : Limits := ⟨16, 4, 4, none⟩
    let first := "let step = 3; let add = fn(n) \x7b n + step \x7d;"
    let rejected := ["let broken = (", "puts(missing)"]
    let sources := first :: rejected ++ ["add(4)"]
    ∃ s₀, Session.start limits = .ok s₀ ∧
      (s₀.entries sources).map (·.accepted) = [true, false, false, true] ∧
      s₀.entries [first, "add(4)"] = (s₀.entries sources).filter (·.accepted) ∧
      let s := s₀.after [first]
      let s' := s.after rejected
      s.Continues s' ∧ ∃ program o m, s'.opens? "add(4)" s'.limits = some (program, o, m) ∧
        (m.runFor 20).2.lastPopped.display = "7" ∧
        s.compiler.constants.toList <+: o.constants.toList ∧
        ∃ stamp body free, .closure stamp body free ∈ s.globals ∧ m.Serves s.compiler body := by
  intro limits first rejected sources
  obtain ⟨s₀, hs₀⟩ : ∃ s₀ : Session, s₀ = { limits := limits } := ⟨_, rfl⟩
  have hstart : Session.start limits = .ok s₀ := hs₀ ▸ rfl
  have hkept : ((s₀.entries sources).filter (·.accepted)).map (·.source) = [first, "add(4)"] := by
    rw [hs₀]
    decide +kernel
  have haccepted : (s₀.entries sources).map (·.accepted) = [true, false, false, true] := by
    rw [hs₀]
    decide +kernel
  have hcalled : (((s₀.after [first]).after rejected).opens? "add(4)"
      ((s₀.after [first]).after rejected).limits).any (fun (_, _, m) =>
        (m.runFor 20).2.lastPopped.display = "7") = true := by
    rw [hs₀]
    decide +kernel
  have hfunction : (s₀.after [first]).globals.any (·.kind = .closure) = true := by
    rw [hs₀]
    decide +kernel
  clear_value sources
  obtain ⟨-, hentries, -⟩ := Session.append_only hstart sources
  obtain ⟨-, -, hlater⟩ := Session.append_only hstart [first]
  rw [hkept] at hentries
  refine ⟨s₀, hstart, haccepted, hentries, (hlater rejected).1, ?_⟩
  obtain ⟨⟨program, o, m⟩, hopens, hvalue⟩ := (Option.any_eq_true ..).mp hcalled
  obtain ⟨hpool, hserves⟩ := (hlater rejected).2 program o m (Session.begins_of_opens? hopens).2
  refine ⟨program, o, m, hopens, of_decide_eq_true hvalue, hpool, ?_⟩
  obtain ⟨i, hi, hkind⟩ := Array.any_eq_true.mp hfunction
  have hmem := Array.getElem_mem hi
  generalize (s₀.after [first]).globals[i] = u at hkind hmem
  cases u with
  | closure stamp body free =>
    cases hserves _ hmem with
    | closure hbody _ => exact ⟨stamp, body, free, hmem, hbody⟩
  | _ => cases hkind

end StackScript
