import StackScript.Proofs.Compile.Pool
import StackScript.Proofs.Machine.Control
import StackScript.Proofs.Machine.Results

/-! # Stack discipline

The invariant of a machine that runs compiled code. Every call is at an instruction of its body, with
as many operands as the listing says; closures have listed bodies and as many captured values as these
read; and where values have been loaded to be captured, they are still those of their places.
-/

namespace StackScript

/-- What is known while a program runs: its constants, how many globals its code may name, and a
property of closures that their stamps determine. -/
structure World where
  pool : Array Value
  globals : Nat
  known : Nat → Function → List Value → Prop := fun _ _ _ => True

structure World.Compiled (w : World) (f : Function) (is : List Item) (l : Literal) : Prop where
  below : l.env.main.Below w.globals
  code : ∃ (first : Nat) (bodySpan : Span) (s : Cursor),
    FunctionCode w.pool l.env l.names first l.self l.params l.body bodySpan f is s

/-- A function that can be called: a builtin that exists, or a closure of a function literal with a
stamp before `next`. -/
def World.Callable (w : World) (next : Nat) : Value → Prop
  | .builtin index => index < Builtin.all.length
  | .closure stamp body free => firstStamp ≤ stamp ∧ stamp < next ∧ w.known stamp body free ∧
      ∃ is l, w.Compiled body is l ∧ l.names.length = free.length
  | _ => True

theorem World.Compiled.listed {w : World} {f : Function} {is : List Item} {l : Literal}
    (h : w.Compiled f is l) :
    ∃ constants, Listed w.pool f is ⟨w.globals, f.locals, l.names, constants, true⟩ 0 := by
  obtain ⟨first, bodySpan, s, hcode⟩ := h.code
  exact ⟨s.constants, hcode.listed h.below⟩

/-- Control is at an instruction that expects `height` operands and the values of `loaded`, or at the
end. -/
def Stands (is : List Item) (size final ip height : Nat) (loaded : List Place) : Prop :=
  (∃ i ∈ is, i.offset = ip ∧ i.height = height ∧ i.loaded = loaded) ∨
    ip = size ∧ height = final ∧ loaded = []

/-- With `sp` values on the stack, a call has the operands that its position expects, by every listing
of its body. -/
def Frame.At (f : Frame) (pool : Array Value) (sp : Nat) (Ok : List Place → Prop) : Prop :=
  ∀ is x final, Listed pool f.body is x final → ∃ height loaded,
    sp = f.base + f.body.locals + height ∧ Stands is f.body.code.size final f.ip height loaded ∧
      Ok loaded

/-- A call runs a listed body with the values that it captured. -/
structure Frame.Runs (f : Frame) (w : World) (next : Nat) (is : List Item) (x : Extent)
    (final : Nat) : Prop where
  listed : Listed w.pool f.body is x final
  globals : x.globals = w.globals
  captured : x.captured.length = f.free.length
  self : x.inFunction = true → w.Callable next f.closure
  free : ∀ v ∈ f.free, v.All (w.Callable next)

/-- A call and those it will return to. The result of a call takes the place below its first local,
and its caller is where it expects one operand there. -/
def Framed (w : World) (next : Nat) (f : Frame) : List Frame → Prop
  | [] => f.base = 0 ∧ f.stamp = mainStamp ∧ w.known f.stamp f.body f.free ∧
      ∃ is x final, f.Runs w next is x final ∧ final ≤ 1 ∧ x.locals = 0
  | g :: fs => 1 ≤ f.base ∧ (∃ is x, f.Runs w next is x 0 ∧ x.inFunction = true) ∧
      g.At w.pool f.base (· = []) ∧ Framed w next g fs

def Machine.Loaded (m : Machine) (f : Frame) (places : List Place) : Prop :=
  ∃ below vs, m.stack.live = below ++ vs ∧ places.map (m.valueAt? f) = vs.map some

structure Machine.Sound (m : Machine) (w : World) : Prop where
  constants : m.constants = w.pool
  room : 0 < m.stack.capacity
  stamps : firstStamp ≤ m.nextStamp
  stack : ∀ v ∈ m.stack.live, v.All (w.Callable m.nextStamp)
  globals : ∀ v ∈ m.globals, v.All (w.Callable m.nextStamp)
  ended : m.frames = [] → m.stack.live = []
  frames : ∀ f fs, m.frames = f :: fs →
    f.At w.pool m.stack.live.length (m.Loaded f) ∧ Framed w m.nextStamp f fs

section Positions

variable {pool : Array Value} {f : Frame} {sp sp' t : Nat} {Ok Ok' : List Place → Prop}

theorem Frame.At.mono (h : f.At pool sp Ok) (hok : ∀ loaded, Ok loaded → Ok' loaded) :
    f.At pool sp Ok' := by
  intro is x final hl
  obtain ⟨height, loaded, hsp, hstands, hloaded⟩ := h is x final hl
  exact ⟨height, loaded, hsp, hstands, hok loaded hloaded⟩

theorem Frame.At.start (hip : f.ip = 0) (hsp : sp = f.base + f.body.locals) (hok : Ok []) :
    f.At pool sp Ok := by
  intro is x final hl
  refine ⟨0, [], hsp, ?_, hok⟩
  rcases hl.flows.entry with ⟨i, hi, ho, hh, hloaded⟩ | ⟨rfl, rfl⟩
  · exact .inl ⟨i, hi, ho.trans hip.symm, hh, hloaded⟩
  · exact .inr ⟨hip.trans hl.flows.tiled, rfl, rfl⟩

/-- An instruction leads to a position that expects the operands it leaves. -/
theorem Frame.At.advance {i : Instruction} {next : Nat} (h : f.At pool sp Ok)
    (hip : f.ip < f.body.code.size) (hd : f.body.code.decode f.ip = .ok (i, next))
    (ht : ∀ j : Item, j.toInstruction = i → j.offset = f.ip → t ∈ j.targets)
    (hsp : sp' + i.pops = sp + i.pushes) (hnil : Ok' [])
    (hload : ∀ loaded (p : Place), p.index < Storage.slotLimit → i = p.load → Ok loaded →
      Ok' (loaded ++ [p])) : ({ f with ip := t } : Frame).At pool sp' Ok' := by
  intro is x final hl
  obtain ⟨height, loaded, hheight, ⟨j, hj, ho, rfl, rfl⟩ | ⟨hend, -⟩, hok⟩ := h is x final hl
  · have hinstr : j.toInstruction = i := by
      have hdecode := hl.decode hj
      rw [ho] at hdecode
      exact congrArg Prod.fst (Except.ok.inj (hdecode.symm.trans hd))
    have hcontinues := hl.flows.continues j hj
    have hpops := hcontinues.pops
    have hafter : sp' = f.base + f.body.locals + j.after := by
      subst hinstr
      simp only [Item.after]
      omega
    rcases hcontinues.next t (ht j hinstr ho) with ⟨k, hk, hko, hkh, hprecedes⟩ | ⟨hend, hfinal⟩ | hout
    · refine ⟨j.after, k.loaded, hafter, .inl ⟨k, hk, hko, hkh, rfl⟩, ?_⟩
      rcases hprecedes with hempty | ⟨p, hp, hinstr', hloaded⟩
      · exact hempty ▸ hnil
      · exact hloaded ▸ hload _ p hp (hinstr.symm.trans hinstr') hok
    · exact ⟨j.after, [], hafter, .inr ⟨hend, hfinal, rfl⟩, hnil⟩
    · exact hout.elim
  · omega

end Positions

section Frames

variable {w : World} {k next : Nat} {f : Frame} {fs : List Frame} {is : List Item} {x : Extent}
  {final : Nat}

theorem World.Callable.mono {v : Value} (h : w.Callable k v) (hk : k ≤ next) : w.Callable next v := by
  cases v with
  | closure stamp body free => exact ⟨h.1, Nat.lt_of_lt_of_le h.2.1 hk, h.2.2⟩
  | builtin index => exact h
  | _ => trivial

theorem World.Callable.extend {w w' : World} {next : Nat} {u : Value}
    (h : w.Callable next u) (hp : w.pool.toList <+: w'.pool.toList) (hg : w.globals ≤ w'.globals)
    (hk : ∀ stamp, firstStamp ≤ stamp → stamp < next → ∀ body free, w.known stamp body free →
      w'.known stamp body free) :
    w'.Callable next u := by
  cases u with
  | closure stamp body free =>
    obtain ⟨hfirst, hstamp, hknown, is, l, ⟨hbelow, k, bodySpan, s, hcode⟩, hnames⟩ := h
    exact ⟨hfirst, hstamp, hk stamp hfirst hstamp body free hknown, is, l,
      ⟨hbelow.mono hg, k, bodySpan, s, hcode.mono hp⟩, hnames⟩
  | builtin index => exact h
  | _ => trivial

theorem World.all_mono {v : Value} (h : v.All (w.Callable k)) (hk : k ≤ next) :
    v.All (w.Callable next) := h.mono fun _ hv => hv.mono hk

theorem Frame.Runs.mono (h : f.Runs w k is x final) (hk : k ≤ next) : f.Runs w next is x final :=
  ⟨h.listed, h.globals, h.captured, fun hx => (h.self hx).mono hk,
    fun v hv => World.all_mono (h.free v hv) hk⟩

theorem Framed.mono (h : Framed w k f fs) (hk : k ≤ next) : Framed w next f fs := by
  induction fs generalizing f with
  | nil =>
    obtain ⟨hb, hs, hknown, is, x, final, hr, hrest⟩ := h
    exact ⟨hb, hs, hknown, is, x, final, hr.mono hk, hrest⟩
  | cons g fs ih =>
    obtain ⟨hb, ⟨is, x, hr, hx⟩, hat, hrest⟩ := h
    exact ⟨hb, ⟨is, x, hr.mono hk, hx⟩, hat, ih hrest⟩

theorem Framed.goto (h : Framed w k f fs) (ip : Nat) : Framed w k { f with ip := ip } fs := by
  cases fs with
  | nil =>
    obtain ⟨hb, hs, hknown, is, x, final, hr, hrest⟩ := h
    exact ⟨hb, hs, hknown, is, x, final, ⟨hr.listed, hr.globals, hr.captured, hr.self, hr.free⟩, hrest⟩
  | cons g fs =>
    obtain ⟨hb, ⟨is, x, hr, hx⟩, hrest⟩ := h
    exact ⟨hb, ⟨is, x, ⟨hr.listed, hr.globals, hr.captured, hr.self, hr.free⟩, hx⟩, hrest⟩

theorem Framed.runs (h : Framed w k f fs) : ∃ is x final, f.Runs w k is x final := by
  cases fs with
  | nil =>
    obtain ⟨-, -, -, is, x, final, hr, -⟩ := h
    exact ⟨is, x, final, hr⟩
  | cons g fs =>
    obtain ⟨-, ⟨is, x, hr, -⟩, -⟩ := h
    exact ⟨is, x, 0, hr⟩

theorem Framed.known (h : Framed w k f fs) : ∀ g ∈ f :: fs, w.known g.stamp g.body g.free := by
  induction fs generalizing f with
  | nil =>
    obtain ⟨-, -, hknown, -⟩ := h
    intro g hg
    exact List.mem_singleton.mp hg ▸ hknown
  | cons f' fs ih =>
    obtain ⟨-, ⟨is, x, hr, hx⟩, -, hrest⟩ := h
    intro g hg
    rcases List.mem_cons.mp hg with rfl | hg
    · exact (hr.self hx).2.2.1
    · exact ih hrest g hg

end Frames

section Knowledge

variable {w : World} {m : Machine} {known : Nat → Function → List Value → Prop}

/-- What is known of the closures made so far can be replaced by what follows from it. -/
theorem Framed.know {next : Nat} {f : Frame} {fs : List Frame} (h : Framed w next f fs)
    (hnext : firstStamp ≤ next) (hk : ∀ stamp, stamp < next → ∀ body free,
      w.known stamp body free → known stamp body free) :
    Framed { w with known := known } next f fs := by
  have hcallable {u : Value} (hu : w.Callable next u) :
      World.Callable { w with known := known } next u :=
    hu.extend (List.prefix_refl _) (Nat.le_refl _) fun stamp _ => hk stamp
  have hruns {g : Frame} {is : List Item} {x : Extent} {final : Nat} (hr : g.Runs w next is x final) :
      g.Runs { w with known := known } next is x final :=
    ⟨hr.listed, hr.globals, hr.captured, fun hx => hcallable (hr.self hx),
      fun v hv => (hr.free v hv).mono fun _ => hcallable⟩
  induction fs generalizing f with
  | nil =>
    obtain ⟨hb, hs, hknown, is, x, final, hr, hrest⟩ := h
    have hmain : f.stamp < next := by
      rw [hs]
      exact hnext
    exact ⟨hb, hs, hk _ hmain _ _ hknown, is, x, final, hruns hr, hrest⟩
  | cons g fs ih =>
    obtain ⟨hb, ⟨is, x, hr, hx⟩, hat, hrest⟩ := h
    exact ⟨hb, ⟨is, x, hruns hr, hx⟩, hat, ih hrest⟩

theorem Machine.Sound.know (h : m.Sound w) (hk : ∀ stamp, stamp < m.nextStamp → ∀ body free,
    w.known stamp body free → known stamp body free) : m.Sound { w with known := known } := by
  have hcallable {u : Value} (hu : w.Callable m.nextStamp u) :
      World.Callable { w with known := known } m.nextStamp u :=
    hu.extend (List.prefix_refl _) (Nat.le_refl _) fun stamp _ => hk stamp
  refine ⟨h.constants, h.room, h.stamps, fun v hv => (h.stack v hv).mono fun _ => hcallable,
    fun v hv => (h.globals v hv).mono fun _ => hcallable, h.ended, fun f fs hf => ?_⟩
  obtain ⟨hat, hframed⟩ := h.frames f fs hf
  exact ⟨hat, hframed.know h.stamps hk⟩

end Knowledge

section Loads

variable {m m' : Machine} {f : Frame} {l : List Value} {loaded : List Place} {p : Place} {v : Value}

theorem Machine.loaded_nil (m : Machine) (f : Frame) : m.Loaded f [] :=
  ⟨m.stack.live, [], (List.append_nil _).symm, rfl⟩

/-- A value on top of the stack changes no place. -/
theorem Machine.valueAt?_push (hg : m'.globals = m.globals) (hl : m'.stack.live = m.stack.live ++ [v])
    {w : Value} (h : m.valueAt? f p = some w) : m'.valueAt? f p = some w := by
  rw [← h]
  refine Machine.valueAt?_congr hg fun hs => ?_
  have hlt : f.base + p.index < m.stack.live.length := by
    simp only [Machine.valueAt?, hs] at h
    exact (List.getElem?_eq_some_iff.mp h).1
  rw [hl, List.getElem?_append_left hlt]

theorem Machine.Loaded.push (h : m.Loaded f loaded) (hg : m'.globals = m.globals)
    (hl : m'.stack.live = m.stack.live ++ [v]) (hv : m.valueAt? f p = some v) :
    m'.Loaded f (loaded ++ [p]) := by
  obtain ⟨below, vs, hlive, hvs⟩ := h
  refine ⟨below, vs ++ [v], by rw [hl, hlive, List.append_assoc], ?_⟩
  have hkept (q : Place) (hq : q ∈ loaded) : m'.valueAt? f q = m.valueAt? f q := by
    have hmem : m.valueAt? f q ∈ vs.map some := hvs ▸ List.mem_map_of_mem hq
    obtain ⟨u, -, hu⟩ := List.mem_map.mp hmem
    rw [← hu]
    exact Machine.valueAt?_push hg hl hu.symm
  rw [List.map_append, List.map_append, List.map_congr_left hkept, hvs, List.map_singleton,
    List.map_singleton, Machine.valueAt?_push hg hl hv]

theorem Place.load_op (p : Place) : p.load.op = .get ∨ p.load.op = .currentClosure := by
  unfold Place.load
  split
  · exact .inr rfl
  · exact .inl rfl

theorem Item.ne_load {j : Item} (hg : j.op ≠ .get) (hc : j.op ≠ .currentClosure) :
    j.toInstruction ≠ p.load := by
  intro hload
  rcases p.load_op with ho | ho
  · exact hg (hload ▸ ho)
  · exact hc (hload ▸ ho)

end Loads

end StackScript
