import StackScript.Proofs.Session.Safety

/-! # Capture

A closure captures values, not variables. The code of every body is that of its source, in which each
name is the access to its innermost binding. When a function literal is evaluated, each value that it
captures is that of the innermost binding of the name around the literal, in the running call; and all
later calls of the closure find that value, whatever is assigned in between.
-/

namespace StackScript

/-- The code of a body is that of the top level of a program or of a function literal. With it goes its
listing and the names that it captures. -/
inductive World.Source (w : World) : Function → List Item → List String → Prop
  | program {o : Object} {v : OpenScopes} {first : Nat} {body : List Stmt} {is : List Item}
      {s : Cursor} : o.constants = w.pool → v.inner = [] → v.main.Below v.globals →
      o.Lists v first body is s → s.slots = w.globals → w.Source o.main is []
  | literal {f : Function} {is : List Item} {l : Literal} : w.Compiled f is l → w.Source f is l.names

/-- The values that a function literal captures in a call, whose own captured values are those of
`names`. -/
structure Machine.Captures (m : Machine) (f : Frame) (names : List String) (l : Literal)
    (free : List Value) : Prop where
  /-- Each is the value of the innermost binding of its name. -/
  values : l.names.map (fun name => (l.env.place? names name).bind (m.valueAt? f)) = free.map some
  /-- That binding belongs to a function body around: it is in a slot of the call, was captured by it,
  or is the running function. -/
  places : ∀ name ∈ l.names, ∃ p, l.env.place? names name = some p ∧
    p.storage ∈ [Storage.localSlot, .captured, .self]

/-- From here on, all calls of the closure with this stamp find the values `free`. -/
structure Machine.Remembers (m : Machine) (stamp : Nat) (body : Function) (free : List Value) :
    Prop where
  calls : ∀ m₁, m.Steps m₁ → ∀ g ∈ m₁.frames, g.stamp = stamp → g.body = body ∧ g.free = free
  /-- An instruction that reads the captured value `k` finds the one captured then. -/
  reads : ∀ m₁ g gs operand k, m.Steps m₁ → m₁.frames = g :: gs → g.stamp = stamp →
    g.body.code.Has g.ip ⟨.get, [operand]⟩ → Storage.decode operand = (.captured, k) →
    ∃ v, free[k]? = some v ∧
      ∀ m₂, Exec.step m₁ = (.ok (), m₂) → m₂.stack.live = m₁.stack.live ++ [v]

/-- In a run, function literals capture the values of the bindings around them. -/
structure Machine.ClosesOver (m : Machine) (w : World) : Prop where
  /-- Every call runs the code of a source. -/
  sources : ∀ m₁, m.Steps m₁ → ∀ f ∈ m₁.frames, ∃ is names,
    w.Source f.body is names ∧ names.length = f.free.length
  /-- The instruction of a function literal makes a closure of its code and of the captured values. -/
  closures : ∀ m₁ f fs is names i m₂, m.Steps m₁ → m₁.frames = f :: fs → w.Source f.body is names →
    i ∈ is → i.offset = f.ip → i.op = .closure → Exec.step m₁ = (.ok (), m₂) →
    ∃ l body js free below, i.literal = some l ∧ w.Compiled body js l ∧
      m₂.stack.live = below ++ [.closure m₁.nextStamp body free] ∧ m₁.Captures f names l free ∧
      m₂.Remembers m₁.nextStamp body free

section Sources

variable {w : World} {f : Frame} {fs : List Frame} {is : List Item} {names : List String}

theorem World.Source.listed {g : Function} (h : w.Source g is names) :
    ∃ x final, Listed w.pool g is x final ∧ x.captured = names ∧ x.globals = w.globals := by
  cases h with
  | program hpool hv hb hlists hslots =>
    obtain ⟨final, -, hlisted⟩ := hlists.listed hv hb
    exact ⟨_, final, hpool ▸ hlisted, rfl, hslots⟩
  | literal hcompiled =>
    obtain ⟨constants, hlisted⟩ := hcompiled.listed
    exact ⟨_, 0, hlisted, rfl, rfl⟩

/-- A name bound in a function body around is not a global and not a builtin. -/
theorem Lexical.storage_of_enclosed {env : Lexical} {name : String} {p : Place}
    (he : env.enclosed name = true) (hp : env.place? names name = some p) :
    p.storage ∈ [Storage.localSlot, .captured, .self] := by
  obtain ⟨main, _ | ⟨b, bs⟩⟩ := env
  · simp [Lexical.enclosed] at he
  · simp only [Lexical.place?] at hp
    split at hp
    · cases hp
      simp
    · cases hp
      simp
    · next hnone =>
      have hany : (bs.any fun b => (b.find? name).isSome) = true := by
        simpa [Lexical.enclosed, hnone] using he
      simp only [hany, if_true] at hp
      obtain ⟨k, -, rfl⟩ := Option.map_eq_some_iff.mp hp
      simp

theorem Framed.sources {next : Nat} (h : Framed w next f fs)
    (hmain : ∀ body free, w.known mainStamp body free → ∃ is, w.Source body is [] ∧ free = []) :
    ∀ g ∈ f :: fs, ∃ is names, w.Source g.body is names ∧ names.length = g.free.length := by
  induction fs generalizing f with
  | nil =>
    obtain ⟨-, hstamp, hknown, -⟩ := h
    intro g hg
    obtain rfl := List.mem_singleton.mp hg
    obtain ⟨is, hsource, hfree⟩ := hmain _ _ (hstamp ▸ hknown)
    exact ⟨is, [], hsource, by simp [hfree]⟩
  | cons f' fs ih =>
    obtain ⟨-, ⟨_, _, hr, hx⟩, -, hrest⟩ := h
    intro g hg
    rcases List.mem_cons.mp hg with rfl | hg
    · obtain ⟨-, -, -, is, l, hcompiled, hlength⟩ := hr.self hx
      exact ⟨is, l.names, .literal hcompiled, hlength⟩
    · exact ih hrest g hg

end Sources

section Values

variable {m m₂ : Machine} {w : World} {f : Frame} {fs : List Frame} {is : List Item}
  {names : List String} {x : Extent} {final : Nat} {i j : Item} {l args : List Value}

theorem Machine.Sound.loaded (hs : m.Sound w) (hf : m.frames = f :: fs)
    (hl : Listed w.pool f.body is x final) (hi : i ∈ is) (ho : i.offset = f.ip) :
    m.Loaded f i.loaded := by
  obtain ⟨height, loaded, -, ⟨k, hk, hko, -, rfl⟩ | ⟨hip, -⟩, hloaded⟩ :=
    (hs.frames f fs hf).1 is x final hl
  · rwa [hl.flows.tiled.eq_of_offset hi hk (ho.trans hko.symm)]
  · have := (hl.flows.tiled.bounds hi).2
    have := i.op.length_pos
    omega

theorem Machine.Sound.captures (hs : m.Sound w) (hf : m.frames = f :: fs)
    (hsource : w.Source f.body is names) (hi : i ∈ is) (ho : i.offset = f.ip)
    (hop : i.op = .closure) :
    ∃ l body js free below, i.literal = some l ∧ w.Compiled body js l ∧
      w.pool[i.operands[0]?.getD 0]? = some (.function body) ∧ i.pops = free.length ∧
      m.stack.live = below ++ free ∧ m.Captures f names l free := by
  obtain ⟨x, final, hlisted, rfl, hglobals⟩ := hsource.listed
  obtain ⟨literal, hcloses⟩ := (hlisted.sound i hi).closes hop
  obtain ⟨k, first, bodySpan, body, js, s, hoperands, -, hbody, hcode⟩ := hcloses.body
  obtain ⟨below, free, hlive, hfree⟩ := hs.loaded hf hlisted hi ho
  have hlength : literal.names.length = free.length := by
    have hnames := congrArg List.length hcloses.captured
    have hvalues := congrArg List.length hfree
    simp only [List.length_map] at hnames hvalues
    exact hnames.trans hvalues
  refine ⟨literal, body, js, free, below, hcloses.literal,
    ⟨hglobals ▸ hcloses.below, first, bodySpan, s, hcode⟩, ?_, ?_, hlive, ?_, ?_⟩
  · rw [hoperands]
    exact hbody
  · simpa [Instruction.pops, hop, hoperands] using hlength
  · calc
      literal.names.map (fun name => (literal.env.place? x.captured name).bind (m.valueAt? f))
      _ = (literal.names.map (literal.env.place? x.captured)).map (·.bind (m.valueAt? f)) := by
        rw [List.map_map]
        rfl
      _ = i.loaded.map (m.valueAt? f) := by
        rw [hcloses.captured, List.map_map]
        rfl
      _ = free.map some := hfree
  · intro name hname
    have hmem : literal.env.place? x.captured name ∈ i.loaded.map some :=
      hcloses.captured ▸ List.mem_map_of_mem hname
    obtain ⟨p, -, hp⟩ := List.mem_map.mp hmem
    exact ⟨p, hp.symm, Lexical.storage_of_enclosed (hcloses.enclosed name hname) hp.symm⟩

theorem Machine.Sound.faces_of_has {instruction : Instruction} (hs : m.Sound w)
    (hf : m.frames = f :: fs) (hi : f.body.code.Has f.ip instruction) :
    ∃ x j l args, m.Faces w f fs x j l args ∧ j.toInstruction = instruction := by
  rcases hs.faces hf with ⟨x, j, l, args, h⟩ | ⟨hip, -⟩
  · obtain ⟨is, final, hruns, hj⟩ := h.runs
    obtain ⟨k, hk, hko, rfl⟩ := hruns.listed.has_iff.mp hi
    have hkj := hruns.listed.flows.tiled.eq_of_offset hk hj (hko.trans h.offset.symm)
    exact ⟨x, j, l, args, h, by rw [hkj]⟩
  · obtain ⟨is, x, final, hruns⟩ := (hs.frames f fs hf).2.runs
    obtain ⟨k, hk, hko, -⟩ := hruns.listed.has_iff.mp hi
    have := (hruns.listed.flows.tiled.bounds hk).2
    have := k.op.length_pos
    omega

theorem Machine.Faces.reads {operand k : Nat} (h : m.Faces w f fs x j l args) (hs : m.Sound w)
    (hj : j.toInstruction = ⟨.get, [operand]⟩) (hk : Storage.decode operand = (.captured, k)) :
    ∃ v, f.free[k]? = some v ∧
      ∀ m₂, Exec.step m = (.ok (), m₂) → m₂.stack.live = m.stack.live ++ [v] := by
  have hop : j.op = .get := congrArg Instruction.op hj
  have hoperands : j.operands = [operand] := congrArg Instruction.operands hj
  obtain rfl : args = [] := by
    rw [← List.length_eq_zero_iff, h.pops]
    simp [Instruction.pops, hop]
  have hlt : k < f.free.length := by
    obtain ⟨is, final, hruns, -⟩ := h.runs
    obtain ⟨p, hp, hself, hindex, hwithin⟩ := h.sound.names (.inl hop)
    obtain rfl : operand = p.operand := by simpa [hoperands] using hp
    rw [Place.operand, Storage.decode_encode hself hindex] at hk
    obtain ⟨hstorage, rfl⟩ := Prod.mk.inj hk
    simp only [Place.Within, hstorage] at hwithin
    rwa [← hruns.captured]
  refine ⟨f.free[k], List.getElem?_eq_getElem hlt, fun m₂ hstep => ?_⟩
  have hgives := h.computes hs (by simp [hop, Opcode.straight]) (by simp [hop])
  obtain ⟨r, hr, s, hholds, rfl⟩ := hgives.of_ok hstep
  have hvalue : m.valueAt? f (Place.ofOperand operand) = some f.free[k] := by
    simp only [Place.ofOperand, hk, Machine.valueAt?, List.getElem?_eq_getElem hlt]
  rw [hj] at hr
  simp only [Machine.compute, List.getElem?_cons_zero, Option.getD_some, hvalue] at hr
  cases hr
  rw [h.live, List.append_nil]
  exact hholds.live

theorem Machine.Faces.makes {body : Function} (h : m.Faces w f fs x j l args) (hs : m.Sound w)
    (hop : j.op = .closure) (hb : w.pool[j.operands[0]?.getD 0]? = some (.function body))
    (hstep : Exec.step m = (.ok (), m₂)) :
    m₂.stack.live = l ++ [.closure m.nextStamp body args] ∧ m₂.nextStamp = m.nextStamp + 1 := by
  have hgives := h.computes hs (by simp [hop, Opcode.straight]) (by simp [hop])
  obtain ⟨r, hr, s, hholds, rfl⟩ := hgives.of_ok hstep
  rw [Machine.compute_closure hop (hs.constants ▸ hb)] at hr
  cases hr
  exact ⟨hholds.live, rfl⟩

/-- Calls of a closure find what is known of its stamp. -/
theorem Machine.Sound.remembers {stamp : Nat} {body : Function} {free : List Value} (hs : m.Sound w)
    (hfresh : ∀ stamp, m.nextStamp ≤ stamp → ∀ body free, w.known stamp body free)
    (hknown : ∀ body' free', w.known stamp body' free' → body' = body ∧ free' = free) :
    m.Remembers stamp body free := by
  have hcalls (m₁ : Machine) (hsteps : m.Steps m₁) (g : Frame) (hg : g ∈ m₁.frames)
      (hstamp : g.stamp = stamp) : g.body = body ∧ g.free = free := by
    obtain ⟨f, fs, hf⟩ := List.exists_cons_of_ne_nil (List.ne_nil_of_mem hg)
    have hframed := ((hs.steps hsteps hfresh).1.frames f fs hf).2
    exact hknown _ _ (hstamp ▸ hframed.known g (hf ▸ hg))
  refine ⟨hcalls, ?_⟩
  intro m₁ g gs operand k hsteps hg hstamp hhas hdecode
  obtain ⟨rfl, rfl⟩ := hcalls m₁ hsteps g (by simp [hg]) hstamp
  have hs₁ := (hs.steps hsteps hfresh).1
  obtain ⟨x, j, l, args, h, hj⟩ := hs₁.faces_of_has hg hhas
  exact h.reads hs₁ hj hdecode

/-- A function literal makes a closure of the values that its names have, for all later calls. -/
theorem Machine.Sound.closes (hs : m.Sound w) (hf : m.frames = f :: fs)
    (hfresh : ∀ stamp, m.nextStamp ≤ stamp → ∀ body free, w.known stamp body free)
    (hsource : w.Source f.body is names) (hi : i ∈ is) (ho : i.offset = f.ip)
    (hop : i.op = .closure) (hstep : Exec.step m = (.ok (), m₂)) :
    ∃ l body js free below, i.literal = some l ∧ w.Compiled body js l ∧
      m₂.stack.live = below ++ [.closure m.nextStamp body free] ∧ m.Captures f names l free ∧
      m₂.Remembers m.nextStamp body free := by
  obtain ⟨literal, body, js, free, below, hliteral, hcompiled, hbody, hpops, hlive, hcaptures⟩ :=
    hs.captures hf hsource hi ho hop
  -- The stamp of the new closure stands from now on for its body and its values.
  let w₁ : World := { w with known := fun stamp body' free' => w.known stamp body' free' ∧
    (stamp = m.nextStamp → body' = body ∧ free' = free) }
  have hs₁ : m.Sound w₁ := hs.know fun stamp hstamp _ _ hknown =>
    ⟨hknown, fun heq => absurd hstamp (by omega)⟩
  obtain ⟨x, final, hlisted, -⟩ := hsource.listed
  obtain ⟨x, j, l, args, h, hj⟩ := hs₁.faces_of_has hf (hlisted.has_iff.mpr ⟨i, hi, ho, rfl⟩)
  have hjop : j.op = .closure := (congrArg Instruction.op hj).trans hop
  have hbody₁ : w₁.pool[j.operands[0]?.getD 0]? = some (.function body) := by
    rw [hj]
    exact hbody
  obtain ⟨rfl, rfl⟩ : below = l ∧ free = args :=
    List.append_inj' (hlive.symm.trans h.live) (by rw [← hpops, h.pops, hj])
  obtain ⟨hlive₂, hstamp₂⟩ := h.makes hs₁ hjop hbody₁ hstep
  have hkeeps := (h.straight hs₁ (by simp [hjop, Opcode.straight]) (by simp [hjop])
    fun _ body' hbody' => ?_).of_ok hstep
  · refine ⟨literal, body, js, free, below, hliteral, hcompiled, hlive₂, hcaptures, ?_⟩
    refine hkeeps.1.remembers (fun stamp hstamp body' free' => ?_) fun _ _ hknown => hknown.2 rfl
    exact ⟨hfresh stamp (by omega) body' free', fun heq => absurd hstamp (by omega)⟩
  · rw [hs₁.constants, hbody₁] at hbody'
    cases hbody'
    exact ⟨hfresh _ (Nat.le_refl _) _ _, fun _ => ⟨rfl, rfl⟩⟩

/-- In a run of code that is known to have a source, function literals capture the values of the
bindings around them. -/
theorem Machine.Sound.closesOver (hs : m.Sound w)
    (hfresh : ∀ stamp, m.nextStamp ≤ stamp → ∀ body free, w.known stamp body free)
    (hmain : ∀ body free, w.known mainStamp body free → ∃ is, w.Source body is [] ∧ free = []) :
    m.ClosesOver w := by
  constructor
  case sources =>
    intro m₁ hsteps f hf
    obtain ⟨g, gs, hg⟩ := List.exists_cons_of_ne_nil (List.ne_nil_of_mem hf)
    have hframed := ((hs.steps hsteps hfresh).1.frames g gs hg).2
    exact hframed.sources hmain f (hg ▸ hf)
  case closures =>
    intro m₁ f fs is names i m₂ hsteps hf hsource hi ho hop hstep
    obtain ⟨hs₁, -, hstamp⟩ := hs.steps hsteps hfresh
    exact hs₁.closes hf (fun stamp hle => hfresh stamp (Nat.le_trans hstamp hle)) hsource hi ho hop
      hstep

end Values

/-- What code stands for does not depend on what is known of closures. -/
theorem World.Source.know {w : World} {f : Function} {is : List Item} {names : List String}
    (h : w.Source f is names) (known : Nat → Function → List Value → Prop) :
    World.Source { w with known := known } f is names := by
  cases h with
  | program hpool hv hb hlists hslots => exact .program hpool hv hb hlists hslots
  | literal h => exact .literal ⟨h.below, h.code⟩

theorem Machine.ClosesOver.know {m : Machine} {w : World} (h : m.ClosesOver w)
    (known : Nat → Function → List Value → Prop) : m.ClosesOver { w with known := known } := by
  constructor
  case sources =>
    intro m₁ hsteps f hf
    obtain ⟨is, names, hsource, hlength⟩ := h.sources m₁ hsteps f hf
    exact ⟨is, names, hsource.know known, hlength⟩
  case closures =>
    intro m₁ f fs is names i m₂ hsteps hf hsource hi ho hop hstep
    obtain ⟨l, body, js, free, below, hl, hcompiled, hrest⟩ :=
      h.closures m₁ f fs is names i m₂ hsteps hf (hsource.know w.known) hi ho hop hstep
    exact ⟨l, body, js, free, below, hl, ⟨hcompiled.below, hcompiled.code⟩, hrest⟩

/-- The code of a program is that of its statements, with each name read from its innermost binding.
Whenever it runs, function literals capture the values that their names have then. -/
theorem Session.Reachable.captures_lexically {s : Session} (hs : s.Reachable) {program : Program}
    {name : String} {o : Object} {limits : Limits} {m : Machine}
    (h : s.Begins program name o limits m) :
    (∃ v is c, s.compiler.Ready v ∧ o.Lists v s.compiler.constants.size program.statements is c ∧
      (s.world program name).Source o.main is []) ∧ m.ClosesOver (s.world program name) := by
  obtain ⟨v, hsound⟩ := hs.sound
  have hready := hsound.ready
  obtain ⟨v₁, -, hready₁, -, hresult⟩ := hready.compile program name
  rw [h.compiled] at hresult
  obtain ⟨hconstants, is, c, hslots, -, hlists⟩ := hresult
  have hsource : (s.world program name).Source o.main is [] :=
    .program hconstants hready.outside hready.main_below hlists
      (hslots.trans hready₁.scopes.globals.symm)
  refine ⟨⟨v, is, c, hready, hlists, hsource⟩, ?_⟩
  let known (stamp : Nat) (body : Function) (free : List Value) : Prop :=
    stamp = mainStamp → body = o.main ∧ free = []
  have hfresh (stamp : Nat) (hstamp : firstStamp ≤ stamp) (body : Function) (free : List Value) :
      known stamp body free := by
    rintro rfl
    exact absurd hstamp (by decide)
  obtain ⟨hm, -, -⟩ := hsound.begins h known (fun _ => ⟨rfl, rfl⟩) hfresh
  have hcloses := hm.closesOver (fun stamp hstamp => hfresh stamp (Nat.le_trans hm.stamps hstamp))
    fun body free hknown => by
      obtain ⟨rfl, rfl⟩ := hknown rfl
      exact ⟨is, hsource.know known, rfl⟩
  exact hcloses.know (s.world program name).known

/-- A parameter captured through a function between, and written to after that: the closure keeps the
value that it had. -/
theorem Session.captures_nested :
    let limits : Limits := ⟨16, 4, 4, none⟩
    let s : Session := { limits := limits }
    let source := "let make = fn(n) \x7b
        let between = fn() \x7b fn() \x7b n \x7d \x7d; let get = between(); n = n + 1; [get(), n]
      \x7d;
      make(5)"
    ∃ program o m, s.opens? source limits = some (program, o, m) ∧
      (m.runFor 60).1 = .done ∧ (m.runFor 60).2.lastPopped.display = "[5, 6]" ∧
      (∃ v is c, s.compiler.Ready v ∧ o.Lists v s.compiler.constants.size program.statements is c ∧
        (s.world program unitName).Source o.main is []) ∧
      m.ClosesOver (s.world program unitName) := by
  intro limits s source
  have hrun : (s.opens? source limits).any (fun (_, _, m) =>
      (m.runFor 60).1 = .done ∧ (m.runFor 60).2.lastPopped.display = "[5, 6]") = true := by
    decide +kernel
  obtain ⟨⟨program, o, m⟩, hopens, hends⟩ := (Option.any_eq_true ..).mp hrun
  obtain ⟨hdone, hvalue⟩ := of_decide_eq_true hends
  exact ⟨program, o, m, hopens, hdone, hvalue,
    (Session.Reachable.start limits).captures_lexically (Session.begins_of_opens? hopens).2⟩

end StackScript
