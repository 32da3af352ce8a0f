import StackScript.Proofs.Compile.Nodes

/-! # The code of functions

A function body is compiled in scopes and a code unit of its own. Its listing goes into the pool as
a function constant; the names that it has captured are then loaded from the body around.
-/

namespace StackScript

section Body

variable {c c₁ : Compiler} {v v₁ : OpenScopes} {items init : List Item} {σ σ₀ : Targets}
  {exits : Exits} {i : Item} {ss : List Stmt} {span : Span}

theorem Adds.returnLast (h : Adds c v items σ₀ c₁ v₁ (init ++ [i]) σ exits)
    (hi : i.toInstruction = ⟨.pop, []⟩) :
    Adds c v items σ₀ { c₁ with unit := c₁.unit.returnLast } v₁
      (init ++ [{ i with toInstruction := ⟨.retValue, []⟩ }]) σ exits ∧
      Compiler.cursor { c₁ with unit := c₁.unit.returnLast } v₁ = c₁.cursor v₁ := by
  have hw := h.stands.writes
  rw [← List.append_assoc] at hw
  obtain ⟨hw', hsize⟩ := hw.returnLast hi
  have hrest : c₁.unit.returnLast.loops = c₁.unit.loops ∧
      c₁.unit.returnLast.held = c₁.unit.held := by
    unfold CodeUnit.returnLast
    split <;> exact ⟨rfl, rfl⟩
  refine ⟨?_, by simp [Compiler.cursor, hsize]⟩
  exact {
    scopes := h.scopes
    constants := h.constants
    held := hrest.2.trans h.held
    loops := hrest.1.trans h.loops
    stands := ⟨h.stands.scopes, by simpa using hw',
      by simp only [hrest.1, hrest.2]; exact h.stands.held, h.stands.pool⟩
    targets := h.targets
    pending := fun j hj => by
      obtain ⟨hσ, k, hk, hjump, rfl⟩ := h.pending j hj
      rcases List.mem_append.mp hk with hk | hk
      · exact ⟨hσ, k, by simp [hk], hjump, rfl⟩
      · rw [List.mem_singleton.mp hk, hi] at hjump
        cases hjump
    apart := h.apart
    outside := h.outside }

/-- A function body returns the value of its last expression, or null. -/
theorem body_emitted (hss : StmtsEmitted ss) (hc : c.Stands v [] σ) :
    Gives (Compile.statements ss >>= fun _ => Compile.returnBodyValue span) c
      (fun _ c' => ∃ v' new σ' exits, Adds c v [] σ c' v' new σ' exits ∧
        Lists (fun pool c s is s' _ => BodyCode pool c s ss span is s') c v c' v' new σ' exits)
      (Fails c v) := by
  refine (hss c v [] σ hc).bind (fun _ _ h => h) ?_
  rintro _ c₁ ⟨v₁, new, σ₁, x, h₁, -, hl⟩
  have hlast := (hl.now h₁).exists_last_aimed
  have hw := h₁.stands.writes
  rw [List.nil_append] at hw
  have hends : c₁.unit.lastIs .pop = decide (ending ss = .value) ∧
      (c₁.unit.lastIs .retValue || c₁.unit.lastIs .ret) = decide (ending ss = .returned) := by
    obtain ⟨rfl, rfl⟩ | ⟨init, i, rfl, hi⟩ := hlast
    · exact ⟨by simp [CodeUnit.lastIs, hw.last, ending], by simp [CodeUnit.lastIs, hw.last, ending]⟩
    · exact hi ▸ ⟨hw.lastIs_pop, hw.lastIs_return⟩
  unfold Compile.returnBodyValue
  refine Gives.reading (a := c₁.unit) rfl ?_
  cases he : ending ss with
  | value =>
    rw [he] at hends
    rw [hends.1, if_pos (by decide)]
    obtain ⟨rfl, -⟩ | ⟨init, i, rfl, hi⟩ := hlast
    · cases he
    obtain ⟨s₀, hi₀, -⟩ := (hl.now h₁).value_aimed he
    obtain ⟨h₂, hs₂⟩ := h₁.returnLast (by rw [hi₀]; rfl)
    refine ⟨v₁, _, σ₁, x, h₂, ?_⟩
    intro pool captured τ b k hm
    obtain ⟨s₁, hi₁, hs₁, hv⟩ := (hl pool captured τ b k
      ⟨hm.constants, hm.captured, hm.targets, hm.exits⟩).value_aimed he
    have hcode : BodyCode pool _ _ ss span _ _ := .value hv
    change BodyCode pool _ _ ss span _ (Compiler.cursor { c₁ with unit := c₁.unit.returnLast } v₁)
    rw [hs₂, hs₁, aimed_append, aimed_singleton, Item.aim_of_not_isJump rfl, hi₁]
    exact hcode
  | returned =>
    rw [he] at hends
    rw [hends.1, hends.2, if_neg (by decide), if_pos (by decide)]
    exact ⟨v₁, _, σ₁, x, h₁, fun pool captured τ b k hm => .returned he (hl pool captured τ b k hm)⟩
  | other =>
    rw [he] at hends
    rw [hends.1, hends.2, if_neg (by decide), if_neg (by decide)]
    refine (Emits.instruction 0 [] _ _ rfl rfl span c₁ v₁ _ σ₁ h₁.stands).mono ?_
      fun _ _ h => h.after h₁.toBalanced
    rintro _ c₂ ⟨v₂, new₂, σ₂, x₂, h₂, -, hl₂⟩
    refine ⟨v₂, _, σ₂, _, h₁.trans hc h₂, ?_⟩
    intro pool captured τ b k hm
    obtain ⟨his, hs, -⟩ := hl₂ pool captured τ b k hm.right
    rw [h₁.setting_eq] at his
    rw [aimed_append, his, hs]
    exact .null he (hl pool captured τ b k (hm.before h₂ h₁.stands))

end Body

section Params

variable {c : Compiler} {v : OpenScopes} {items : List Item} {σ : Targets}

def OpenScopes.bindParams (v : OpenScopes) (params : List Ident) : OpenScopes :=
  params.foldl (fun v p => v.bindSlot p.name) v

theorem OpenScopes.bindParams_eq (main : Body) (globals : Nat) (inner : List OpenBody) (root : Names)
    (taken : Nat) (captured : List String) (params : List Ident) :
    bindParams ⟨main, globals, ⟨⟨root, []⟩, taken, captured⟩ :: inner⟩ params =
      ⟨main, globals, ⟨⟨(((params.map (·.name)).zipIdx taken).map
        fun (name, i) => (name, Binding.slot i)).reverse ++ root, []⟩, taken + params.length,
        captured⟩ :: inner⟩ := by
  induction params generalizing root taken with
  | nil => rfl
  | cons p params ih =>
    have hbind : bindParams ⟨main, globals, ⟨⟨root, []⟩, taken, captured⟩ :: inner⟩ (p :: params) =
        bindParams ⟨main, globals, ⟨⟨(p.name, .slot taken) :: root, []⟩, taken + 1, captured⟩ ::
          inner⟩ params := rfl
    rw [hbind, ih]
    simp [Nat.add_comm, Nat.add_left_comm]

theorem Gives.defineParams (params : List Ident) (hc : c.Stands v items σ) (hi : v.inner ≠ []) :
    Gives (Compile.defineParams params) c
      (fun _ c' => Adds c v items σ c' (v.bindParams params) [] σ {} ∧ c'.unit = c.unit ∧
        c'.constants = c.constants)
      (Fails c v) := by
  induction params generalizing c v with
  | nil => exact ⟨.refl hc, rfl, rfl⟩
  | cons p params ih =>
    refine (Gives.scoped hc (hc.scopes.defineLocal hi p.name) fun _ _ h => h.1).discarded.bind
      (fun _ _ h => h) ?_
    rintro _ _ ⟨_, t, ⟨-, -, ht⟩, rfl⟩
    have hext := OpenScopes.Extends.bindSlot v p.name fun hnil => absurd hnil hi
    have h₁ : Adds c v items σ { c with scopes := t } (v.bindSlot p.name) [] σ {} :=
      .of_scopes hc ht hext
    have hstands := h₁.stands
    rw [List.append_nil] at hstands
    refine (ih hstands (hext.inner_ne_nil.mpr hi)).mono ?_ fun _ _ h => h.after h₁.toBalanced
    rintro _ c₂ ⟨h₂, hu, hk⟩
    rw [← List.append_nil items] at h₂
    exact ⟨h₁.trans_straight hc h₂, hu, hk⟩

def OpenScopes.enterBody (v : OpenScopes) (self : Option String) (params : List Ident) :
    OpenScopes :=
  { v with inner := ⟨.ofParams self (params.map (·.name)), params.length, []⟩ :: v.inner }

def Compile.inBody (self : Option String) (params : List Ident) (step : Compile Unit) :
    Compile Unit :=
  match self with
  | some name => do
    modifyScopes fun t => (t.defineSelf name).2
    defineParams params
    step
  | none => do
    defineParams params
    step

theorem Gives.inBody {self : Option String} {params : List Ident} {step : Compile Unit}
    {Q : Unit → Compiler → Prop} (hc : c.Stands v.enterFunction [] σ)
    (h : ∀ c', c'.Stands (v.enterBody self params) [] σ → c'.unit = c.unit →
      c'.constants = c.constants → Gives step c' Q (Fails c v.enterFunction)) :
    Gives (Compile.inBody self params step) c Q (Fails c v.enterFunction) := by
  obtain ⟨main, globals, inner⟩ := v
  cases self with
  | none =>
    refine (Gives.defineParams _ hc (List.cons_ne_nil _ _)).bind (fun _ _ h => h) ?_
    rintro _ c' ⟨h', hu, hk⟩
    refine h c' ?_ hu hk
    have hstands := h'.stands
    rw [OpenScopes.enterFunction, OpenScopes.bindParams_eq] at hstands
    simpa [OpenScopes.enterBody, Body.ofParams] using hstands
  | some name =>
    have h₁ : Adds c _ [] σ { c with scopes := (c.scopes.defineSelf name).2 } _ [] σ {} :=
      .of_scopes hc (hc.scopes.defineSelf name) (.enterBody ⟨main, globals, inner⟩ _ 0)
    have hstands := h₁.stands
    rw [List.append_nil] at hstands
    refine (Gives.defineParams params hstands (List.cons_ne_nil _ _)).bind
      (fun _ _ h => h.after h₁.toBalanced) ?_
    rintro _ c' ⟨h', hu, hk⟩
    refine h c' ?_ hu hk
    have hstands := h'.stands
    simp only [OpenScopes.enterFunction, OpenScopes.modify, Body.bind] at hstands
    rw [OpenScopes.bindParams_eq] at hstands
    simpa [OpenScopes.enterBody, Body.ofParams] using hstands

end Params

section Captures

variable {span : Span}

theorem Emits.loadCaptured (n : Nat) (loaded : List Place) (symbols : List Symbol) :
    Emits False
      (fun _ _ c s is s' env => ∃ places,
        (symbols.map (·.name)).map (c.env.place? c.captured) = places.map some ∧
        (∀ p ∈ places, p.index < Storage.slotLimit) ∧
        is = (c.above n).loads s span loaded places ∧ s' = s.skipLoads places ∧ env = c.env)
      (Compile.loadCaptured span symbols) := by
  induction symbols generalizing n loaded with
  | nil =>
    refine (Emits.pure (P := fun _ _ => True) fun _ => trivial).mono id ?_
    rintro - pool c s is s' env ⟨rfl, rfl, rfl, -⟩
    exact ⟨[], rfl, by simp, rfl, rfl, rfl⟩
  | cons symbol symbols ih =>
    refine ((Emits.resolve symbol.name span).bind fun x => (Emits.load n loaded x span).bind fun _ =>
      ih (n + 1) (loaded ++ [x.place])).mono id ?_
    rintro - pool c s is s' env ⟨x, _, _, _, _, rfl, ⟨rfl, rfl, rfl, hp, hi⟩, -, _, _, _, _, rfl,
      ⟨rfl, rfl, rfl⟩, places, hplaces, hlt, rfl, rfl, rfl⟩
    refine ⟨x.place :: places, ?_, ?_, rfl, rfl, rfl⟩
    · rw [List.map_cons, List.map_cons, List.map_cons, hp]
      exact congrArg _ hplaces
    · intro p hm
      rcases List.mem_cons.mp hm with rfl | hm
      · exact hi
      · exact hlt p hm

theorem Setting.loads_congr {a b : Setting} {s t : Cursor} (h : a.height = b.height)
    (hs : s.offset = t.offset) (span : Span) (loaded places : List Place) :
    a.loads s span loaded places = b.loads t span loaded places := by
  induction places generalizing a b s t loaded with
  | nil => rfl
  | cons p places ih =>
    simp only [Setting.loads, Setting.item, h, hs]
    congr 1
    exact ih (by simp [Setting.above, h]) (by simp [Cursor.skip, hs]) _

theorem Cursor.skipLoads_eq {s t : Cursor} (hs : s.offset = t.offset) (places : List Place) :
    s.skipLoads places = { s with offset := (t.skipLoads places).offset } := by
  induction places generalizing s t with
  | nil => rw [Cursor.skipLoads, Cursor.skipLoads, ← hs]
  | cons p places ih =>
    rw [Cursor.skipLoads, Cursor.skipLoads, ih (t := t.skip p.load.op) (by simp [Cursor.skip, hs])]
    rfl

theorem Lexical.map_place?_mono {env : Lexical} {captured more names : List String}
    {places : List Place} (hp : captured <+: more)
    (h : names.map (env.place? captured) = places.map some) :
    names.map (env.place? more) = places.map some := by
  induction names generalizing places with
  | nil => exact h
  | cons name names ih =>
    cases places with
    | nil => cases h
    | cons p places =>
      obtain ⟨h₁, h₂⟩ := List.cons.inj h
      rw [List.map_cons, List.map_cons, Lexical.place?_mono hp h₁, ih h₂]

end Captures

section Closure

variable {c : Compiler} {v : OpenScopes} {items : List Item} {σ : Targets} {self : Option String}
  {params : List Ident} {ss : List Stmt} {span bodySpan : Span}

def Compiler.leaveBody (c : Compiler) (enclosing : CodeUnit) : Compiler :=
  { c with unit := enclosing, scopes := c.scopes.leaveFunction.2 }

def Compiler.enterBody (c : Compiler) (self : Option String) : Compiler :=
  { c with unit := {}, scopes := c.scopes.enterFunction self }

def Compile.closure (self : Option String) (params : List Ident) (span : Span) (written : CodeUnit)
    (symbols : FunctionSymbols) : Compile Unit := do
  loadCaptured span symbols.free.toList
  if params.length < 65536 then
    let index ← addConstant
      (.function ⟨written.code, symbols.locals, params.length, self, written.spans⟩) span
    discard (emit .closure [index, symbols.free.size] span)
  else fail (.operandTooLarge .closure params.length) span

theorem Gives.functionWith {body : Compile Unit} {Q : Unit → Compiler → Prop}
    {E : CompileError → Compiler → Prop}
    (h : Gives (Compile.inBody self params (body >>= fun _ => Compile.returnBodyValue bodySpan))
      (c.enterBody self)
      (fun _ c' => Gives (Compile.closure self params span c'.unit c'.scopes.leaveFunction.1)
        (c'.leaveBody c.unit) Q E)
      fun e c' => E e (c'.leaveBody c.unit)) :
    Gives (Compile.functionWith self params span bodySpan body) c Q E := by
  have heq : Compile.functionWith self params span bodySpan body = (do
      let enclosing ← Compile.unit
      Compile.modifyUnit fun _ => {}
      Compile.modifyScopes (·.enterFunction self)
      let result ← Compile.observing
        (Compile.inBody self params (body >>= fun _ => Compile.returnBodyValue bodySpan))
      let written ← Compile.unit
      Compile.modifyUnit fun _ => enclosing
      let symbols ← modifyGet fun c =>
        (c.scopes.leaveFunction.1, { c with scopes := c.scopes.leaveFunction.2 })
      Compile.ofExcept result
      Compile.closure self params span written symbols) := by
    cases self <;> rfl
  rw [heq]
  unfold Compile.unit Compile.modifyUnit Compile.modifyScopes
  unfold Gives at h ⊢
  simp only [bind_apply, get_apply, pure_apply, modify_apply, modifyGet_apply, Compile.observing]
  rcases hx : Compile.inBody self params (body >>= fun _ => Compile.returnBodyValue bodySpan)
    (c.enterBody self) with ⟨e | a, c₁⟩
  all_goals
    rw [hx] at h
    simp only [Compiler.enterBody] at hx
    rw [hx]
    exact h

theorem Compiler.Stands.enterBody (hc : c.Stands v items σ) (self : Option String) :
    (c.enterBody self).Stands v.enterFunction [] fun _ => none :=
  ⟨hc.scopes.enterFunction self, .empty, by simp [Compiler.enterBody], hc.pool⟩

theorem Compiler.Stands.leaveBody {c' : Compiler} {v' : OpenScopes} {written : List Item}
    {σ' : Targets} {exits : Exits} (hc : c.Stands v items σ) (h : c'.Stands v' written σ')
    (hb : Balanced (c.enterBody self) v.enterFunction c' v' exits) :
    Adds c v items σ (c'.leaveBody c.unit) v [] σ {} ∧
      c'.scopes.leaveFunction.1.locals = v'.slots ∧
      c'.scopes.leaveFunction.1.free.toList.map (·.name) = v'.captured ∧
      ∀ name ∈ v'.captured, v.env.enclosed name = true := by
  obtain ⟨b, rfl⟩ := hb.scopes.leaveFunction
  obtain ⟨hlocals, hnames, henclosed, hshows⟩ := h.scopes.leaveFunction
  refine ⟨?_, hlocals, hnames, fun name hname => ?_⟩
  swap
  · simpa [Lexical.enclosed, OpenScopes.env, boundIn, List.any_map, Function.comp_def] using
      henclosed name hname
  exact {
    scopes := .refl v
    constants := hb.constants
    held := rfl
    loops := by simp [Compiler.leaveBody]
    stands := ⟨hshows, by rw [List.append_nil]; exact hc.writes, hc.held, h.pool⟩
    targets := fun _ _ => rfl
    pending := fun j hj => by simp [Exits.all] at hj
    apart := fun j hj => by simp at hj
    outside := fun _ => rfl }

theorem Fails.leaveBody {c' : Compiler} {e : CompileError} (hc : c.Stands v items σ)
    (h : Fails (c.enterBody self) v.enterFunction e c') : Fails c v e (c'.leaveBody c.unit) := by
  obtain ⟨he, v', is, σ', x, hs, hb⟩ := h
  obtain ⟨ha, -⟩ := hc.leaveBody hs hb
  exact ⟨he, v, _, σ, {}, ha.stands, ha.toBalanced⟩

/-- The constants that the body adds come before the closure is made. -/
theorem ClosureCode.of_loads {pool : Array Value} {a : Setting} {t s : Cursor} {first : Nat}
    {names : List String} {places : List Place} {f : Function} {is : List Item}
    (hf : FunctionCode pool a.env names first self params ss bodySpan f is s)
    (hpool : pool[s.constants]? = some (.function f))
    (hplaces : names.map (a.env.place? a.captured) = places.map some)
    (hn : ∀ name ∈ names, a.env.enclosed name = true ∧
      (a.env.enterFunction self (params.map (·.name))).binds name = false)
    (hlt : ∀ p ∈ places, p.index < Storage.slotLimit) :
    ClosureCode pool a { t with constants := first } self params ss bodySpan span
      (a.loads t span [] places ++
        [{ (a.above places.length).item (t.skipLoads places)
            ⟨.closure, [s.constants, names.length]⟩ span with
          loaded := places
          literal := some ⟨a.env, self, params, ss, names⟩ }])
      { (t.skipLoads places).skip .closure with constants := s.constants + 1 } := by
  let t₀ : Cursor := { t with constants := first }
  have hskip : t.skipLoads places = { t with offset := (t₀.skipLoads places).offset } :=
    Cursor.skipLoads_eq (s := t) (t := t₀) rfl places
  have hskip₀ : t₀.skipLoads places = { t₀ with offset := (t₀.skipLoads places).offset } :=
    Cursor.skipLoads_eq rfl places
  rw [Setting.loads_congr (a := a) (s := t) (t := t₀) rfl rfl, hskip]
  have hcode : ClosureCode pool a t₀ self params ss bodySpan span _ _ :=
    .mk hf hpool hplaces hn hlt
  rw [hskip₀] at hcode
  exact hcode

/-- The captured names are loaded, and a closure is made of the function constant. -/
theorem closure_emitted {written : CodeUnit} {symbols : FunctionSymbols} {first : Nat} {s : Cursor}
    {is : List Item} (hc : c.Stands v items σ) (hs : s.constants = c.constants.size)
    (hf : ∀ pool : Array Value, c.constants.toList <+: pool.toList →
      FunctionCode pool v.env (symbols.free.toList.map (·.name)) first self params ss bodySpan
        ⟨written.code, symbols.locals, params.length, self, written.spans⟩ is s)
    (hn : ∀ name ∈ symbols.free.toList.map (·.name), v.env.enclosed name = true ∧
      (v.env.enterFunction self (params.map (·.name))).binds name = false) :
    Gives (Compile.closure self params span written symbols) c
      (fun _ c' => ∃ v' new σ' exits, Adds c v items σ c' v' new σ' exits ∧
        Lists (fun pool a t is t' env =>
          ClosureCode pool a { t with constants := first } self params ss bodySpan span is t' ∧
            env = a.env) c v c' v' new σ' exits)
      (Fails c v) := by
  let f : Function := ⟨written.code, symbols.locals, params.length, self, written.spans⟩
  let names := symbols.free.toList.map (·.name)
  unfold Compile.closure
  refine (Emits.loadCaptured 0 [] symbols.free.toList c v items σ hc).bind (fun _ _ h => h) ?_
  rintro _ c₁ ⟨v₁, new₁, σ₁, x₁, h₁, -, hl₁⟩
  obtain ⟨places, hplaces, hlt, -, hs₁, henv⟩ := hl₁.now h₁
  split
  case isFalse => exact (Fails.of_stands h₁.stands (by simp)).after h₁.toBalanced
  have hindex : s.constants = c₁.constants.size := by
    have := congrArg Cursor.constants hs₁
    rw [Cursor.skipLoads_eq rfl] at this
    exact hs.trans this.symm
  have hconstant : ConstantOk c₁.constants v₁.globals c₁.constants.size (.function f) :=
    .function (fun name i hi => Nat.lt_of_lt_of_le (hc.scopes.slot_lt_globals hi)
      h₁.scopes.globals_le) hindex fun pool hp => hf pool (h₁.constants.trans hp)
  refine (h₁.stands.addConstant hconstant span).bind (fun _ _ h => h.after h₁.toBalanced) ?_
  rintro _ c₂ ⟨rfl, hpush, h₂, hs₂⟩
  let i : Item := { Setting.item ((c.setting v [] 0 0).above places.length)
      ((c.cursor v).skipLoads places) ⟨.closure, [c₁.constants.size, symbols.free.size]⟩ span with
    loaded := places
    literal := some ⟨v.env, self, params, ss, names⟩ }
  have hoffset : i.offset = c₂.unit.code.size := by
    have := congrArg Cursor.offset (hs₂.trans (congrArg Cursor.addConstant hs₁))
    exact this.symm
  refine (h₂.stands.emit (i := i) rfl hoffset rfl).discarded.mono ?_
    fun _ _ h => (h.after h₂.toBalanced).after h₁.toBalanced
  rintro _ c₃ ⟨_, -, h₃, -, hs₃⟩
  have h₁₂ := h₁.trans_straight hc h₂
  rw [List.append_nil] at h₁₂
  rw [List.append_nil] at h₃
  refine ⟨v₁, new₁ ++ [i], σ₁, x₁, h₁₂.trans_straight hc h₃, ?_⟩
  intro pool captured τ b k hm
  have hm₂ := hm.before_straight h₃ h₁₂.stands
  have hm₁ := hm₂.before_straight h₂ h₁.stands
  obtain ⟨places', hplaces', -, his, -⟩ := hl₁ pool captured τ b k hm₁
  have hmore := Lexical.map_place?_mono hm₁.captured hplaces
  obtain rfl : places' = places :=
    List.map_injective_iff.mpr (fun _ _ h => Option.some.inj h) (hplaces'.symm.trans hmore)
  refine ⟨?_, henv⟩
  have hpool : pool[s.constants]? = some (.function f) := by
    refine getElem?_of_extends hm₂.constants ?_
    rw [hpush, hindex]
    simp
  have hitem : i.aim τ = { Setting.item ((c.setting v captured b k).above places'.length)
      ((c.cursor v).skipLoads places') ⟨.closure, [s.constants, names.length]⟩ span with
      loaded := places'
      literal := some ⟨v.env, self, params, ss, names⟩ } := by
    rw [Item.aim_of_not_isJump rfl]
    simp only [i, Setting.item, hindex, names, List.length_map, Array.length_toList]
    rfl
  have hcursor : c₃.cursor v₁ =
      { ((c.cursor v).skipLoads places').skip .closure with constants := s.constants + 1 } := by
    rw [hs₃, hs₂, hs₁, Cursor.skipLoads_eq (t := c.cursor v) rfl, hs]
    rfl
  rw [aimed_append, aimed_singleton, his, hitem, hcursor]
  exact .of_loads (hf pool (h₁.constants.trans hm₁.constants)) hpool hplaces' hn hlt

/-- A function literal adds its listing, and its body goes into the pool. -/
theorem Emits.functionWith (hss : StmtsEmitted ss) (self : Option String) (params : List Ident)
    (span bodySpan : Span) :
    Emits False (fun _ pool c s is s' env =>
        ClosureCode pool c s self params ss bodySpan span is s' ∧ env = c.env)
      (Compile.functionWith self params span bodySpan (Compile.statements ss)) := by
  intro c v items σ hc
  have hbody : Gives (Compile.inBody self params
      (Compile.statements ss >>= fun _ => Compile.returnBodyValue bodySpan)) (c.enterBody self)
      (fun _ c₂ => ∃ c₁ v₂ new σ₂ x, c₁.unit = {} ∧ c₁.constants = c.constants ∧
        Balanced (c.enterBody self) v.enterFunction c₂ v₂ x ∧
        Adds c₁ (v.enterBody self params) [] (fun _ => none) c₂ v₂ new σ₂ x ∧
        Lists (fun pool c s is s' _ => BodyCode pool c s ss bodySpan is s')
          c₁ (v.enterBody self params) c₂ v₂ new σ₂ x)
      (Fails (c.enterBody self) v.enterFunction) := by
    refine Gives.inBody (hc.enterBody self) fun c₁ hc₁ hu hk => ?_
    have hb : Balanced (c.enterBody self) v.enterFunction c₁ (v.enterBody self params) {} :=
      ⟨.enterBody v _ _, hk ▸ List.prefix_refl _, by rw [hu], by rw [hu]; simp⟩
    refine (body_emitted hss hc₁).mono ?_ fun _ _ h => h.after hb
    rintro _ c₂ ⟨v₂, new, σ₂, x, h₂, hl⟩
    exact ⟨c₁, v₂, new, σ₂, x, hu, hk, by simpa using hb.trans h₂.toBalanced, h₂, hl⟩
  refine Gives.functionWith (hbody.mono ?_ fun _ _ h => h.leaveBody hc)
  rintro _ c₂ ⟨c₁, v₂, new, σ₂, x, hu, hk, hb, h₂, hl⟩
  obtain ⟨h₃, hlocals, hnames, henclosed⟩ := hc.leaveBody h₂.stands hb
  have hx : x = {} := h₂.outside (by rw [hu])
  subst hx
  have hf (pool : Array Value) (hp : (c₂.leaveBody c.unit).constants.toList <+: pool.toList) :
      FunctionCode pool v.env (c₂.scopes.leaveFunction.1.free.toList.map (·.name)) c.constants.size
        self params ss bodySpan ⟨c₂.unit.code, c₂.scopes.leaveFunction.1.locals, params.length, self,
          c₂.unit.spans⟩ (aimed σ₂.operand new) (c₂.cursor v₂) := by
    have hcode := hl pool v₂.captured σ₂.operand CodeUnit.placeholder CodeUnit.placeholder
      ⟨hp, List.prefix_refl _, fun p t ht => by simp [Targets.operand, ht], by simp, by simp⟩
    have hw := h₂.stands.writes
    rw [List.nil_append] at hw
    rw [hnames]
    refine .mk ?_ ?_ hw.code hlocals rfl rfl (hw.spans.aimed _)
    · simp only [Compiler.setting, Compiler.cursor, hu, hk] at hcode
      exact hcode
    · intro j hj
      obtain ⟨i, hi, rfl⟩ := List.mem_map.mp hj
      exact hw.fits i hi
  have hstands := h₃.stands
  rw [List.append_nil] at hstands
  have hfree (name : String) (hname : name ∈ c₂.scopes.leaveFunction.1.free.toList.map (·.name)) :
      v.env.enclosed name = true ∧
        (v.env.enterFunction self (params.map (·.name))).binds name = false := by
    rw [hnames] at hname
    exact ⟨henclosed name hname, (h₂.scopes.fresh name hname).resolve_left (by simp [OpenScopes.captured,
      OpenScopes.enterBody])⟩
  refine (closure_emitted hstands rfl hf hfree).mono ?_ fun _ _ h => h.after h₃.toBalanced
  rintro _ c₄ ⟨v₄, new₄, σ₄, x₄, h₄, hl₄⟩
  rw [← List.append_nil items] at h₄
  refine ⟨v₄, new₄, σ₄, x₄, by simpa using h₃.trans hc h₄, fun h => h.elim, hl₄⟩

theorem Expr.Emitted.function {name : Option String} (hss : StmtsEmitted ss) :
    (Expr.function name params (.mk ss bodySpan) span).Emitted := by
  unfold Emitted
  rw [Compile.expr]
  refine (Emits.functionWith hss name params span bodySpan).mono id ?_
  rintro - pool c s is s' env ⟨h, rfl⟩
  exact ⟨.function h, rfl⟩

/-- A function is bound before its body is compiled, so that the body can use the name. -/
theorem Stmt.Emitted.bindFunction {name : Ident} {own : Option String} {valueSpan : Span}
    (hss : StmtsEmitted ss) :
    (Stmt.bind name (.function own params (.mk ss bodySpan) valueSpan) span).Emitted := by
  unfold Emitted
  have hstmt : Compile.stmt (.bind name (.function own params (.mk ss bodySpan) valueSpan) span) =
      (Compile.define name >>= fun x =>
        Compile.functionWith (own.or (some name.name)) params valueSpan bodySpan
          (Compile.statements ss) >>= fun _ => Compile.store x span) := rfl
  rw [hstmt]
  refine ((Emits.define name).bind fun x =>
    (Emits.functionWith hss (own.or (some name.name)) params valueSpan bodySpan).bind fun _ =>
      Emits.store 1 x span).mono (fun _ => trivial) ?_
  rintro - pool c s is s' env ⟨_, _, _, _, _, rfl, ⟨rfl, hi, slots, hd, rfl⟩, _, _, _, _, _, rfl,
    ⟨h, rfl⟩, rfl, rfl, rfl⟩
  exact .bindFunction hd hi h

end Closure

end StackScript
