import StackScript.Proofs.Scope.Roster

/-! # Slots are never shared

The operations of a scope table one after the other, with all they gave back. Whatever their order,
no two symbols share a slot: not two globals, not two locals of a function body, and not two names
that are visible at one point.
-/

namespace StackScript

namespace ScopeTable

inductive Op
  | enterFunction (name : Option String)
  | leaveFunction
  | enterBlock (kind : BlockKind)
  | leaveBlock
  | define (name : String)
  | parameter (name : String)
  | self (name : String)
  | resolve (name : String)
  | builtin (name : String) (index : Nat)

inductive Answer
  | done
  | symbol (s : Symbol)
  | failed (e : SymbolError)
  /-- The function body `depth` has ended. -/
  | left (depth : Nat) (symbols : FunctionSymbols)

namespace Answer

def ofResult : Except SymbolError Symbol × ScopeTable → Answer × ScopeTable
  | (.ok s, t) => (symbol s, t)
  | (.error e, t) => (failed e, t)

def symbols : Answer → List Symbol
  | done | failed _ => []
  | symbol s => [s]
  | left _ symbols => symbols.free.toList

end Answer

namespace Op

def apply (op : Op) (t : ScopeTable) : Answer × ScopeTable :=
  match op with
  | enterFunction name => (.done, t.enterFunction name)
  | leaveFunction => (.left t.current.depth t.leaveFunction.1, t.leaveFunction.2)
  | enterBlock kind => (.done, t.enterBlock kind)
  | leaveBlock => (.done, t.leaveBlock)
  | define name => Answer.ofResult (Scoping.define name t)
  | parameter name => Answer.ofResult (Scoping.defineParameter name t)
  | self name => (.symbol (t.defineSelf name).1, (t.defineSelf name).2)
  | resolve name => Answer.ofResult (Scoping.resolve name t)
  | builtin name index => Answer.ofResult (Scoping.defineBuiltin name index t)

/-- Parameters belong to a function, and a builtin is looked for when no scope binds its name. Scopes
are opened until their numbers are used up. -/
def Allowed (op : Op) (t : ScopeTable) : Prop :=
  match op with
  | enterFunction _ | enterBlock _ => t.nextId < maxId
  | parameter _ => t.inner ≠ []
  | builtin name _ => (Scoping.resolve name t).1 = .error (.unresolved name)
  | _ => True

instance (op : Op) (t : ScopeTable) : Decidable (op.Allowed t) :=
  match op with
  | enterFunction _ | enterBlock _ => Nat.decLt ..
  | parameter _ => decidable_of_iff (t.inner.isEmpty = false) (by simp [Allowed])
  | builtin name _ =>
    match h : (Scoping.resolve name t).1 with
    | .ok _ => .isFalse (by simp [Allowed, h])
    | .error e => decidable_of_iff (e = .unresolved name) (by simp [Allowed, h])
  | leaveFunction | leaveBlock | define _ | self _ | resolve _ => .isTrue trivial

end Op

/-- Operations and what they gave back, the first one first. -/
abbrev History := List (Op × Answer)

inductive Reached : ScopeTable → History → Prop
  | start : Reached {} []
  | step {t : ScopeTable} {history : History} (op : Op) : Reached t history → op.Allowed t →
      Reached (op.apply t).2 (history ++ [(op, (op.apply t).1)])

namespace History

def symbols (history : History) : List Symbol := history.flatMap fun (_, answer) => answer.symbols

/-- The parameter of the body `depth` that an operation defined. -/
def parameter? (depth : Nat) : Op × Answer → Option Symbol
  | (.parameter _, .symbol s) => if s.depth = depth then some s else none
  | _ => none

def parameters (history : History) (depth : Nat) : List Symbol :=
  history.filterMap (parameter? depth)

/-- No local of the body `depth` has been defined yet that is no parameter. -/
def OnlyParameters (history : History) (depth : Nat) : Prop :=
  ∀ name s, (Op.define name, Answer.symbol s) ∈ history → s.storage = .localSlot → s.depth ≠ depth

variable {history : History} {op : Op} {answer : Answer} {depth : Nat} {s : Symbol}

@[simp] theorem mem_symbols_append :
    s ∈ symbols (history ++ [(op, answer)]) ↔ s ∈ symbols history ∨ s ∈ answer.symbols := by
  simp [symbols]

theorem parameters_append : parameters (history ++ [(op, answer)]) depth =
    parameters history depth ++ (parameter? depth (op, answer)).toList := by
  unfold parameters
  cases hp : parameter? depth (op, answer) <;> simp [List.filterMap_append, hp]

theorem OnlyParameters.of_append (h : OnlyParameters (history ++ [(op, answer)]) depth) :
    OnlyParameters history depth :=
  fun name s hs => h name s (List.mem_append_left _ hs)

end History

/-- How many local slots a body has: an open one so far, a closed one at its end. -/
inductive LocalCount (t : ScopeTable) (history : History) (depth : Nat) : Nat → Prop
  | opened {f : FunctionScope} : f ∈ t.inner → f.depth = depth →
      LocalCount t history depth f.locals
  | closed {op : Op} {symbols : FunctionSymbols} : (op, .left depth symbols) ∈ history →
      LocalCount t history depth symbols.locals

structure Recorded (t : ScopeTable) (history : History) (r : Roster) : Prop where
  rostered : t.Rostered r
  listed : ∀ s ∈ history.symbols, r.Lists s
  globals : ∀ s ∈ r .globalSlot 0, s ∈ history.symbols
  closed : ∀ {op : Op} {depth : Nat} {symbols : FunctionSymbols},
    (op, .left depth symbols) ∈ history → symbols.locals = (r .localSlot depth).length ∧
      depth < t.nextId ∧ depth ∉ t.inner.map (·.depth)
  bodies : ∀ depth, r .localSlot depth ≠ [] → depth ∈ t.inner.map (·.depth) ∨
    ∃ op symbols, (op, .left depth symbols) ∈ history
  parameters : ∀ depth, history.OnlyParameters depth →
    history.parameters depth = r .localSlot depth

namespace Recorded

variable {t t' : ScopeTable} {history : History} {r r' : Roster} {op : Op} {s : Symbol}

open Roster

theorem initial : Recorded {} [] fun _ _ => [] where
  rostered := .initial
  listed := by simp [History.symbols]
  globals := by simp
  closed := by simp
  bodies := by simp
  parameters := by simp [History.parameters]

/-- What an operation has to leave intact. A body that is open before is open or has just ended
after, and no body is opened twice. -/
theorem append {answer : Answer} (h : Recorded t history r) (ht : t'.Rostered r') (hg : r.Grows r')
    (hsymbols : ∀ s ∈ answer.symbols, r'.Lists s)
    (hglobals : ∀ s ∈ r' .globalSlot 0, s ∈ r .globalSlot 0 ∨ s ∈ answer.symbols)
    (hkeep : ∀ depth ∉ t.inner.map (·.depth), r' .localSlot depth = r .localSlot depth)
    (hnext : t.nextId ≤ t'.nextId)
    (hopen : ∀ depth < t.nextId, depth ∈ t'.inner.map (·.depth) → depth ∈ t.inner.map (·.depth))
    (hstay : ∀ depth ∈ t.inner.map (·.depth), depth ∈ t'.inner.map (·.depth) ∨
      ∃ symbols, answer = .left depth symbols)
    (hleft : ∀ depth symbols, answer = .left depth symbols →
      symbols.locals = (r' .localSlot depth).length ∧ depth < t'.nextId ∧
        depth ∉ t'.inner.map (·.depth))
    (hparams : ∀ depth, (history ++ [(op, answer)]).OnlyParameters depth →
      history.parameters depth ++ (History.parameter? depth (op, answer)).toList =
        r' .localSlot depth) : Recorded t' (history ++ [(op, answer)]) r' := by
  constructor
  · exact ht
  · intro s hs
    rcases History.mem_symbols_append.mp hs with hs | hs
    · exact (h.listed s hs).mono hg
    · exact hsymbols s hs
  · intro s hs
    apply History.mem_symbols_append.mpr
    rcases hglobals s hs with hs | hs
    · exact .inl (h.globals s hs)
    · exact .inr hs
  · intro op' depth symbols hmem
    rcases List.mem_append.mp hmem with hmem | hmem
    · obtain ⟨hlocals, hlt, hclosed⟩ := h.closed hmem
      rw [hkeep depth hclosed]
      exact ⟨hlocals, Nat.lt_of_lt_of_le hlt hnext, fun ho => hclosed (hopen depth hlt ho)⟩
    · obtain ⟨-, he⟩ : op' = op ∧ Answer.left depth symbols = answer := by simpa using hmem
      exact hleft depth symbols he.symm
  · intro depth hne
    by_cases ho : depth ∈ t.inner.map (·.depth)
    · rcases hstay depth ho with ho | ⟨symbols, rfl⟩
      · exact .inl ho
      · exact .inr ⟨op, symbols, by simp⟩
    · rw [hkeep depth ho] at hne
      rcases h.bodies depth hne with ho' | ⟨op', symbols, hmem⟩
      · exact absurd ho' ho
      · exact .inr ⟨op', symbols, List.mem_append_left _ hmem⟩
  · intro depth hp
    rw [History.parameters_append]
    exact hparams depth hp

theorem quiet {answer : Answer} (h : Recorded t history r) (ht : t'.Rostered r)
    (hanswer : answer = .done ∨ ∃ e, answer = .failed e) (hnext : t.nextId ≤ t'.nextId)
    (hopen : ∀ depth < t.nextId, depth ∈ t'.inner.map (·.depth) ↔ depth ∈ t.inner.map (·.depth)) :
    Recorded t' (history ++ [(op, answer)]) r := by
  have hsymbols : answer.symbols = [] := by rcases hanswer with rfl | ⟨e, rfl⟩ <;> rfl
  have hleft (depth : Nat) (symbols : FunctionSymbols) : answer ≠ .left depth symbols := by
    rcases hanswer with rfl | ⟨e, rfl⟩ <;> simp
  apply h.append ht (.refl r)
  · simp [hsymbols]
  · exact fun s hs => .inl hs
  · exact fun _ _ => rfl
  · exact hnext
  · exact fun depth hlt => (hopen depth hlt).mp
  · intro depth ho
    obtain ⟨f, hf, rfl⟩ := List.mem_map.mp ho
    exact .inl ((hopen _ (h.rostered.depths f hf).2).mpr ho)
  · exact fun depth symbols he => absurd he (hleft depth symbols)
  · intro depth hp
    have hnone : History.parameter? depth (op, answer) = none := by
      rcases hanswer with rfl | ⟨e, rfl⟩ <;> cases op <;> rfl
    rw [hnone, h.parameters depth hp.of_append, Option.toList_none, List.append_nil]

theorem failed (h : Recorded t history r) (e : SymbolError) :
    Recorded t (history ++ [(op, .failed e)]) r :=
  h.quiet h.rostered (.inr ⟨e, rfl⟩) (Nat.le_refl _) fun _ _ => Iff.rfl

/-- An operation that gives back a symbol keeps the roster or appends the symbol to it. -/
theorem supplied (h : Recorded t history r) (hs : Supplies t r s t' r')
    (hrow : r' = r ∨ r' = r.add s ∧
      (s.storage = .globalSlot ∨ ∃ f ∈ t.inner, s.depth = f.depth))
    (hparams : ∀ depth, (history ++ [(op, Answer.symbol s)]).OnlyParameters depth →
      history.parameters depth ++ (History.parameter? depth (op, .symbol s)).toList =
        r' .localSlot depth) : Recorded t' (history ++ [(op, .symbol s)]) r' := by
  apply h.append hs.rostered
  · rcases hrow with rfl | ⟨rfl, -⟩
    · exact .refl _
    · exact grows_add r s
  · rintro s' hs'
    obtain rfl : s' = s := by simpa [Answer.symbols] using hs'
    exact hs.lists
  · intro s' hs'
    rcases hrow with rfl | ⟨rfl, -⟩
    · exact .inl hs'
    · unfold Roster.add at hs'
      split at hs'
      · simpa [Answer.symbols] using hs'
      · exact .inl hs'
  · -- only the rows of the open bodies change
    intro depth hclosed
    rcases hrow with rfl | ⟨rfl, hst | ⟨f, hf, hd⟩⟩
    · rfl
    · exact add_of_storage_ne (by simp [hst]) depth
    · refine add_of_depth_ne (fun he => hclosed ?_) _
      rw [← he, hd]
      exact List.mem_map_of_mem hf
  · exact Nat.le_of_eq hs.nextId.symm
  · exact fun depth _ ho => hs.bodies ▸ ho
  · exact fun depth ho => .inl (hs.bodies ▸ ho)
  · exact fun depth symbols he => by cases he
  · exact hparams

/-- Of the operations that give back a symbol, only two touch the locals of a body. -/
theorem suppliedOther (h : Recorded t history r) (hs : Supplies t r s t' r')
    (hop : ∀ depth, History.parameter? depth (op, .symbol s) = none)
    (hrow : r' = r ∨ r' = r.add s ∧ s.storage = .captured ∧ ∃ f ∈ t.inner, s.depth = f.depth) :
    Recorded t' (history ++ [(op, .symbol s)]) r' := by
  apply h.supplied hs
  · rcases hrow with rfl | ⟨rfl, -, hbody⟩
    · exact .inl rfl
    · exact .inr ⟨rfl, .inr hbody⟩
  · intro depth hp
    rw [hop depth, h.parameters depth hp.of_append, Option.toList_none, List.append_nil]
    rcases hrow with rfl | ⟨rfl, hst, -⟩
    · rfl
    · rw [add_of_storage_ne (by simp [hst])]

theorem define (h : Recorded t history r) (name : String) :
    ∃ r', Recorded (Op.apply (.define name) t).2
      (history ++ [(.define name, (Op.apply (.define name) t).1)]) r' := by
  have hgives := h.rostered.define name
  unfold Gives at hgives
  rcases hd : Scoping.define name t with ⟨e | s, t'⟩ <;> rw [hd] at hgives <;>
    simp only [Op.apply, hd, Answer.ofResult]
  · obtain rfl : t' = t := hgives
    exact ⟨r, h.failed e⟩
  · obtain ⟨r', hs, hrow⟩ := hgives
    refine ⟨r', h.supplied hs ?_ ?_⟩
    · rcases hrow with rfl | ⟨rfl, hst | ⟨-, hbody⟩⟩
      · exact .inl rfl
      · exact .inr ⟨rfl, .inl hst⟩
      · exact .inr ⟨rfl, .inr hbody⟩
    · intro depth hp
      have hnone : History.parameter? depth (.define name, .symbol s) = none := rfl
      rw [hnone, h.parameters depth hp.of_append, Option.toList_none, List.append_nil]
      rcases hrow with rfl | ⟨rfl, hst | ⟨hst, -⟩⟩
      · rfl
      · rw [add_of_storage_ne (by simp [hst])]
      · -- a local that is no parameter
        rw [add_of_depth_ne (hp name s (by simp) hst)]

theorem parameter (h : Recorded t history r) (name : String) (hi : t.inner ≠ []) :
    ∃ r', Recorded (Op.apply (.parameter name) t).2
      (history ++ [(.parameter name, (Op.apply (.parameter name) t).1)]) r' := by
  obtain ⟨f, fs, hinner⟩ := List.exists_cons_of_ne_nil hi
  have hgives := h.rostered.defineLocal hinner name
  unfold Gives at hgives
  rcases hd : Scoping.defineLocal name t with ⟨e | s, t'⟩ <;> rw [hd] at hgives <;>
    simp only [Op.apply, Scoping.defineParameter, hd, Answer.ofResult]
  · obtain rfl : t' = t := hgives
    exact ⟨r, h.failed e⟩
  · obtain ⟨hs, hst, hdepth⟩ := hgives
    refine ⟨r.add s, h.supplied hs (.inr ⟨rfl, .inr ⟨f, by simp [hinner], hdepth⟩⟩) ?_⟩
    intro depth hp
    rw [History.parameter?, h.parameters depth hp.of_append]
    by_cases hsd : s.depth = depth
    · subst hsd
      rw [if_pos rfl, ← hst, add_self]
      rfl
    · rw [if_neg hsd, add_of_depth_ne hsd, Option.toList_none, List.append_nil]

theorem resolve (h : Recorded t history r) (name : String) :
    ∃ r', Recorded (Op.apply (.resolve name) t).2
      (history ++ [(.resolve name, (Op.apply (.resolve name) t).1)]) r' := by
  have hgives := h.rostered.resolve name
  unfold Gives at hgives
  rcases hd : Scoping.resolve name t with ⟨e | s, t'⟩ <;> rw [hd] at hgives <;>
    simp only [Op.apply, hd, Answer.ofResult]
  · obtain rfl : t' = t := hgives
    exact ⟨r, h.failed e⟩
  · obtain ⟨-, r', hs, hrow⟩ := hgives
    exact ⟨r', h.suppliedOther hs (fun _ => rfl) hrow⟩

theorem builtin (h : Recorded t history r) (name : String) (index : Nat) :
    Recorded (Op.apply (.builtin name index) t).2
      (history ++ [(.builtin name index, (Op.apply (.builtin name index) t).1)]) r := by
  have hgives := h.rostered.defineBuiltin name index
  unfold Gives at hgives
  rcases hd : Scoping.defineBuiltin name index t with ⟨e | s, t'⟩ <;> rw [hd] at hgives <;>
    simp only [Op.apply, hd, Answer.ofResult]
  · obtain rfl : t' = t := hgives
    exact h.failed e
  · exact h.suppliedOther hgives (fun _ => rfl) (.inl rfl)

theorem self (h : Recorded t history r) (name : String) :
    Recorded (Op.apply (.self name) t).2
      (history ++ [(.self name, (Op.apply (.self name) t).1)]) r := by
  obtain ⟨hrostered, hlists⟩ := h.rostered.defineSelf name
  refine h.suppliedOther ⟨hrostered, hlists, ?_, ?_⟩ (fun _ => rfl) (.inl rfl) <;>
    obtain ⟨main, _ | ⟨f, fs⟩, nextId, globals⟩ := t <;> rfl

theorem leaveFunction (h : Recorded t history r) :
    Recorded (Op.apply .leaveFunction t).2
      (history ++ [(.leaveFunction, (Op.apply .leaveFunction t).1)]) r := by
  apply h.append h.rostered.leaveFunction (.refl r)
  · intro s hs
    obtain ⟨main, _ | ⟨f, fs⟩, nextId, globals⟩ := t
    · simp [Op.apply, Answer.symbols, ScopeTable.leaveFunction] at hs
    · have hf := h.rostered.inner f (by simp)
      exact hf.outer s (by simpa [Op.apply, Answer.symbols, ScopeTable.leaveFunction] using hs)
  · exact fun s hs => .inl hs
  · exact fun _ _ => rfl
  · obtain ⟨main, _ | ⟨f, fs⟩, nextId, globals⟩ := t <;> exact Nat.le_refl _
  · intro depth _ ho
    obtain ⟨main, _ | ⟨f, fs⟩, nextId, globals⟩ := t
    · exact ho
    · exact List.mem_cons_of_mem _ ho
  · intro depth ho
    obtain ⟨main, _ | ⟨f, fs⟩, nextId, globals⟩ := t
    · exact .inl ho
    · rcases List.mem_cons.mp ho with rfl | ho
      · exact .inr ⟨_, rfl⟩
      · exact .inl ho
  · intro depth symbols he
    obtain ⟨rfl, rfl⟩ : t.current.depth = depth ∧ t.leaveFunction.1 = symbols := by
      simpa [Op.apply] using he
    obtain ⟨main, _ | ⟨f, fs⟩, nextId, globals⟩ := t
    · have hd : main.depth = 0 := h.rostered.main_depth
      have htop := h.rostered.top
      refine ⟨?_, ?_, by simp [ScopeTable.leaveFunction]⟩
      · change 0 = (r .localSlot main.depth).length
        rw [hd, htop]
        rfl
      · change main.depth < nextId
        rw [hd]
        exact h.rostered.started
    · refine ⟨(h.rostered.inner f (by simp)).locals.symm, (h.rostered.depths f (by simp)).2, ?_⟩
      intro ho
      obtain ⟨g, hg, heq⟩ := List.mem_map.mp ho
      exact (List.pairwise_cons.mp h.rostered.distinct).1 g hg heq.symm
  · intro depth hp
    have hnone : History.parameter? depth (.leaveFunction, (Op.apply .leaveFunction t).1) = none := rfl
    rw [hnone, h.parameters depth hp.of_append, Option.toList_none, List.append_nil]

theorem step (h : Recorded t history r) (op : Op) (hop : op.Allowed t) :
    ∃ r', Recorded (op.apply t).2 (history ++ [(op, (op.apply t).1)]) r' := by
  cases op with
  | enterFunction name =>
    refine ⟨r, h.quiet (h.rostered.enterFunction name) (.inl rfl) (Nat.le_succ _) ?_⟩
    intro depth hlt
    have hne : depth ≠ t.nextId := Nat.ne_of_lt hlt
    simp [Op.apply, ScopeTable.enterFunction, hne]
  | leaveFunction => exact ⟨r, h.leaveFunction⟩
  | enterBlock kind =>
    refine ⟨r, h.quiet (h.rostered.enterBlock kind) (.inl rfl) ?_ fun depth _ => ?_⟩
    · obtain ⟨main, _ | ⟨f, fs⟩, nextId, globals⟩ := t <;> exact Nat.le_succ _
    · obtain ⟨main, _ | ⟨f, fs⟩, nextId, globals⟩ := t <;> exact Iff.rfl
  | leaveBlock =>
    refine ⟨r, h.quiet h.rostered.leaveBlock (.inl rfl) ?_ fun depth _ => ?_⟩
    · obtain ⟨main, _ | ⟨f, fs⟩, nextId, globals⟩ := t <;> exact Nat.le_refl _
    · obtain ⟨main, _ | ⟨f, fs⟩, nextId, globals⟩ := t <;> exact Iff.rfl
  | define name => exact h.define name
  | parameter name => exact h.parameter name hop
  | self name => exact ⟨r, h.self name⟩
  | resolve name => exact h.resolve name
  | builtin name index => exact ⟨r, h.builtin name index⟩

end Recorded

theorem Rostered.depth_current_eq {t t' : ScopeTable} {r r' : Roster} (h' : t'.Rostered r')
    (h : t.Rostered r) (hb : t'.inner.map (·.depth) = t.inner.map (·.depth)) :
    t'.current.depth = t.current.depth := by
  have hd := h.main_depth
  have hd' := h'.main_depth
  obtain ⟨main, _ | ⟨f, fs⟩, nextId, globals⟩ := t <;>
    obtain ⟨main', _ | ⟨f', fs'⟩, nextId', globals'⟩ := t' <;>
    simp_all [ScopeTable.current]

namespace Reached

open Roster

variable {t : ScopeTable} {history : History}

theorem recorded (h : Reached t history) : ∃ r, Recorded t history r := by
  induction h with
  | start => exact ⟨_, .initial⟩
  | step op _ hop ih =>
    obtain ⟨r, hr⟩ := ih
    exact hr.step op hop

theorem of_append {before after : History} (h : Reached t (before ++ after)) :
    ∃ t', Reached t' before := by
  generalize hh : before ++ after = history at h
  induction h generalizing after with
  | start =>
    obtain ⟨rfl, -⟩ := List.append_eq_nil_iff.mp hh
    exact ⟨_, .start⟩
  | @step t history op hr hop ih =>
    rcases List.eq_nil_or_concat after with rfl | ⟨after', last, rfl⟩
    · rw [List.append_nil] at hh
      rw [hh]
      exact ⟨_, .step op hr hop⟩
    · rw [List.concat_eq_append, ← List.append_assoc] at hh
      exact ih (List.append_inj_left' hh rfl)

end Reached

theorem Rostered.resolveAll {t t' : ScopeTable} {r : Roster} {names : List String}
    {ss : List Symbol} (h : t.Rostered r) (hs : names.mapM Scoping.resolve t = (.ok ss, t')) :
    ∃ r', t'.Rostered r' ∧ r.Grows r' ∧
      ∀ p ∈ names.zip ss, Resolved t p.1 p.2 ∧ r'.Lists p.2 := by
  induction names generalizing t r ss with
  | nil =>
    obtain ⟨rfl, rfl⟩ : [] = ss ∧ t = t' := by
      cases hs
      exact ⟨rfl, rfl⟩
    exact ⟨r, h, .refl r, by simp⟩
  | cons name names ih =>
    rw [List.mapM_cons, bind_apply] at hs
    have hgives := h.resolve name
    unfold Gives at hgives
    rcases hx : Scoping.resolve name t with ⟨e | s, t₁⟩ <;> rw [hx] at hs hgives
    · cases hs
    · simp only [bind_apply] at hs
      rcases hrest : names.mapM Scoping.resolve t₁ with ⟨e | rest, t₂⟩ <;> rw [hrest] at hs
      · cases hs
      · obtain ⟨rfl, rfl⟩ : s :: rest = ss ∧ t₂ = t' := by
          cases hs
          exact ⟨rfl, rfl⟩
        obtain ⟨hresolved, r₁, hsupplies, hrow⟩ := hgives
        have hgrows : r.Grows r₁ := by
          rcases hrow with rfl | ⟨rfl, -⟩
          · exact .refl _
          · exact Roster.grows_add r s
        obtain ⟨r₂, hr₂, hgrows₂, hall⟩ := ih hsupplies.rostered hrest
        have hdepth : t₁.current.depth = t.current.depth :=
          hsupplies.rostered.depth_current_eq h hsupplies.bodies
        refine ⟨r₂, hr₂, hgrows.trans hgrows₂, ?_⟩
        intro p hp
        rcases List.mem_cons.mp hp with rfl | hp
        · exact ⟨hresolved, hsupplies.lists.mono hgrows₂⟩
        · obtain ⟨hres, hlists⟩ := hall p hp
          exact ⟨⟨hres.name_eq, by rw [← hdepth]; exact hres.near⟩, hlists⟩

namespace Recorded

open Roster

variable {t : ScopeTable} {history : History} {r : Roster} {s s' : Symbol}

theorem mem_globals (h : Recorded t history r) (hs : s ∈ history.symbols)
    (hst : s.storage = .globalSlot) : s ∈ r .globalSlot 0 := by
  have hmem := (lists_iff_mem (.inl hst)).mp (h.listed s hs)
  rw [hst] at hmem
  by_cases hd : s.depth = 0
  · rwa [hd] at hmem
  · rw [h.rostered.elsewhere s.depth hd] at hmem
    simp at hmem

theorem mem_locals (h : Recorded t history r) (hs : s ∈ history.symbols)
    (hst : s.storage = .localSlot) : s ∈ r .localSlot s.depth := by
  have hmem := (lists_iff_mem (.inr (.inl hst))).mp (h.listed s hs)
  rwa [hst] at hmem

theorem localCount (h : Recorded t history r) {depth n : Nat} (hn : LocalCount t history depth n) :
    n = (r .localSlot depth).length := by
  cases hn with
  | opened hf hd =>
    subst hd
    exact (h.rostered.inner _ hf).locals.symm
  | closed hmem => exact (h.closed hmem).1

theorem exists_localCount (h : Recorded t history r) (hs : s ∈ r .localSlot s.depth) :
    ∃ n, LocalCount t history s.depth n := by
  rcases h.bodies s.depth (List.ne_nil_of_mem hs) with ho | ⟨op, symbols, hmem⟩
  · obtain ⟨f, hf, hd⟩ := List.mem_map.mp ho
    exact ⟨_, .opened hf hd⟩
  · exact ⟨_, .closed hmem⟩

/-- Two names that are resolved at one point have slots of their own. -/
theorem place_ne (h : Recorded t history r) {names : List String} {ss : List Symbol}
    {t' : ScopeTable} (hr : names.mapM Scoping.resolve t = (.ok ss, t')) {p q : String × Symbol}
    (hp : p ∈ names.zip ss) (hq : q ∈ names.zip ss) (hne : p.1 ≠ q.1) (hst : Slotted p.2.storage) :
    p.2.place ≠ q.2.place := by
  obtain ⟨r', hr', hgrows, hall⟩ := h.rostered.resolveAll hr
  obtain ⟨⟨hpname, hpnear⟩, hplists⟩ := hall p hp
  obtain ⟨⟨hqname, hqnear⟩, hqlists⟩ := hall q hq
  intro heq
  have hstorage : p.2.storage = q.2.storage := congrArg Place.storage heq
  have hindex : p.2.index = q.2.index := congrArg Place.index heq
  have hpmem := (lists_iff_mem hst).mp hplists
  have hqmem := (lists_iff_mem (hstorage ▸ hst)).mp hqlists
  -- a global belongs to the top level, anything else to the body that asks
  have hdepth : p.2.depth = q.2.depth := by
    have hrow {s : Symbol} (hg : s.storage = .globalSlot) (hs : s ∈ r' s.storage s.depth) :
        s.depth = 0 := by
      by_contra hd
      rw [hg, hr'.elsewhere s.depth hd] at hs
      simp at hs
    rcases hst with hg | hl | hc
    · rw [hrow hg hpmem, hrow (hstorage ▸ hg) hqmem]
    · rw [← hstorage] at hqnear
      simp only [hl, reduceCtorEq, false_or] at hpnear hqnear
      rw [hpnear, hqnear]
    · rw [← hstorage] at hqnear
      simp only [hc, reduceCtorEq, false_or] at hpnear hqnear
      rw [hpnear, hqnear]
  rw [← hstorage, ← hdepth] at hqmem
  have hsame := hr'.numbered.eq_of_index_eq hpmem hqmem hindex
  exact hne (by rw [← hpname, ← hqname, hsame])

end Recorded

theorem Rostered.apply_failed {t t' : ScopeTable} {r : Roster} {op : Op} {e : SymbolError}
    (h : t.Rostered r) (hop : op.Allowed t) (ha : op.apply t = (.failed e, t')) : t' = t := by
  have hresult {x : Scoping Symbol} {Q : Symbol → ScopeTable → Prop}
      (hx : Gives x t Q fun _ t' => t' = t) (ha : Answer.ofResult (x t) = (.failed e, t')) :
      t' = t := by
    unfold Gives at hx
    rcases hy : x t with ⟨e' | s, t''⟩ <;> rw [hy] at hx ha
    · cases ha
      exact hx
    · cases ha
  cases op with
  | define name => exact hresult (h.define name) ha
  | parameter name =>
    obtain ⟨f, fs, hi⟩ := List.exists_cons_of_ne_nil hop
    exact hresult (h.defineLocal hi name) ha
  | resolve name => exact hresult (h.resolve name) ha
  | builtin name index => exact hresult (h.defineBuiltin name index) ha
  | _ => cases ha

theorem Rostered.nextId_apply_le {t : ScopeTable} {r : Roster} {op : Op} (h : t.Rostered r)
    (hop : op.Allowed t) (hle : t.nextId ≤ maxId) : (op.apply t).2.nextId ≤ maxId := by
  have hresult {x : Scoping Symbol} {Q : Symbol → ScopeTable → Prop}
      (hx : Gives x t Q fun _ t' => t' = t) (hQ : ∀ s t', Q s t' → t'.nextId = t.nextId) :
      (Answer.ofResult (x t)).2.nextId ≤ maxId := by
    unfold Gives at hx
    rcases hy : x t with ⟨e | s, t'⟩ <;> rw [hy] at hx
    · exact hx ▸ hle
    · exact (hQ s t' hx).symm ▸ hle
  cases op with
  | enterFunction name => exact Nat.succ_le_of_lt hop
  | leaveFunction => obtain ⟨main, _ | ⟨f, fs⟩, nextId, globals⟩ := t <;> exact hle
  | enterBlock kind =>
    obtain ⟨main, _ | ⟨f, fs⟩, nextId, globals⟩ := t <;> exact Nat.succ_le_of_lt hop
  | leaveBlock => obtain ⟨main, _ | ⟨f, fs⟩, nextId, globals⟩ := t <;> exact hle
  | define name =>
    refine hresult (h.define name) ?_
    rintro s t' ⟨r', hs, -⟩
    exact hs.nextId
  | parameter name =>
    obtain ⟨f, fs, hi⟩ := List.exists_cons_of_ne_nil hop
    exact hresult (h.defineLocal hi name) fun s t' hs => hs.1.nextId
  | self name => obtain ⟨main, _ | ⟨f, fs⟩, nextId, globals⟩ := t <;> exact hle
  | resolve name =>
    refine hresult (h.resolve name) ?_
    rintro s t' ⟨-, r', hs, -⟩
    exact hs.nextId
  | builtin name index => exact hresult (h.defineBuiltin name index) fun s t' hs => hs.nextId

theorem Reached.nextId_le {t : ScopeTable} {history : History} (h : Reached t history) :
    t.nextId ≤ maxId := by
  induction h with
  | start => decide
  | step op ht hop ih =>
    obtain ⟨r, hr⟩ := ht.recorded
    exact hr.rostered.nextId_apply_le hop ih

/-- No slot of a table is shared, and none has been in its history. -/
structure Unshared (t : ScopeTable) (history : History) : Prop where
  nextId_le : t.nextId ≤ maxId
  globals_distinct : ∀ s ∈ history.symbols, ∀ s' ∈ history.symbols, s.storage = .globalSlot →
    s'.storage = .globalSlot → s ≠ s' → s.index ≠ s'.index
  globals_exactly : ∀ i, (∃ s ∈ history.symbols, s.storage = .globalSlot ∧ s.index = i) ↔
    i < t.globals
  locals_distinct : ∀ s ∈ history.symbols, ∀ s' ∈ history.symbols, s.storage = .localSlot →
    s'.storage = .localSlot → s.depth = s'.depth → s ≠ s' → s.index ≠ s'.index
  locals_below : ∀ s ∈ history.symbols, s.storage = .localSlot →
    (∃ n, LocalCount t history s.depth n) ∧ ∀ n, LocalCount t history s.depth n → s.index < n
  /-- The parameters of a body come before its other locals and take the first slots, in order. -/
  parameters_first : ∀ depth before after, history = before ++ after →
    History.OnlyParameters before depth → (History.parameters before depth).map (·.index) =
      List.range (History.parameters before depth).length
  /-- Names that are resolved at one point, one after the other. -/
  resolved_distinct : ∀ (names : List String) (ss : List Symbol) (t' : ScopeTable),
    names.mapM Scoping.resolve t = (.ok ss, t') → ∀ p ∈ names.zip ss, ∀ q ∈ names.zip ss,
      p.1 ≠ q.1 → Roster.Slotted p.2.storage → p.2.place ≠ q.2.place
  index_le : ∀ s ∈ history.symbols, s.index ≤ 0x3FFF
  /-- The name of a function is no operand. -/
  decode_operand : ∀ s ∈ history.symbols, s.storage ≠ .self →
    Storage.decode s.operand = (s.storage, s.index)
  failed_unchanged : ∀ (op : Op) (e : SymbolError) (t' : ScopeTable), op.Allowed t →
    op.apply t = (.failed e, t') → t' = t

/-- Whatever the operations that led to a table, no slot is shared. -/
theorem Reached.unshared {t : ScopeTable} {history : History} (h : Reached t history) :
    t.Unshared history := by
  obtain ⟨r, hr⟩ := h.recorded
  have hnumbered := hr.rostered.numbered
  constructor
  · exact h.nextId_le
  · intro s hs s' hs' hst hst' hne hi
    exact hne (hnumbered.eq_of_index_eq (hr.mem_globals hs hst) (hr.mem_globals hs' hst') hi)
  · intro i
    rw [← hr.rostered.globals]
    constructor
    · rintro ⟨s, hs, hst, rfl⟩
      exact hnumbered.index_lt_length (hr.mem_globals hs hst)
    · intro hlt
      have hmem := List.getElem_mem hlt
      have hentry := hnumbered.entry (List.getElem?_eq_getElem hlt)
      exact ⟨_, hr.globals _ hmem, hentry.1, hentry.2.2⟩
  · intro s hs s' hs' hst hst' hd hne hi
    have hmem' := hr.mem_locals hs' hst'
    rw [← hd] at hmem'
    exact hne (hnumbered.eq_of_index_eq (hr.mem_locals hs hst) hmem' hi)
  · intro s hs hst
    have hmem := hr.mem_locals hs hst
    refine ⟨hr.exists_localCount hmem, fun n hn => ?_⟩
    rw [hr.localCount hn]
    exact hnumbered.index_lt_length hmem
  · rintro depth before after rfl hp
    obtain ⟨t', ht'⟩ := h.of_append
    obtain ⟨r', hr'⟩ := ht'.recorded
    rw [hr'.parameters depth hp]
    exact hr'.rostered.numbered.map_index .localSlot depth
  · intro names ss t' hn p hp q hq hne hst
    exact hr.place_ne hn hp hq hne hst
  · intro s hs
    exact Nat.le_of_lt_succ (hnumbered.index_lt_limit (hr.listed s hs))
  · intro s hs hst
    exact Storage.decode_encode hst (hnumbered.index_lt_limit (hr.listed s hs))
  · intro op e t' hop ha
    exact hr.rostered.apply_failed hop ha

/-- The operations of a function of two parameters with a local. -/
theorem unshared_function_body :
    ∃ t history, Reached t history ∧ t.Unshared history ∧ history.map (·.1) =
      [.define "x", .enterFunction (some "f"), .self "f", .parameter "a", .parameter "b",
        .define "y", .resolve "a", .resolve "x", .leaveFunction] := by
  have h₁ := Reached.start.step (.define "x") trivial
  have h₂ := (h₁.step (.enterFunction (some "f")) (by decide +kernel)).step (.self "f") trivial
  have h₃ := h₂.step (.parameter "a") (by decide +kernel)
  have h₄ := h₃.step (.parameter "b") (by decide +kernel)
  have h₅ := (((h₄.step (.define "y") trivial).step (.resolve "a") trivial).step (.resolve "x")
    trivial).step .leaveFunction trivial
  exact ⟨_, _, h₅, h₅.unshared, rfl⟩

/-- The operand of a function's own name reads as a global. -/
theorem decode_operand_self : ∃ t history s, Reached t history ∧ s ∈ history.symbols ∧
    Storage.decode s.operand ≠ (s.storage, s.index) := by
  have h := (Reached.start.step (.enterFunction (some "f")) (by decide)).step (.self "f") trivial
  refine ⟨_, _, (ScopeTable.defineSelf (ScopeTable.enterFunction {} (some "f")) "f").1, h, ?_, ?_⟩
  · exact History.mem_symbols_append.mpr (.inr List.mem_cons_self)
  · decide

end ScopeTable

end StackScript
