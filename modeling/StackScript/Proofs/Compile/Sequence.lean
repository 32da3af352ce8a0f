import StackScript.Proofs.Compile.Agreement
import StackScript.Proofs.Compile.Programs
import StackScript.Proofs.Compile.Relocation

/-! # Programs behind each other

A program compiled behind others has the code it has by itself, but for the place where it stands: it
begins behind theirs, and if more follows, the value that it leaves is dropped.
-/

namespace StackScript

theorem ending_append {ss ts : List Stmt} (h : ts ≠ []) : ending (ss ++ ts) = ending ts := by
  induction ss with
  | nil => rfl
  | cons st ss ih =>
    have hne : ss ++ ts ≠ [] := by simp [h]
    obtain ⟨st', rest, hrest⟩ := List.exists_cons_of_ne_nil hne
    rw [← ih, List.cons_append, hrest]
    rfl

section Listings

variable {pool pool' : Array Value} {c : Setting} {s s' s₁ s₁' s₂ : Cursor} {ss ts : List Stmt}
  {is is' : List Item} {env env' : Lexical} {d : Nat}

theorem StmtsCode.split (h : StmtsCode pool c s (ss ++ ts) is s₂ env) :
    ∃ is₁ s₁ env₁ is₂, StmtsCode pool c s ss is₁ s₁ env₁ ∧
      StmtsCode pool (c.within env₁) s₁ ts is₂ s₂ env ∧ is = is₁ ++ is₂ := by
  induction ss generalizing c s is with
  | nil => exact ⟨[], s, c.env, is, .nil, h, rfl⟩
  | cons st ss ih =>
    cases h with
    | cons hst hrest =>
      obtain ⟨is₁, s₁, env₁, is₂, h₁, h₂, rfl⟩ := ih hrest
      exact ⟨_, s₁, env₁, is₂, .cons hst h₁, h₂, (List.append_assoc ..).symm⟩

theorem ValueCode.split (h : ValueCode pool c s (ss ++ ts) is s₂) (hts : ts ≠ []) :
    ∃ is₁ s₁ env₁ is₂, StmtsCode pool c s ss is₁ s₁ env₁ ∧
      ValueCode pool (c.within env₁) s₁ ts is₂ s₂ ∧ is = is₁ ++ is₂ := by
  induction ss generalizing c s is with
  | nil => exact ⟨[], s, c.env, is, .nil, h, rfl⟩
  | cons st ss ih =>
    have hne : ss ++ ts ≠ [] := by simp [hts]
    generalize hrest : ss ++ ts = rest at hne ih
    rw [List.cons_append, hrest] at h
    cases h with
    | last => exact absurd rfl hne
    | cons hst hv =>
      obtain ⟨is₁, s₁, env₁, is₂, h₁, h₂, rfl⟩ := ih hv
      exact ⟨_, s₁, env₁, is₂, .cons hst h₁, h₂, (List.append_assoc ..).symm⟩

/-- A program of two parts is the code of both: all of the first, and the second as a program. -/
theorem ProgramCode.split (h : ProgramCode pool env s (ss ++ ts) is s₂) (hts : ts ≠ []) :
    ∃ is₁ s₁ env₁ is₂, StmtsCode pool ⟨env, [], none, 0⟩ s ss is₁ s₁ env₁ ∧
      ProgramCode pool env₁ s₁ ts is₂ s₂ ∧ is = is₁ ++ is₂ := by
  cases h with
  | value h =>
    obtain ⟨is₁, s₁, env₁, is₂, h₁, h₂, rfl⟩ := h.split hts
    exact ⟨is₁, s₁, env₁, is₂, h₁, .value h₂, rfl⟩
  | other he h =>
    obtain ⟨is₁, s₁, env₁, is₂, h₁, h₂, rfl⟩ := h.split
    exact ⟨is₁, s₁, env₁, is₂, h₁, .other (ending_append hts ▸ he) h₂, rfl⟩

theorem Setting.Beside.refl (c : Setting) : c.Beside c := ⟨rfl, rfl, rfl, rfl⟩

theorem ProgramCode.moved (h : ProgramCode pool env s ss is s₁) (hi : env.inner = [])
    (hs : s' = s.shift d) (h' : ProgramCode pool' env s' ss is' s₁') :
    is' = is.map (·.shift d) ∧ s₁' = s₁.shift d := by
  cases h with
  | value h =>
    cases h' with
    | value h' =>
      have hm := h.moved (.refl _) hi hs h'
      exact ⟨hm.items rfl, hm.cursor⟩
    | other he => exact absurd h.ending_eq he
  | other he h =>
    cases h' with
    | value h' => exact absurd h'.ending_eq he
    | other _ h' =>
      have hm := h.moved (.refl _) hi hs h'
      exact ⟨hm.items rfl, hm.cursor⟩

/-- A program, from an offset `d` further on, with something behind it: if it has a value, that is
dropped. -/
theorem ProgramCode.moved_stmts (h : ProgramCode pool env s ss is s₁) (hi : env.inner = [])
    (hs : s' = s.shift d) (h' : StmtsCode pool' ⟨env, [], none, 0⟩ s' ss is' s₁' env') :
    (ending ss = .value ∧ s₁' = (s₁.shift d).skip .pop ∧
      ∃ i : Item, i.toInstruction = ⟨.pop, []⟩ ∧ i.offset = s₁.offset + d ∧
        is' = is.map (·.shift d) ++ [i]) ∨
    (ending ss ≠ .value ∧ s₁' = s₁.shift d ∧ is' = is.map (·.shift d)) := by
  by_cases he : ending ss = .value
  · obtain ⟨init, s₀, rfl, rfl, hv⟩ := h'.exists_value he
    obtain ⟨rfl, rfl⟩ := h.moved hi hs (.value hv)
    exact .inl ⟨he, rfl, _, rfl, rfl, rfl⟩
  · obtain ⟨rfl, rfl⟩ := h.moved hi hs (.other he h')
    exact .inr ⟨he, rfl, rfl⟩

end Listings

theorem statements_append {ss ts : List Stmt} {c c' : Compiler} :
    Compile.statements (ss ++ ts) c = (.ok (), c') ↔
      ∃ c₁, Compile.statements ss c = (.ok (), c₁) ∧ Compile.statements ts c₁ = (.ok (), c') := by
  induction ss generalizing c with
  | nil =>
    constructor
    · exact fun h => ⟨c, rfl, h⟩
    · rintro ⟨_, h, hts⟩
      cases h
      exact hts
  | cons st ss ih =>
    simp only [List.cons_append, Compile.statements, bind_eq_ok, ih]
    constructor
    · rintro ⟨_, c₁, hst, c₂, hss, hts⟩
      exact ⟨c₂, ⟨(), c₁, hst, hss⟩, hts⟩
    · rintro ⟨c₂, ⟨_, c₁, hst, hss⟩, hts⟩
      exact ⟨(), c₁, hst, c₂, hss, hts⟩

section Compilers

variable {c c₁ d d₁ : Compiler} {v : OpenScopes} {program : Program} {name : String} {o : Object}

/-- A program compiles just when its statements do. -/
theorem Compiler.statements_of_compile (h : c.compile program name = (.ok o, c₁)) :
    ∃ c', Compile.statements program.statements { c with unit := {} } = (.ok (), c') ∧
      c₁ = { c' with unit := {} } ∧ o.constants = c'.constants ∧
      o.code = (if c'.unit.lastIs .pop then c'.unit.removeLast else c'.unit).code ∧
      o.spans = (if c'.unit.lastIs .pop then c'.unit.removeLast else c'.unit).spans := by
  unfold Compiler.compile at h
  rcases topLevel_cases program.statements #[] { c with unit := {} } with ⟨c', hs, ht⟩ | hlt
  · simp only [ht, Array.isEmpty_empty, if_true] at h
    cases h
    exact ⟨c', hs, rfl, rfl, rfl, rfl⟩
  · rcases ht : Compile.topLevel program.statements #[] { c with unit := {} } with ⟨errors, c'⟩
    rw [ht] at hlt h
    have hne : errors ≠ #[] := Array.size_pos_iff.mp hlt
    simp only [Array.isEmpty_iff, hne, if_false] at h
    cases h

/-- Behind the code of other programs, a program leaves the names and the constants that it leaves by
itself. -/
theorem Compiler.Alike.behind (ha : Compiler.Alike { c with unit := {} } d)
    (h : c.compile program name = (.ok o, c₁))
    (hd : Compile.statements program.statements d = (.ok (), d₁)) :
    Compiler.Alike { c₁ with unit := {} } d₁ := by
  obtain ⟨c', hs, rfl, -, -⟩ := Compiler.statements_of_compile h
  obtain ⟨-, hscopes, hconstants⟩ := Compile.statements_agrees program.statements ha hs hd
  exact ⟨hscopes, hconstants⟩

theorem Compiler.Ready.compile_ok (hc : c.Ready v) (h : c.compile program name = (.ok o, c₁)) :
    ∃ v' is s, c₁.Ready v' ∧ o.constants = c₁.constants ∧ s.slots = v'.globals ∧
      s.constants = c₁.constants.size ∧ o.Lists v c.constants.size program.statements is s ∧
      ∃ is₀ s₀, StmtsCode o.constants ⟨v.env, [], none, 0⟩ ⟨0, v.globals, c.constants.size⟩
        program.statements is₀ s₀ v'.env := by
  obtain ⟨c', hs, rfl, hconstants, hcode, htable⟩ := Compiler.statements_of_compile h
  obtain ⟨v', is, s, -, hready, hslots, hsize, hlist, hscope, hfits, hassembled, hspans⟩ :=
    program_emitted hc hs
  rw [← hcode] at hassembled
  rw [← htable] at hspans
  rw [← hconstants] at hlist hscope
  exact ⟨v', is, s, hready, hconstants, hslots, hsize, ⟨hlist, hfits, hassembled, hspans⟩, hscope⟩

end Compilers

end StackScript
