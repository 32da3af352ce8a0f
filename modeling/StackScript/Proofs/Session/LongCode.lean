import StackScript.Proofs.Machine.Invariants
import StackScript.Proofs.Session.Provenance
import StackScript.Proofs.Tree.RoundTrip

/-! # Code without spans

Code can be longer than the source that it was compiled from: the three bytes of `[];` are compiled to
four. So a source whose offsets can all be recorded has code whose offsets cannot, and when a budget
stops the program there, nothing tells where in the source that is.
-/

namespace StackScript

section Source

/-- The characters of `[];`, `n` times over. -/
def emptyArrayChars : Nat → List Char
  | 0 => []
  | n + 1 => '[' :: ']' :: ';' :: emptyArrayChars n

def emptyArrays (n : Nat) : String := String.ofList (emptyArrayChars n)

theorem utf8ByteSize_emptyArrays (n : Nat) : (emptyArrays n).utf8ByteSize = 3 * n := by
  unfold emptyArrays
  induction n with
  | zero => rfl
  | succ n ih =>
    have hsize : ("[];" : String).utf8ByteSize = 3 := rfl
    have hcons : String.ofList (emptyArrayChars (n + 1)) = "[];" ++ String.ofList (emptyArrayChars n) := by
      rw [← String.toList_inj]
      simp [emptyArrayChars]
    rw [hcons, String.utf8ByteSize_append, hsize, ih]
    omega

def emptyArray : Stmt := .expr (.array [] Span.nowhere) Span.nowhere

theorem eq_of_bare_eq_emptyArray {s : Stmt} (h : s.bare = emptyArray) :
    ∃ a b, s = .expr (.array [] a) b := by
  cases s with
  | expr e b =>
    obtain ⟨he, -⟩ := Stmt.expr.inj h
    cases e with
    | array items a =>
      cases items with
      | nil => exact ⟨a, b, rfl⟩
      | cons e es => cases (Expr.array.inj he).1
    | _ => cases he
  | _ => cases h

/-- Lexing finds the tokens of `n` such statements behind those found already. -/
theorem Token.scan_emptyArrays {n fuel : Nat} (hfuel : 3 * n ≤ fuel) (offset : Nat) (l : Lexed) :
    (scan fuel offset l (emptyArrayChars n)).errors = l.errors ∧
      (scan fuel offset l (emptyArrayChars n)).tokens.toList.map (·.kind) =
        l.tokens.toList.map (·.kind) ++ stmtsPrint (List.replicate n emptyArray) ++ [.eof] := by
  induction n generalizing fuel offset l with
  | zero => cases fuel <;> simp [scan, emptyArrayChars, skipSpace, stmtsPrint]
  | succ n ih =>
    obtain ⟨fuel, rfl⟩ := Nat.exists_eq_add_of_le' (by omega : 3 ≤ fuel)
    let l₁ := l.add (.ok (.mark .openBracket)) (Span.ofRange offset (offset + 1))
    let l₂ := l₁.add (.ok (.mark .closeBracket)) (Span.ofRange (offset + 1) (offset + 2))
    let l₃ := l₂.add (.ok (.mark .semicolon)) (Span.ofRange (offset + 2) (offset + 3))
    have hscan : scan (fuel + 3) offset l (emptyArrayChars (n + 1)) =
        scan fuel (offset + 3) l₃ (emptyArrayChars n) := rfl
    have hprint : emptyArray.print = [.mark .openBracket, .mark .closeBracket] := rfl
    obtain ⟨herrors, htokens⟩ := ih (by omega : 3 * n ≤ fuel) (offset + 3) l₃
    rw [hscan, htokens]
    refine ⟨herrors, ?_⟩
    simp [l₃, l₂, l₁, Lexed.add, List.replicate_succ, stmtsPrint, hprint]

theorem stmtsBare_replicate_emptyArray (n : Nat) :
    stmtsBare (List.replicate n emptyArray) = List.replicate n emptyArray := by
  induction n with
  | zero => rfl
  | succ n ih =>
    rw [List.replicate_succ, stmtsBare, ih]
    rfl

theorem stmtsWritable_replicate_emptyArray (n : Nat) :
    stmtsWritable (List.replicate n emptyArray) = true := by
  induction n with
  | zero => rfl
  | succ n ih =>
    rw [List.replicate_succ, stmtsWritable, ih]
    rfl

theorem parseSource_emptyArrays (n : Nat) : ∃ program, parseSource (emptyArrays n) = .ok program ∧
    stmtsBare program.statements = List.replicate n emptyArray := by
  have hlength : 3 * n ≤ (emptyArrayChars n).length := by
    induction n with
    | zero => exact Nat.le_refl _
    | succ n ih => simp only [emptyArrayChars, List.length_cons]; omega
  obtain ⟨herrors, hkinds⟩ := Token.scan_emptyArrays hlength 0 {}
  have hlex : lex (emptyArrays n) =
      Token.scan (emptyArrayChars n).length 0 {} (emptyArrayChars n) := by
    simp only [lex, emptyArrays, String.toList_ofList]
  rw [← hlex] at herrors hkinds
  change _ = stmtsPrint (List.replicate n emptyArray) ++ [.eof] at hkinds
  have hwritable := stmtsWritable_replicate_emptyArray n
  -- The tokens are those that printing the statements gives, and parsing undoes printing.
  have hat : At (stmtsPrint (List.replicate n emptyArray) ++ .eof :: [])
      ⟨⟨(lex (emptyArrays n)).tokens.toList, Span.nowhere, 0⟩, #[]⟩ := ⟨hkinds, rfl⟩
  have hfuel := congrArg List.length hkinds
  rw [List.length_map] at hfuel
  obtain ⟨ss, p, hrun, ⟨-, hparsed⟩, new, rfl, hnew⟩ := stmts_reading _ hwritable
    (10 * (lex (emptyArrays n)).tokens.toList.length + 10) false [] (.inl rfl) hat (by omega)
  refine ⟨⟨ss⟩, ?_, hnew.trans (stmtsBare_replicate_emptyArray n)⟩
  have hparse : parse (lex (emptyArrays n)).tokens.toList = ⟨⟨ss⟩, #[]⟩ := by
    unfold parse ExceptT.run
    rw [hrun, ← hparsed]
  unfold parseSource
  simp [hparse, Token.Lexed.hasErrors, herrors, Parsed.hasErrors]

end Source

section Code

theorem topLevel_emptyArrays {n : Nat} {ss : List Stmt}
    (h : stmtsBare ss = List.replicate n emptyArray) (errors : Array CompileError) (c : Compiler) :
    (Compile.topLevel ss errors c).1 = errors := by
  induction ss generalizing n c with
  | nil => rfl
  | cons s ss ih =>
    cases n with
    | zero => cases h
    | succ n =>
      obtain ⟨hs, hss⟩ := List.cons.inj h
      obtain ⟨a, b, rfl⟩ := eq_of_bare_eq_emptyArray hs
      rw [topLevel_cons]
      exact ih hss _

variable {pool : Array Value} {c : Setting} {s s₁ : Cursor} {env : Lexical} {is : List Item}
  {a b : Span}

theorem ExprCode.emptyArray (h : ExprCode pool c s (.array [] a) is s₁) :
    s₁.offset = s.offset + 3 ∧
      ∃ i : Item, is = [i] ∧ i.toInstruction = ⟨.array, [0]⟩ ∧ i.offset = s.offset := by
  cases h with
  | constant hc _ => cases hc
  | array hitems =>
    cases hitems
    exact ⟨rfl, _, rfl, rfl, rfl⟩

theorem StmtCode.emptyArray (h : StmtCode pool c s (.expr (.array [] a) b) is s₁ env) :
    s₁.offset = s.offset + 4 ∧ ∃ i j : Item, is = [i, j] ∧
      i.toInstruction = ⟨.array, [0]⟩ ∧ i.offset = s.offset ∧
      j.toInstruction = ⟨.pop, []⟩ ∧ j.offset = s.offset + 3 := by
  cases h with
  | expr he =>
    obtain ⟨hoffset, i, rfl, hi, hio⟩ := he.emptyArray
    exact ⟨congrArg (· + 1) hoffset, i, _, rfl, hi, hio, rfl, hoffset⟩

theorem ValueCode.emptyArrays {n : Nat} {ss : List Stmt} (h : ValueCode pool c s ss is s₁)
    (hss : stmtsBare ss = List.replicate n StackScript.emptyArray) :
    (∀ k < n, ∃ i ∈ is, i.toInstruction = ⟨.array, [0]⟩ ∧ i.offset = s.offset + 4 * k) ∧
    ∀ k, k + 1 < n → ∃ i ∈ is, i.toInstruction = ⟨.pop, []⟩ ∧ i.offset = s.offset + 4 * k + 3 := by
  induction ss generalizing n c s is with
  | nil => cases h
  | cons st ss ih =>
    cases n with
    | zero => cases hss
    | succ n =>
      obtain ⟨hst, hrest⟩ := List.cons.inj hss
      obtain ⟨a, b, rfl⟩ := eq_of_bare_eq_emptyArray hst
      cases h with
      | last he =>
        obtain ⟨-, i, rfl, hi, hio⟩ := he.emptyArray
        have hn : n = 0 := by simpa [stmtsBare] using (congrArg List.length hrest).symm
        refine ⟨fun k hk => ?_, fun k hk => by omega⟩
        obtain rfl : k = 0 := by omega
        exact ⟨i, by simp, hi, hio⟩
      | @cons _ _ s₂ _ _ _ env is₁ is₂ hcode hvalue =>
        obtain ⟨hoffset, i, j, rfl, hi, hio, hj, hjo⟩ := hcode.emptyArray
        obtain ⟨harray, hpop⟩ := ih hvalue hrest
        constructor
        · intro k hk
          cases k with
          | zero => exact ⟨i, by simp, hi, hio⟩
          | succ k =>
            obtain ⟨i', hi', hop, ho⟩ := harray k (by omega)
            exact ⟨i', by simp [hi'], hop, by omega⟩
        · intro k hk
          cases k with
          | zero => exact ⟨j, by simp, hj, hjo⟩
          | succ k =>
            obtain ⟨i', hi', hop, ho⟩ := hpop k (by omega)
            exact ⟨i', by simp [hi'], hop, by omega⟩

theorem ending_emptyArrays {n : Nat} {ss : List Stmt} (hn : 0 < n)
    (h : stmtsBare ss = List.replicate n StackScript.emptyArray) : ending ss = .value := by
  induction ss generalizing n with
  | nil => cases n <;> cases h; cases hn
  | cons st ss ih =>
    cases n with
    | zero => cases hn
    | succ n =>
      obtain ⟨hst, hrest⟩ := List.cons.inj h
      obtain ⟨a, b, rfl⟩ := eq_of_bare_eq_emptyArray hst
      cases ss with
      | nil => rfl
      | cons st' ss' =>
        cases n with
        | zero => cases hrest
        | succ n => exact ih (Nat.succ_pos n) hrest

/-- The code makes `n` empty arrays and drops all but the last. -/
structure Code.EmptyArrays (code : Code) (n : Nat) : Prop where
  array : ∀ k < n, 4 * k < code.size ∧ code.decode (4 * k) = .ok (⟨.array, [0]⟩, 4 * k + 3)
  pop : ∀ k, k + 1 < n →
    4 * k + 3 < code.size ∧ code.decode (4 * k + 3) = .ok (⟨.pop, []⟩, 4 * (k + 1))

theorem compile_emptyArrays {n : Nat} {program : Program} (hn : 0 < n)
    (h : stmtsBare program.statements = List.replicate n StackScript.emptyArray) (name : String) :
    ∃ o, compile program name = .ok o ∧ o.code.EmptyArrays n := by
  obtain ⟨o, ho⟩ : ∃ o, compile program name = .ok o := by
    have herrors := topLevel_emptyArrays h #[] {}
    rcases htop : Compile.topLevel program.statements #[] {} with ⟨errors, c⟩
    obtain rfl : errors = #[] := by rw [← herrors, htop]
    unfold compile Compiler.compile
    rw [htop]
    exact ⟨_, rfl⟩
  obtain ⟨v, -, -, -, hresult⟩ := Compiler.Ready.initial.compile program name
  rw [show (Compiler.compile {} program name).1 = .ok o from ho] at hresult
  obtain ⟨-, is, s, -, -, hlists⟩ := hresult
  obtain ⟨final, -, hlisted⟩ := hlists.listed rfl Compiler.Ready.initial.main_below
  refine ⟨o, ho, ?_⟩
  cases hlists.listing with
  | other hne _ => exact absurd (ending_emptyArrays hn h) hne
  | value hvalue =>
    obtain ⟨harray, hpop⟩ := hvalue.emptyArrays h
    simp only [Nat.zero_add] at harray hpop
    constructor
    · intro k hk
      obtain ⟨⟨i, offset, _, _, _, _⟩, hi, rfl, rfl⟩ := harray k hk
      exact ⟨hlisted.flows.tiled.offset_lt hi, hlisted.decode hi⟩
    · intro k hk
      obtain ⟨⟨i, offset, _, _, _, _⟩, hi, rfl, rfl⟩ := hpop k hk
      exact ⟨hlisted.flows.tiled.offset_lt hi, hlisted.decode hi⟩

end Code

section Run

variable {m : Machine}

/-- The top level is at `ip` of `body`, and has used up `executed` of the budget. -/
structure Machine.Amid (m : Machine) (body : Function) (l : Limits) (ip executed : Nat)
    (operands : List Value) : Prop where
  frames : m.frames = [⟨mainStamp, body, [], ip, 0⟩]
  limits : m.limits = l
  executed : m.executed = executed
  stack : m.stack.Holds l.stack operands

namespace Machine.Amid

variable {body : Function} {l : Limits} {n k b ip next e : Nat}

theorem array (h : m.Amid body l ip e []) (hip : ip < body.code.size)
    (hd : body.code.decode ip = .ok (⟨.array, [0]⟩, next)) (hb : l.budget = some b) (hlt : e < b)
    (hroom : 0 < l.stack) :
    Gives Exec.step m (fun _ m' => ∃ v, m'.Amid body l next (e + 1) [v]) (fun _ _ => False) := by
  obtain ⟨hf, rfl, rfl, hs⟩ := h
  refine Exec.step_unspent hf hip hd (fun _ h => by cases hb.symm.trans h; exact hlt) ?_
  have hmade := Exec.array_computes (m := m.fetched ⟨mainStamp, body, [], ip, 0⟩ [] next)
    (f := ⟨mainStamp, body, [], ip, 0⟩) (i := ⟨.array, [0]⟩) (l := []) (b := 0) rfl hs rfl
  refine hmade.mono ?_ ?_
  · rintro _ m' ⟨r, hr, s, hs', rfl⟩
    cases hr
    exact ⟨_, rfl, rfl, rfl, hs'⟩
  · rintro e m' ⟨-, he | ⟨-, he⟩⟩
    · cases he
    · exact absurd he (Nat.ne_of_lt hroom)

theorem pop {v : Value} (h : m.Amid body l ip e [v]) (hip : ip < body.code.size)
    (hd : body.code.decode ip = .ok (⟨.pop, []⟩, next)) (hb : l.budget = some b) (hlt : e < b) :
    Gives Exec.step m (fun _ m' => m'.Amid body l next (e + 1) []) (fun _ _ => False) := by
  obtain ⟨hf, rfl, rfl, hs⟩ := h
  refine Exec.step_unspent hf hip hd (fun _ h => by cases hb.symm.trans h; exact hlt) ?_
  refine (Exec.pop_gives (m := m.fetched _ [] next) (l := []) hs).discarded.mono ?_ fun _ _ h => h
  rintro _ m' ⟨_, -, ⟨s, hs', rfl⟩, -⟩
  exact ⟨rfl, rfl, rfl, hs'⟩

theorem runFor_succ {Q : Unit → Machine → Prop} {operands : List Value}
    (h : m.Amid body l ip e operands) (hstep : Gives Exec.step m Q fun _ _ => False) :
    ∃ m', (∀ fuel, m.runFor (fuel + 1) = m'.runFor fuel) ∧ Q () m' := by
  rcases hs : Exec.step m with ⟨_ | _, m'⟩
  · exact (hstep.of_error hs).elim
  · exact ⟨m', fun fuel => by simp only [runFor, h.frames, hs], hstep.of_ok hs⟩

/-- With two steps for each of the first `k` arrays the machine gets to the next one. -/
theorem rounds (h : m.Amid body l 0 0 []) (hcode : body.code.EmptyArrays n) (hroom : 0 < l.stack)
    (hb : l.budget = some b) (hk : k < n) (hspent : 2 * k ≤ b) :
    ∃ m' : Machine, (∀ fuel, m.runFor (fuel + 2 * k) = m'.runFor fuel) ∧
      m'.Amid body l (4 * k) (2 * k) [] := by
  induction k with
  | zero => exact ⟨m, fun _ => rfl, h⟩
  | succ k ih =>
    obtain ⟨m₁, hrun₁, h₁⟩ := ih (by omega) (by omega)
    obtain ⟨hip₁, hd₁⟩ := hcode.array k (by omega)
    obtain ⟨m₂, hrun₂, v, h₂⟩ := h₁.runFor_succ (h₁.array hip₁ hd₁ hb (by omega) hroom)
    obtain ⟨hip₂, hd₂⟩ := hcode.pop k hk
    obtain ⟨m₃, hrun₃, h₃⟩ := h₂.runFor_succ (h₂.pop hip₂ hd₂ hb (by omega))
    refine ⟨m₃, fun fuel => ?_, h₃⟩
    calc m.runFor (fuel + 2 * (k + 1)) = m.runFor (fuel + 1 + 1 + 2 * k) := by congr 1; omega
      _ = m₁.runFor (fuel + 1 + 1) := hrun₁ _
      _ = m₂.runFor (fuel + 1) := hrun₂ _
      _ = m₃.runFor fuel := hrun₃ _

theorem exhausted (h : m.Amid body l ip b []) (hip : ip < body.code.size) (hb : l.budget = some b)
    (fuel : Nat) :
    m.runFor (fuel + 1) = (.failed ⟨.budgetExhausted b, body.spans.spanAt? ip⟩, m) := by
  have hstep : Exec.step m = (.error (.budgetExhausted b), m) := by
    rw [Exec.step_eq h.frames, if_neg (Nat.not_le.mpr hip), h.limits, hb]
    simp only [h.executed, Nat.le_refl, if_true]
    rfl
  simp only [runFor, h.frames, hstep, faultSpan?, List.length_nil, if_true]

end Machine.Amid

end Run

/-- A budget that ends where offsets can no longer be recorded stops a program without a span. -/
theorem runSource_emptyArrays {n k : Nat} {l : Limits} (hvalid : l.validate = .ok ())
    (hb : l.budget = some (2 * k)) (hk : k < n) (hlong : Span.maxOffset < 4 * k) :
    (runSource (emptyArrays n) l).result =
      .error [RuntimeError.diagnostic ⟨.budgetExhausted (2 * k), none⟩] := by
  obtain ⟨program, hparsed, hbare⟩ := parseSource_emptyArrays n
  obtain ⟨o, hcompiled, hcode⟩ := compile_emptyArrays (by omega) hbare unitName
  obtain ⟨m, hstart⟩ : ∃ m, Machine.start ⟨o.code, o.constants, o.spans⟩ l #[] firstStamp = .ok m :=
    Machine.start_isOk _ _ hvalid (Nat.zero_le _)
  have hm : m.Amid o.main l 0 0 [] := by
    obtain ⟨-, -, rfl⟩ := Machine.start_eq hstart
    exact ⟨rfl, rfl, rfl, Stack.holds_ofCapacity _⟩
  obtain ⟨m', hrounds, hm'⟩ := hm.rounds hcode (Limits.stack_pos hvalid) hb hk (Nat.le_refl _)
  have hfuel : m.fuel = 2 * k + 1 + 1 + 2 * k := by
    simp only [Machine.fuel, hm.limits, hb]
    omega
  have hnone : o.main.spans.spanAt? (4 * k) = none := if_neg (Nat.not_le.mpr hlong)
  have hrun : m.run = (.failed ⟨.budgetExhausted (2 * k), none⟩, m') := by
    rw [Machine.run, hfuel, hrounds, hm'.exhausted (hcode.array k hk).1 hb, hnone]
  simp only [runSource, compileSource, hparsed, hcompiled, hstart, hrun, bind, Except.bind,
    Except.mapError, link, Machine.evaluation]

end StackScript
