import StackScript.Proofs.Tree.Grammar

/-! # Parsing comes to an end

A parser goes on with every round of its statement loops, so on any tokens the parsers that call each
other come to the end of them, with errors at tokens in the order of the source, no more than there
are tokens.
-/

namespace StackScript

open Parse (Grammar)

/-- Every round of a statement loop ends it or goes on to a later token. -/
def Parse.Rounds (tokens : List Token) : Prop :=
  ∀ (p : Parser) (fuel : Nat) (inBlock : Bool) (found : List Stmt), p.Placed tokens →
    (statements (fuel + 1) inBlock found p = (.ok found.reverse, p) ∧
      (p.kind = .eof ∨ inBlock = true ∧ p.kind = .mark .closeBrace)) ∨
    ∃ found' q, statements (fuel + 1) inBlock found p = statements fuel inBlock found' q ∧
      q.Placed tokens ∧ p.position < q.position

/-- Recovery from an error in a statement that began at `start` goes on to a later token. It stays
where it is at the end, and in front of a boundary once a token of the statement has been passed. -/
def TokenReader.Recovers (tokens : List Token) : Prop :=
  ∀ i start, i < tokens.length → start ≤ i →
    ∃ j, (passed tokens i).recover start = passed tokens j ∧ j < tokens.length ∧
      (i < j ∨ i = j ∧ ((passed tokens i).current.kind = .eof ∨
        start < i ∧ isBoundary (passed tokens i).current.kind = true))

structure Parser.Ends (tokens : List Token) (p : Parser) : Prop where
  /-- No parser runs out of fuel: what it would do without does not matter. -/
  run : ∀ (g : Grammar) (n : Nat), 10 * tokens.length + 10 ≤ n →
    (Grammar.step^[n] g).statements false [] (.start tokens) =
      (.ok (parse tokens).program.statements, p)
  errors : p.errors = (parse tokens).errors
  atEnd : p.reader.atEnd = true
  position : p.position + 1 = tokens.length
  bounded : p.errors.size ≤ (tokens.filter (·.kind ≠ .eof)).length
  tokens : ∀ e ∈ p.errors, ∃ t ∈ tokens, e.span = t.span
  ordered : p.errors.toList.Pairwise fun e f =>
    e.span.start ≤ f.span.start ∧ e.span.stop ≤ f.span.stop

section Tokens

variable {ts : List Token}

theorem Parse.rounds (hts : Token.Stream ts) : Parse.Rounds ts := by
  intro p fuel inBlock found hp
  obtain hstop | ⟨found', q, hround, hmoves, hlt, -⟩ :=
    Placing.round hts (Placing.all hts fuel) hp inBlock found
  · exact .inl hstop
  · exact .inr ⟨found', q, hround, hmoves.placed, hlt⟩

theorem TokenReader.recovers (hts : Token.Stream ts) : TokenReader.Recovers ts := by
  intro i start hi hstart
  obtain ⟨j, hj, hrecover, hprogress⟩ := recover_passed hts hi start
  refine ⟨j, hrecover, hj, hprogress.imp_right fun ⟨heq, h⟩ => ⟨heq, h.imp_right ?_⟩⟩
  exact fun ⟨hne, hboundary⟩ => ⟨by omega, hboundary⟩

/-- Behind `let` the statement fails in front of the brace. Recovery stays there, and the brace is the
second error. -/
example :
    let tokens := (lex "let \x7d").tokens.toList
    let failed := Parse.stmt (10 * tokens.length + 9) (.start tokens)
    failed.1.isOk = false ∧ failed.2.reader.atEnd = false ∧
      (failed.2.reader.recover 0).position = failed.2.reader.position ∧
      (parse tokens).errors.map (·.span) = #[⟨4, 5⟩, ⟨4, 5⟩] := by
  decide +kernel

theorem Noted.tokens {i j : Nat} {es : List ParseError} (h : Noted ts i j es) (hj : j < ts.length) :
    ∀ e ∈ es, ∃ t ∈ ts, e.span = t.span := by
  obtain ⟨js, hjs, -, hbounds⟩ := h
  intro e he
  have hspan : e.span ∈ js.map (tokenSpan ts) := hjs ▸ List.mem_map_of_mem he
  obtain ⟨k, hk, hspan⟩ := List.mem_map.mp hspan
  have hlt : k < ts.length := Nat.lt_of_le_of_lt (hbounds k hk).2 hj
  exact ⟨ts[k], List.getElem_mem hlt, hspan.symm.trans (Token.Stream.tokenSpan_eq hlt)⟩

theorem Noted.ordered (hts : Token.Stream ts) {i j : Nat} {es : List ParseError}
    (h : Noted ts i j es) (hj : j < ts.length) :
    es.Pairwise fun e f => e.span.start ≤ f.span.start ∧ e.span.stop ≤ f.span.stop := by
  obtain ⟨js, hjs, hsorted, hbounds⟩ := h
  have hspans : (js.map (tokenSpan ts)).Pairwise fun a b => a.start ≤ b.start ∧ a.stop ≤ b.stop := by
    refine List.pairwise_map.mpr (hsorted.imp_of_mem fun _ hl hkl => ?_)
    exact hts.tokenSpan_mono hkl (Nat.lt_of_le_of_lt (hbounds _ hl).2 hj)
  exact List.pairwise_map.mp (hjs ▸ hspans)

theorem Token.Stream.length_filter (hts : Token.Stream ts) :
    (ts.filter (·.kind ≠ .eof)).length + 1 = ts.length := by
  obtain ⟨body, stop, rfl, hstop, hbody⟩ := hts.ended
  have hall : body.filter (·.kind ≠ .eof) = body :=
    List.filter_eq_self.mpr fun t ht => decide_eq_true (hbody t ht)
  rw [List.filter_append, hall]
  simp [hstop]

/-- More steps than the fuel of `parse` change nothing. -/
theorem Parse.run_eq (hts : Token.Stream ts) (g : Grammar) {n : Nat} (hn : 10 * ts.length + 10 ≤ n) :
    (Grammar.step^[n] g).statements false [] (.start ts) =
      statements (10 * ts.length + 10) false [] (.start ts) := by
  obtain ⟨m, rfl⟩ := Nat.exists_eq_add_of_le hn
  rw [Function.iterate_add_apply]
  exact (Agrees.iterate hts _ _).statements false [] ⟨Parser.start_placed hts, by omega⟩

theorem parse_ends (hts : Token.Stream ts) : ∃ p : Parser, p.Ends ts := by
  obtain ⟨p, hrun, herrors, hmoves, heof, -⟩ := parse_run hts
  have hposition := (hmoves.placed.eof_iff hts).mp heof
  obtain ⟨es, hes, hnoted, hcount⟩ := hmoves.errors
  obtain rfl : p.errors.toList = es := hes
  refine ⟨p, fun g n hn => (Parse.run_eq hts g hn).trans hrun, herrors,
    TokenReader.atEnd_iff.mpr heof, hposition, ?_, ?_, hnoted.ordered hts hmoves.placed.lt⟩
  · have hfilter := hts.length_filter
    rw [Array.length_toList] at hcount
    omega
  · exact fun e he => hnoted.tokens hmoves.placed.lt e (Array.mem_toList_iff.mpr he)

end Tokens

/-- Parsing any source comes to an end. -/
theorem parse_terminates (source : String) :
    Parse.Rounds (lex source).tokens.toList ∧
      TokenReader.Recovers (lex source).tokens.toList ∧
      (∀ r : TokenReader, r.atEnd = true → r.advance = r) ∧
      ∃ p : Parser, p.Ends (lex source).tokens.toList := by
  have hts := Token.lex_stream source
  exact ⟨Parse.rounds hts, TokenReader.recovers hts,
    fun r hr => TokenReader.advance_eof (TokenReader.atEnd_iff.mp hr), parse_ends hts⟩

end StackScript
