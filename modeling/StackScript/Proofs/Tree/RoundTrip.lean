import StackScript.Proofs.Tree.Expressions

/-! # Parsing what was printed

Parsing undoes printing: the tokens of a tree, with as few parentheses as the precedence of its
operators allows, are parsed without an error, and back into that tree.
-/

namespace StackScript

open Parse (eat)

section Statements

variable {e condition value : Expr} {name : Ident} {init : Option Stmt} {clause update : Option Expr}
  {body : Block} {s : Stmt} {ss : List Stmt} {span : Span}

/-- The parser of statements without a semicolon reads the statement. -/
def ReadsSimple (s : Stmt) : Prop := ∀ (fuel) {p rest}, At (s.print ++ rest) p →
  10 * (s.print ++ rest).length + 7 ≤ fuel → (rest.headD .eof).ends = true →
    Reads (Parse.simple fuel p) rest fun s' => s'.bare = s.bare

theorem readsSimple_bind (hv : ReadsExpr value) : ReadsSimple (.bind name value span) := by
  intro fuel p rest hp hfuel hends
  simp only [Stmt.print, List.cons_append, List.length_cons] at hp hfuel
  have hp₁ := hp.next (by simp)
  have hp₂ := hp₁.next (by simp)
  obtain ⟨fuel, rfl⟩ := Nat.exists_eq_add_of_le' (by omega : 1 ≤ fuel)
  obtain ⟨value', p₃, hrun, hp₃, hvalue⟩ := hv fuel (hp₂.next (by simp)) (by omega) hends
  rw [Parse.simple, Parse.reader_bind, Parse.eatKeyword_bind,
    if_pos (TokenReader.atKeyword_iff.mpr hp.kind_cons), if_pos rfl, bind_of_ok (expectIdent_eq hp₁),
    bind_of_ok (discard_expect_eq hp₂), bind_of_ok hrun, Parse.spanFrom_bind]
  exact ⟨_, p₃, rfl, hp₃, by simp [Stmt.bare, Ident.bare, hvalue]⟩

theorem readsSimple_expr (he : ReadsExpr e) : ReadsSimple (.expr e span) := by
  intro fuel p rest hp hfuel hends
  change At (e.print assignLevel ++ rest) p at hp
  change 10 * (e.print assignLevel ++ rest).length + 7 ≤ fuel at hfuel
  obtain ⟨fuel, rfl⟩ := Nat.exists_eq_add_of_le' (by omega : 1 ≤ fuel)
  obtain ⟨e', p₁, hrun, hp₁, he'⟩ := he fuel hp (by omega) hends
  rw [Parse.simple, Parse.reader_bind, Parse.eatKeyword_bind,
    if_neg (hp.not_atKeyword (At.head_ne rfl)), if_neg Bool.false_ne_true, bind_of_ok hrun,
    Parse.spanFrom_bind]
  exact ⟨_, p₁, rfl, hp₁, by simp [Stmt.bare, he']⟩

/-- The statement parser reads the statement and its semicolon, which it leaves behind a loop. -/
def ReadsStmt (s : Stmt) : Prop := ∀ (fuel) {p rest}, At (s.print ++ .mark .semicolon :: rest) p →
  10 * (s.print ++ .mark .semicolon :: rest).length + 8 ≤ fuel + 1 →
    ∃ s' p', Parse.stmt (fuel + 1) p = (.ok s', p') ∧ s'.bare = s.bare ∧
      (At rest p' ∨ At (.mark .semicolon :: rest) p')

theorem discard_eat_semicolon {β : Type} {p : Parser} {rest : List Token.Kind} {f : Unit → Parse β}
    (h : At (.mark .semicolon :: rest) p) :
    ((discard (eat .semicolon) : Parse Unit) >>= f) p = f () p.next := by
  rw [Parse.discard_eat_bind, if_pos h.atMark]

def Token.Kind.startsSimple (k : Token.Kind) : Prop := k = .keyword .letBinding ∨ k.starts = true

theorem ReadsSimple.stmt (h : ReadsSimple s)
    (hs : ∀ {rest}, ((s.print ++ rest).headD .eof).startsSimple) : ReadsStmt s := by
  intro fuel p rest hp hfuel
  have hk : p.reader.current.kind.startsSimple := by
    have hkind : p.reader.current.kind = _ := hp.kind_eq
    rw [hkind]
    exact hs
  obtain ⟨s', p₁, hrun, hp₁, hs'⟩ := h fuel hp (by omega) rfl
  refine ⟨s'.withSpan (p₁.next.reader.spanFrom p.reader.current.span), p₁.next, ?_,
    (Stmt.bare_withSpan _ _).trans hs', .inl (hp₁.next (by simp))⟩
  rw [Parse.stmt, Parse.reader_bind]
  generalize p.reader.current.kind = k at hk
  split
  case h_6 =>
    rw [bind_of_ok hrun, discard_eat_semicolon hp₁]
    rfl
  all_goals
    rcases hk with hk | hk <;> cases hk

theorem reads_optional {α : Type} {x : Parse α} {bare : α → α} {skip : Prop} [Decidable skip]
    {p : Parser} {rest : List Token.Kind} (o : Option α) (hnone : o = none → skip ∧ At rest p)
    (hsome : ∀ a, o = some a → ¬ skip ∧ Reads (x p) rest fun a' => bare a' = bare a) :
    ∃ o' p₁, (∀ {β : Type} (f : Option α → Parse β),
        (if skip then pure none >>= f else some <$> x >>= f) p = f o' p₁) ∧
      At rest p₁ ∧ o'.map bare = o.map bare := by
  cases o with
  | none =>
    obtain ⟨hskip, hp⟩ := hnone rfl
    refine ⟨none, p, fun f => ?_, hp, rfl⟩
    rw [if_pos hskip, bind_of_ok (pure_apply _ _)]
  | some a =>
    obtain ⟨hskip, a', p₁, hrun, hp₁, ha⟩ := hsome a rfl
    have hmap : (some <$> x) p = (.ok (some a'), p₁) := by rw [map_apply, hrun]
    refine ⟨some a', p₁, fun f => ?_, hp₁, by simp [ha]⟩
    rw [if_neg hskip, bind_of_ok hmap]

theorem clauseBare_eq (o : Option Expr) : clauseBare o = o.map Expr.bare := by cases o <;> rfl

theorem initBare_eq (o : Option Stmt) : initBare o = o.map Stmt.bare := by cases o <;> rfl

theorem readsStmt_ret (hv : ∀ e, clause = some e → ReadsExpr e) : ReadsStmt (.ret clause span) := by
  intro fuel p rest hp hfuel
  simp only [Stmt.print, List.cons_append, List.length_cons] at hp hfuel
  have hk : p.reader.current.kind = .keyword .ret := hp.kind_cons
  have hp₁ := hp.next (by simp)
  obtain ⟨value', p₂, hrun, hp₂, hvalue⟩ := @reads_optional _ (Parse.expr fuel) Expr.bare
    ((p.next.reader.atMark .semicolon || p.next.reader.atMark .closeBrace || p.next.reader.atEnd) =
      true) _ p.next (.mark .semicolon :: rest) clause
    (by
      rintro rfl
      change At (.mark .semicolon :: rest) p.next at hp₁
      exact ⟨by simp [hp₁.atMark], hp₁⟩)
    (by
      rintro e rfl
      change At (e.print assignLevel ++ .mark .semicolon :: rest) p.next at hp₁
      change 10 * ((e.print assignLevel ++ .mark .semicolon :: rest).length + 1) + 8 ≤ fuel + 1 at hfuel
      constructor
      · simp [hp₁.not_atMark (m := .semicolon) (At.head_ne rfl),
          hp₁.not_atMark (m := .closeBrace) (At.head_ne rfl), hp₁.not_atEnd (At.head_ne rfl)]
      · exact hv e rfl fuel hp₁ (by omega) rfl)
  refine ⟨.ret value' (p₂.next.reader.spanFrom p.reader.current.span), p₂.next, ?_,
    by simp [Stmt.bare, clauseBare_eq, hvalue], .inl (hp₂.next (by simp))⟩
  rw [Parse.stmt, Parse.reader_bind]
  simp only [hk]
  rw [Parse.discard_advance_bind, Parse.reader_bind, hrun, discard_eat_semicolon hp₂]
  rfl

theorem readsStmt_break : ReadsStmt (.breakLoop span) := by
  intro fuel p rest hp _
  have hk : p.reader.current.kind = .keyword .breakLoop := hp.kind_cons
  have hp₁ : At (.mark .semicolon :: rest) p.next := hp.next (by simp)
  refine ⟨.breakLoop (p.next.next.reader.spanFrom p.reader.current.span), p.next.next, ?_, rfl,
    .inl (hp₁.next (by simp))⟩
  rw [Parse.stmt, Parse.reader_bind]
  simp only [hk]
  rw [Parse.discard_advance_bind, discard_eat_semicolon hp₁]
  rfl

theorem readsStmt_continue : ReadsStmt (.continueLoop span) := by
  intro fuel p rest hp _
  have hk : p.reader.current.kind = .keyword .continueLoop := hp.kind_cons
  have hp₁ : At (.mark .semicolon :: rest) p.next := hp.next (by simp)
  refine ⟨.continueLoop (p.next.next.reader.spanFrom p.reader.current.span), p.next.next, ?_, rfl,
    .inl (hp₁.next (by simp))⟩
  rw [Parse.stmt, Parse.reader_bind]
  simp only [hk]
  rw [Parse.discard_advance_bind, discard_eat_semicolon hp₁]
  rfl

theorem readsStmt_while (hc : ReadsExpr condition) (hb : ReadsBlock body) :
    ReadsStmt (.whileLoop condition body span) := by
  intro fuel p rest hp hfuel
  simp only [Stmt.print, List.cons_append, List.append_assoc, List.length_cons,
    List.length_append] at hp hfuel
  have hk : p.reader.current.kind = .keyword .whileLoop := hp.kind_cons
  have hp₁ := hp.next (by simp)
  obtain ⟨fuel, rfl⟩ := Nat.exists_eq_add_of_le' (by omega : 1 ≤ fuel)
  obtain ⟨condition', p₂, hrun₂, hp₂, hcondition⟩ := reads_condition hc fuel hp₁ (by simp; omega)
  obtain ⟨body', p₃, hrun₃, hp₃, hbody⟩ := hb fuel (hp₂.next (by simp)) (by simp; omega)
  have hstmt : Parse.stmt (fuel + 1 + 1) p = Parse.whileLoop (fuel + 1) p := by
    rw [Parse.stmt, Parse.reader_bind]
    simp only [hk]
  refine ⟨.whileLoop condition' body' (p₃.reader.spanFrom p.reader.current.span), p₃, ?_,
    by simp [Stmt.bare, hcondition, hbody], .inr hp₃⟩
  rw [hstmt, Parse.whileLoop, Parse.advance_bind, bind_of_ok (expect_eq hp₁), bind_of_ok hrun₂,
    bind_of_ok (expectClosing_eq hp₂), bind_of_ok hrun₃, Parse.spanFrom_bind]
  rfl

theorem reads_clause (hclause : ∀ e, clause = some e → ReadsExpr e) (fuel : Nat) {p : Parser}
    {rest : List Token.Kind} {m : Mark} (hm : (Token.Kind.mark m).ends = true)
    (hp : At (clausePrint clause ++ .mark m :: rest) p)
    (hfuel : 10 * ((clausePrint clause).length + 1 + rest.length) + 6 ≤ fuel) :
    ∃ clause' p₁, (∀ {β : Type} (f : Option Expr → Parse β),
        (if p.reader.atMark m = true then pure none >>= f else some <$> Parse.expr fuel >>= f) p =
          f clause' p₁) ∧
      At (.mark m :: rest) p₁ ∧ clause'.map Expr.bare = clause.map Expr.bare := by
  refine reads_optional clause ?_ ?_
  · rintro rfl
    change At (.mark m :: rest) p at hp
    exact ⟨hp.atMark, hp⟩
  · rintro e rfl
    change At (e.print assignLevel ++ .mark m :: rest) p at hp
    change 10 * ((e.print assignLevel).length + 1 + rest.length) + 6 ≤ fuel at hfuel
    constructor
    · exact hp.not_atMark (At.head_ne (Token.Kind.starts_of_ends hm))
    · exact hclause e rfl fuel hp (by simp; omega) hm

theorem reads_init (hinit : ∀ s, init = some s → ReadsSimple s ∧
      ∀ {rest}, ((s.print ++ rest).headD .eof).startsSimple) (fuel : Nat) {p : Parser}
    {rest : List Token.Kind} (hp : At (initPrint init ++ .mark .semicolon :: rest) p)
    (hfuel : 10 * ((initPrint init).length + 1 + rest.length) + 7 ≤ fuel) :
    ∃ init' p₁, (∀ {β : Type} (f : Option Stmt → Parse β),
        (if p.reader.atMark .semicolon = true then pure none >>= f
          else some <$> Parse.simple fuel >>= f) p = f init' p₁) ∧
      At (.mark .semicolon :: rest) p₁ ∧ init'.map Stmt.bare = init.map Stmt.bare := by
  refine reads_optional init ?_ ?_
  · rintro rfl
    change At (.mark .semicolon :: rest) p at hp
    exact ⟨hp.atMark, hp⟩
  · rintro s rfl
    obtain ⟨hs, hstart⟩ := hinit s rfl
    change At (s.print ++ .mark .semicolon :: rest) p at hp
    change 10 * (s.print.length + 1 + rest.length) + 7 ≤ fuel at hfuel
    constructor
    · refine hp.not_atMark fun h => ?_
      obtain hk | hk := h ▸ @hstart (.mark .semicolon :: rest) <;> cases hk
    · exact hs fuel hp (by simp; omega) rfl

theorem readsStmt_for (hinit : ∀ s, init = some s → ReadsSimple s ∧
      ∀ {rest}, ((s.print ++ rest).headD .eof).startsSimple)
    (hclause : ∀ e, clause = some e → ReadsExpr e) (hupdate : ∀ e, update = some e → ReadsExpr e)
    (hb : ReadsBlock body) : ReadsStmt (.forLoop init clause update body span) := by
  intro fuel p rest hp hfuel
  simp only [Stmt.print, List.cons_append, List.append_assoc, List.length_cons,
    List.length_append] at hp hfuel
  have hk : p.reader.current.kind = .keyword .forLoop := hp.kind_cons
  have hp₁ := hp.next (by simp)
  obtain ⟨fuel, rfl⟩ := Nat.exists_eq_add_of_le' (by omega : 1 ≤ fuel)
  obtain ⟨init', p₂, hrun₂, hp₂, hinit'⟩ :=
    reads_init hinit fuel (hp₁.next (by simp)) (by simp; omega)
  obtain ⟨clause', p₃, hrun₃, hp₃, hclause'⟩ :=
    reads_clause hclause fuel rfl (hp₂.next (by simp)) (by simp; omega)
  obtain ⟨update', p₄, hrun₄, hp₄, hupdate'⟩ :=
    reads_clause hupdate fuel rfl (hp₃.next (by simp)) (by simp; omega)
  obtain ⟨body', p₅, hrun₅, hp₅, hbody⟩ := hb fuel (hp₄.next (by simp)) (by simp; omega)
  have hstmt : Parse.stmt (fuel + 1 + 1) p = Parse.forLoop (fuel + 1) p := by
    rw [Parse.stmt, Parse.reader_bind]
    simp only [hk]
  refine ⟨.forLoop init' clause' update' body' (p₅.reader.spanFrom p.reader.current.span), p₅, ?_,
    by simp [Stmt.bare, initBare_eq, clauseBare_eq, hinit', hclause', hupdate', hbody], .inr hp₅⟩
  rw [hstmt, Parse.forLoop, Parse.advance_bind, bind_of_ok (expect_eq hp₁), Parse.reader_bind, hrun₂]
  dsimp only
  rw [bind_of_ok (discard_expect_eq hp₂), Parse.reader_bind, hrun₃,
    bind_of_ok (discard_expect_eq hp₃), Parse.reader_bind, hrun₄,
    bind_of_ok (expectClosing_eq hp₄), bind_of_ok hrun₅, Parse.spanFrom_bind]
  rfl

/-- The statement loop reads the statements, onto those found already, and stops in front of the
end of the block or of the source. -/
def ReadsStmts (ss : List Stmt) : Prop := ∀ (fuel inBlock found) {p stop rest},
  (stop = .eof ∨ inBlock = true ∧ stop = .mark .closeBrace) → At (stmtsPrint ss ++ stop :: rest) p →
  10 * (stmtsPrint ss ++ stop :: rest).length + 9 ≤ fuel →
    Reads (Parse.statements fuel inBlock found p) (stop :: rest) fun ss' =>
      ∃ new, ss' = found.reverse ++ new ∧ stmtsBare new = stmtsBare ss

theorem readsStmts_nil : ReadsStmts [] := by
  intro fuel inBlock found p stop rest hstop hp hfuel
  change At (stop :: rest) p at hp
  obtain ⟨fuel, rfl⟩ := Nat.exists_eq_add_of_le' (by omega : 1 ≤ fuel)
  refine ⟨found.reverse, p, ?_, hp, [], by simp, rfl⟩
  have hend : (p.reader.atEnd || inBlock && p.reader.atMark .closeBrace) = true := by
    rcases hstop with rfl | ⟨rfl, rfl⟩
    · simp [TokenReader.atEnd_iff.mpr hp.kind_cons]
    · simp [hp.atMark]
  rw [Parse.statements, Parse.reader_bind, if_pos hend]
  rfl

def Token.Kind.startsStmt (k : Token.Kind) : Prop :=
  k.startsSimple ∨ k = .keyword .ret ∨ k = .keyword .whileLoop ∨ k = .keyword .forLoop ∨
    k = .keyword .breakLoop ∨ k = .keyword .continueLoop

theorem Expr.print_startsSimple (e : Expr) (rest : List Token.Kind) :
    ((e.print assignLevel ++ rest).headD .eof).startsSimple := by
  obtain ⟨k, ks, hks, hk, -⟩ := e.print_head assignLevel
  rw [hks]
  exact .inr hk

theorem Stmt.print_startsStmt (s : Stmt) (rest : List Token.Kind) :
    ((s.print ++ rest).headD .eof).startsStmt := by
  cases s with
  | expr e => exact .inl (e.print_startsSimple rest)
  | bind => exact .inl (.inl rfl)
  | ret | whileLoop | forLoop | breakLoop | continueLoop =>
    simp [Token.Kind.startsStmt, Stmt.print]

theorem Token.Kind.startsStmt.ne {k : Token.Kind} (h : k.startsStmt) :
    k ≠ .eof ∧ k ≠ .mark .semicolon ∧ k ≠ .mark .closeBrace := by
  refine ⟨?_, ?_, ?_⟩ <;> (rintro rfl; rcases h with (h | h) | h | h | h | h | h <;> cases h)

theorem statements_stmt {fuel : Nat} {inBlock : Bool} {found : List Stmt} {p p₁ : Parser} {s' : Stmt}
    (hk : p.kind.startsStmt) (hs : Parse.stmt fuel p = (.ok s', p₁)) :
    Parse.statements (fuel + 1) inBlock found p = Parse.statements fuel inBlock (s' :: found) p₁ := by
  obtain ⟨heof, hsemicolon, hbrace⟩ := hk.ne
  have hend : ¬ (p.reader.atEnd || inBlock && p.reader.atMark .closeBrace) = true := by
    have h₁ := mt TokenReader.atEnd_iff.mp heof
    have h₂ := mt TokenReader.atMark_iff.mp hbrace
    simp [h₁, h₂]
  rw [Parse.statements, Parse.reader_bind, if_neg hend, Parse.eat_bind,
    if_neg (mt TokenReader.atMark_iff.mp hsemicolon), if_neg Bool.false_ne_true,
    Parse.observing_bind, hs]

theorem statements_semicolon {fuel : Nat} {inBlock : Bool} {found : List Stmt} {p : Parser}
    {rest : List Token.Kind} (hp : At (.mark .semicolon :: rest) p) :
    Parse.statements (fuel + 1) inBlock found p = Parse.statements fuel inBlock found p.next := by
  have hend : ¬ (p.reader.atEnd || inBlock && p.reader.atMark .closeBrace) = true := by
    simp [hp.not_atEnd (by simp), hp.not_atMark (m := .closeBrace) (by simp)]
  rw [Parse.statements, Parse.reader_bind, if_neg hend, Parse.eat_bind, if_pos hp.atMark, if_pos rfl]

theorem readsStmts_cons (hs : ReadsStmt s) (hss : ReadsStmts ss) : ReadsStmts (s :: ss) := by
  intro fuel inBlock found p stop rest hstop hp hfuel
  simp only [stmtsPrint, List.append_assoc, List.cons_append] at hp hfuel
  obtain ⟨fuel, rfl⟩ := Nat.exists_eq_add_of_le' (by omega : 2 ≤ fuel)
  obtain ⟨s', p₁, hrun, hs', hp₁⟩ := hs fuel hp (by omega)
  simp only [List.length_append, List.length_cons] at hfuel
  have hround := @statements_stmt (fuel + 1) inBlock found p p₁ s' (hp.kind_eq ▸ s.print_startsStmt _) hrun
  have hlength : 10 * (stmtsPrint ss ++ stop :: rest).length + 9 ≤ fuel := by
    simp only [List.length_append, List.length_cons]
    omega
  -- the semicolon is passed by now, or by another round
  rcases hp₁ with hp₁ | hp₁
  · obtain ⟨ss', p₂, hrun₂, hp₂, new, hss', hnew⟩ :=
      hss (fuel + 1) inBlock (s' :: found) hstop hp₁ (Nat.le_succ_of_le hlength)
    refine ⟨ss', p₂, hround.trans hrun₂, hp₂, s' :: new, by simp [hss'], ?_⟩
    rw [stmtsBare, hs', hnew, ← stmtsBare]
  · obtain ⟨ss', p₂, hrun₂, hp₂, new, hss', hnew⟩ :=
      hss fuel inBlock (s' :: found) hstop (hp₁.next (by simp)) hlength
    refine ⟨ss', p₂, hround.trans ((statements_semicolon hp₁).trans hrun₂), hp₂, s' :: new,
      by simp [hss'], ?_⟩
    rw [stmtsBare, hs', hnew, ← stmtsBare]

theorem readsBlock_mk (hss : ReadsStmts ss) : ReadsBlock (.mk ss span) := by
  intro fuel p rest hp hfuel
  simp only [Block.print, List.cons_append, List.append_assoc, List.nil_append, List.length_cons]
    at hp hfuel
  obtain ⟨fuel, rfl⟩ := Nat.exists_eq_add_of_le' (by omega : 1 ≤ fuel)
  obtain ⟨ss', p₁, hrun, hp₁, new, rfl, hnew⟩ :=
    hss fuel true [] (.inr ⟨rfl, rfl⟩) (hp.next (by simp)) (by omega)
  rw [Parse.block, bind_of_ok (expect_eq hp), bind_of_ok hrun, bind_of_ok (expectClosing_eq hp₁),
    Parse.spanFrom_bind]
  exact ⟨_, p₁.next, rfl, hp₁.next (by simp), by simp [Block.bare, hnew]⟩

end Statements

mutual

/-- Every expression is read back from its tokens. -/
theorem Expr.reading : (e : Expr) → e.writable = true → Reading e
  | .int n _, _ | .decimal n _, _ | .str n _, _ | .bool true _, _ | .bool false _, _ | .null _, _
  | .ident n _, _ => by
    refine ReadsPrimary.reading (readsPrimary_token rfl (by simp) ?_) (Nat.le_succ _)
    intro fuel p hk
    rw [Parse.primary, Parse.reader_bind]
    simp only [hk, Token.Kind.expr?]
    exact ⟨_, rfl, rfl⟩
  | .unary _ e _, h => .of_unary (readsUnary_unary (e.reading h).unary) rfl
  | .binary op left right _, h => by
    obtain ⟨hl, hr⟩ := Bool.and_eq_true_iff.mp h
    exact .of_operand (fun _ => readsOperand_binary (left.reading hl) (right.reading hr))
      op.level_lt_prefixLevel
  | .cond condition consequence alternative _, h => by
    obtain ⟨h, ha⟩ := Bool.and_eq_true_iff.mp h
    obtain ⟨hc, ht⟩ := Bool.and_eq_true_iff.mp h
    exact (readsPrimary_cond (condition.reading hc).expr (consequence.reading ht)
      (else_reading alternative ha)).reading (Nat.le_succ _)
  | .function none _ body _, h =>
    (readsPrimary_function (body.reading h)).reading (Nat.le_succ _)
  | .call callee args _, h => by
    obtain ⟨hf, has⟩ := Bool.and_eq_true_iff.mp h
    exact .of_calls (readsPostfix_call (callee.reading hf).calls (exprs_reading args has))
      (Nat.le_refl _)
  | .array items _, h => (readsPrimary_array (exprs_reading items h)).reading (Nat.le_succ _)
  | .hash ps _, h => (readsPrimary_hash (pairs_reading ps h)).reading (Nat.le_succ _)
  | .index target index _, h => by
    obtain ⟨ht, hi⟩ := Bool.and_eq_true_iff.mp h
    exact .of_calls (readsPostfix_index (target.reading ht).calls (index.reading hi).expr)
      (Nat.le_refl _)
  | .assign target value _, h => by
    obtain ⟨ht, hv⟩ := Bool.and_eq_true_iff.mp h
    exact .of_expr (readsExpr_assign (target.reading ht) (value.reading hv).expr) rfl

theorem exprs_reading : (es : List Expr) → exprsWritable es = true → ReadsItems es
  | [], _ => readsItems_nil
  | e :: es, h => by
    obtain ⟨he, hes⟩ := Bool.and_eq_true_iff.mp h
    exact readsItems_cons (e.reading he).expr (exprs_reading es hes)

theorem pairs_reading : (ps : List (Expr × Expr)) → pairsWritable ps = true → ReadsPairs ps
  | [], _ => readsPairs_nil
  | (key, value) :: ps, h => by
    obtain ⟨h, hps⟩ := Bool.and_eq_true_iff.mp h
    obtain ⟨hkey, hvalue⟩ := Bool.and_eq_true_iff.mp h
    exact readsPairs_cons (key.reading hkey).expr (value.reading hvalue).expr (pairs_reading ps hps)

theorem Block.reading : (b : Block) → b.writable = true → ReadsBlock b
  | .mk body _, h => readsBlock_mk (stmts_reading body h)

theorem else_reading : (o : Option Block) → elseWritable o = true → ∀ b, o = some b → ReadsBlock b
  | some b, h, _, rfl => b.reading h

theorem clause_reading : (o : Option Expr) → clauseWritable o = true → ∀ e, o = some e → ReadsExpr e
  | some e, h, _, rfl => (e.reading h).expr

theorem Stmt.reading : (s : Stmt) → s.writable = true → ReadsStmt s
  | .bind _ value _, h => (readsSimple_bind (value.reading h).expr).stmt fun {_} => .inl rfl
  | .ret value _, h => readsStmt_ret (clause_reading value h)
  | .expr e _, h => (readsSimple_expr (e.reading h).expr).stmt fun {_} => e.print_startsSimple _
  | .whileLoop condition body _, h => by
    obtain ⟨hc, hb⟩ := Bool.and_eq_true_iff.mp h
    exact readsStmt_while (condition.reading hc).expr (body.reading hb)
  | .forLoop init condition update body _, h => by
    obtain ⟨h, hb⟩ := Bool.and_eq_true_iff.mp h
    obtain ⟨h, hu⟩ := Bool.and_eq_true_iff.mp h
    obtain ⟨hi, hc⟩ := Bool.and_eq_true_iff.mp h
    exact readsStmt_for (init_reading init hi) (clause_reading condition hc)
      (clause_reading update hu) (body.reading hb)
  | .breakLoop _, _ => readsStmt_break
  | .continueLoop _, _ => readsStmt_continue

theorem init_reading : (o : Option Stmt) → initWritable o = true → ∀ s, o = some s →
    ReadsSimple s ∧ ∀ {rest}, ((s.print ++ rest).headD .eof).startsSimple
  | some (.bind _ value _), h, _, rfl =>
    ⟨readsSimple_bind (value.reading h).expr, fun {_} => .inl rfl⟩
  | some (.expr e _), h, _, rfl =>
    ⟨readsSimple_expr (e.reading h).expr, fun {_} => e.print_startsSimple _⟩

theorem stmts_reading : (ss : List Stmt) → stmtsWritable ss = true → ReadsStmts ss
  | [], _ => readsStmts_nil
  | s :: ss, h => by
    obtain ⟨hs, hss⟩ := Bool.and_eq_true_iff.mp h
    exact readsStmts_cons (s.reading hs) (stmts_reading ss hss)

end

/-- Parsing undoes printing: the tokens of a program, with as few parentheses as precedence allows,
give no error and that program, but for its spans. -/
theorem parse_print (program : Program) (h : program.writable = true) (tokens : List Token)
    (ht : tokens.map (·.kind) = program.print ++ [.eof]) :
    (parse tokens).errors = #[] ∧ (parse tokens).program.bare = program.bare := by
  have hat : At (stmtsPrint program.statements ++ .eof :: []) ⟨⟨tokens, Span.nowhere, 0⟩, #[]⟩ :=
    ⟨ht, rfl⟩
  have hlength : tokens.length = (stmtsPrint program.statements ++ [Token.Kind.eof]).length := by
    rw [← List.length_map, ht, Program.print]
  obtain ⟨ss, p', hrun, ⟨-, herrors⟩, new, rfl, hnew⟩ :=
    stmts_reading program.statements h (10 * tokens.length + 10) false [] (.inl rfl) hat (by omega)
  have hparse : parse tokens = ⟨⟨ss⟩, p'.errors⟩ := by
    unfold parse ExceptT.run
    rw [hrun]
  rw [hparse]
  exact ⟨herrors, congrArg Program.mk hnew⟩

/-- The program `x = (a - (b - c)) ** -d;` needs both pairs of parentheses, and no other. -/
theorem parse_print_power :
    let at' := Span.nowhere
    let difference : Expr := .binary .sub (.ident "b" at') (.ident "c" at') at'
    let base : Expr := .binary .sub (.ident "a" at') difference at'
    let power : Expr := .binary .pow base (.unary .neg (.ident "d" at') at') at'
    let program : Program := ⟨[.expr (.assign (.ident "x" at') power at') at']⟩
    let kinds : List Token.Kind := [.ident "x", .mark .assign, .mark .openParen, .ident "a",
      .mark .minus, .mark .openParen, .ident "b", .mark .minus, .ident "c", .mark .closeParen,
      .mark .closeParen, .mark .starStar, .mark .minus, .ident "d", .mark .semicolon, .eof]
    let tokens := kinds.map (Token.mk · at')
    program.writable = true ∧ tokens.map (·.kind) = program.print ++ [.eof] ∧
      (parse tokens).errors = #[] ∧ (parse tokens).program.bare = program.bare := by
  intro at' difference base power program kinds tokens
  have hw : program.writable = true := rfl
  have ht : tokens.map (·.kind) = program.print ++ [.eof] := rfl
  exact ⟨hw, ht, parse_print program hw tokens ht⟩

end StackScript
