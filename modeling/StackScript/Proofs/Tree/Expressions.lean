import StackScript.Proofs.Tree.Reading

/-! # Reading expressions back

One lemma for each kind of expression: it is read back if its parts are. Lists of expressions are
read onto those found already.
-/

namespace StackScript

open Parse (expect)

section Nodes

variable {e left right target value : Expr} {span : Span}

theorem readsUnary_unary {op : UnaryOp} (h : ReadsUnary e) : ReadsUnary (.unary op e span) := by
  intro fuel p rest hp hfuel hb
  rw [Expr.print, grouped_of_le (Nat.le_refl _)] at hp hfuel
  have hop : p.reader.current.kind.unaryOp? = some op :=
    Token.Kind.unaryOp?_eq_some.mpr hp.kind_cons
  simp only [List.cons_append, List.length_cons] at hfuel
  obtain ⟨fuel, rfl⟩ := Nat.exists_eq_add_of_le' (by omega : 1 ≤ fuel)
  obtain ⟨e', p₁, hrun, hp₁, he⟩ := h fuel (hp.next (by simp)) (by omega) hb
  rw [Parse.unary, Parse.reader_bind]
  simp only [hop]
  rw [Parse.advance_bind, bind_of_ok hrun]
  exact ⟨_, p₁, rfl, hp₁, by simp only [Expr.bare, he]⟩

/-- What stands last in a right operand binds at least as tightly as its operator asks. -/
theorem rightLevel_le_tail (op : BinaryOp) : op.rightLevel ≤ right.tail op.rightLevel := by
  cases right with
  | binary inner =>
    rw [Expr.tail]
    split
    · exact Nat.le_of_lt op.rightLevel_lt_prefixLevel
    · next h => exact Nat.le_trans (Nat.not_lt.mp h) inner.level_le_rightLevel
  | _ => exact Nat.le_of_lt op.rightLevel_lt_prefixLevel

/-- An operator is not taken by what stands last in its left operand. -/
theorem level_lt_tail (op : BinaryOp) : op.level < left.tail op.leftLevel := by
  cases left with
  | binary inner =>
    rw [Expr.tail]
    split
    · exact op.level_lt_prefixLevel
    · next h => exact BinaryOp.level_lt_rightLevel (Nat.not_lt.mp h)
  | _ => exact op.level_lt_prefixLevel

theorem readsOperand_binary {op : BinaryOp} (hl : Reading left) (hr : Reading right) {least : Nat}
    (hleast : least ≤ op.level) : ReadsOperand (.binary op left right span) least := by
  intro fuel p rest c hp hfuel hc hb
  rw [Expr.print, grouped_of_le hleast, List.append_assoc, List.cons_append] at hp
  rw [Expr.print, grouped_of_le hleast] at hfuel
  simp only [List.length_append, List.length_cons] at hfuel
  have hright : Bounds op.rightLevel (rest.headD .eof) := by
    rwa [Expr.tail, if_neg (Nat.not_lt.mpr hleast)] at hb
  -- the left operand, up to the operator
  have hcl : c ≤ op.leftLevel := Nat.le_trans (Nat.le_trans hc hleast) op.level_le_leftLevel
  obtain ⟨fuel₁, left', p₁, hrun₁, hfuel₁, hp₁, hleft⟩ :=
    hl.operand op.leftLevel op.leftLevel_le_prefixLevel (left.level_lt_or_two_le op.two_le_leftLevel)
      fuel hp (by simp; omega) hcl (.of_op (level_lt_tail op))
  simp only [List.length_append, List.length_cons] at hfuel₁
  obtain ⟨fuel₁, rfl⟩ := Nat.exists_eq_add_of_le' (by omega : 1 ≤ fuel₁)
  have hop : p₁.reader.current.kind.binaryOp? = some op :=
    Token.Kind.binaryOp?_eq_some.mpr hp₁.kind_cons
  -- the right operand, which ends where the whole does
  obtain ⟨fuel₂, right', p₂, hrun₂, hfuel₂, hp₂, hright'⟩ :=
    hr.operand op.rightLevel (Nat.le_of_lt op.rightLevel_lt_prefixLevel)
      (right.level_lt_or_two_le op.two_le_rightLevel) fuel₁ (hp₁.next (by simp)) (by simp; omega)
      (Nat.le_refl _) (hright.mono (rightLevel_le_tail op))
  have hpos : 1 ≤ fuel₂ := Nat.le_of_add_left_le hfuel₂
  have hrun : Parse.operand fuel₁ op.rightPower p₁.next = (.ok right', p₂) := by
    rw [← op.rightLevel_eq_rightPower]
    exact hrun₂.trans (operators_stop right' hpos hp₂ hright)
  have hpower : ¬ op.power < c := by
    have := op.level_eq_power
    omega
  refine ⟨fuel₁, .binary op left' right' (left'.span.merge right'.span), p₂, ?_, by omega, hp₂, ?_⟩
  · change _ = Parse.operators (fuel₁ + 1) c left' p₁ at hrun₁
    rw [hrun₁, Parse.operators, Parse.reader_bind]
    simp only [hop]
    rw [if_neg hpower, Parse.discard_advance_bind, bind_of_ok hrun]
  · simp only [Expr.bare, hleft, hright']

theorem readsExpr_assign (ht : Reading target) (hv : ReadsExpr value) :
    ReadsExpr (.assign target value span) := by
  intro fuel p rest hp hfuel hends
  rw [Expr.print, grouped_of_le (Nat.le_refl _), List.append_assoc, List.cons_append] at hp
  rw [Expr.print, grouped_of_le (Nat.le_refl _)] at hfuel
  simp only [List.length_append, List.length_cons] at hfuel
  obtain ⟨fuel, rfl⟩ := Nat.exists_eq_add_of_le' (by omega : 1 ≤ fuel)
  have hbounds (n : Nat) : Bounds n (.mark .assign) :=
    ⟨by simp, by simp, by simp, fun op hop => by cases hop⟩
  obtain ⟨fuel₁, target', p₁, hrun₁, hfuel₁, hp₁, htarget⟩ :=
    ht.operand (assignLevel + 1) (by decide) (target.level_lt_or_two_le (Nat.le_refl _)) fuel hp
      (by simp; omega) (Nat.le_succ _) (hbounds _)
  have hpos : 1 ≤ fuel₁ := Nat.le_of_add_left_le hfuel₁
  have hrun : Parse.operand fuel 1 p = (.ok target', p₁) :=
    hrun₁.trans (operators_stop target' hpos hp₁ (hbounds _))
  obtain ⟨value', p₂, hrun₂, hp₂, hvalue⟩ := hv fuel (hp₁.next (by simp)) (by simp; omega) hends
  refine ⟨.assign target' value' (target'.span.merge value'.span), p₂, ?_, hp₂, ?_⟩
  · rw [Parse.expr, bind_of_ok hrun, Parse.eat_bind, if_pos hp₁.atMark, if_pos rfl, bind_of_ok hrun₂]
    rfl
  · simp only [Expr.bare, htarget, hvalue]

end Nodes

section Lists

variable {e key value : Expr} {es : List Expr} {ps : List (Expr × Expr)}

theorem Token.Kind.starts_of_ends {k : Token.Kind} (h : k.ends = true) : k.starts = false := by
  obtain rfl | rfl | rfl | rfl | rfl | rfl := ends_cases h <;> rfl

theorem At.head_ne {least : Nat} {rest : List Token.Kind} {k : Token.Kind}
    (hk : k.starts = false) : (e.print least ++ rest).headD .eof ≠ k := by
  obtain ⟨l, ls, hls, hl, -⟩ := e.print_head least
  rw [hls]
  exact Token.Kind.ne_of_starts hl hk

theorem At.not_closed {least : Nat} {rest : List Token.Kind} {close : Mark} {p : Parser}
    (h : At (e.print least ++ rest) p) (hclose : (Token.Kind.mark close).ends = true) :
    ¬ (p.reader.atMark close || p.reader.atEnd) = true := by
  simp [h.not_atMark (At.head_ne (Token.Kind.starts_of_ends hclose)), h.not_atEnd (At.head_ne rfl)]

/-- The items parser reads the items, onto those found already, and passes the closing mark. -/
def ReadsItems (es : List Expr) : Prop := ∀ (fuel close delimiter opened found) {p rest},
  (Token.Kind.mark close).ends = true → close ≠ .comma →
  At (commas (exprsPrint es) ++ .mark close :: rest) p →
  10 * (commas (exprsPrint es) ++ .mark close :: rest).length + 7 ≤ fuel →
    Reads (Parse.items fuel close delimiter opened found p) rest fun es' =>
      ∃ new, es' = found.reverse ++ new ∧ exprsBare new = exprsBare es

theorem readsItems_nil : ReadsItems [] := by
  intro fuel close delimiter opened found p rest _ _ hp hfuel
  change At (.mark close :: rest) p at hp
  obtain ⟨fuel, rfl⟩ := Nat.exists_eq_add_of_le' (by omega : 1 ≤ fuel)
  refine ⟨found.reverse, p.next, ?_, hp.next (by simp), [], by simp, rfl⟩
  rw [Parse.items, Parse.reader_bind, if_pos (by simp [hp.atMark]), bind_of_ok (expectClosing_eq hp)]
  rfl

theorem readsItems_cons (he : ReadsExpr e) (hes : ReadsItems es) : ReadsItems (e :: es) := by
  intro fuel close delimiter opened found p rest hclose hcomma hp hfuel
  obtain ⟨fuel, rfl⟩ := Nat.exists_eq_add_of_le' (by omega : 1 ≤ fuel)
  cases es with
  | nil =>
    change At (e.print assignLevel ++ .mark close :: rest) p at hp
    change 10 * (e.print assignLevel ++ .mark close :: rest).length + 7 ≤ fuel + 1 at hfuel
    obtain ⟨e', p₁, hrun, hp₁, he'⟩ := he fuel hp (by omega) hclose
    refine ⟨(e' :: found).reverse, p₁.next, ?_, hp₁.next (by simp), [e'], by simp, ?_⟩
    · rw [Parse.items, Parse.reader_bind, if_neg (hp.not_closed hclose), bind_of_ok hrun, Parse.eat_bind,
        if_neg (hp₁.not_atMark (by simpa using hcomma)), if_neg Bool.false_ne_true,
        bind_of_ok (expectClosing_eq hp₁)]
      rfl
    · simp [exprsBare, he']
  | cons f es =>
    have hlist : commas (exprsPrint (e :: f :: es)) ++ .mark close :: rest =
        e.print assignLevel ++ .mark .comma :: (commas (exprsPrint (f :: es)) ++ .mark close :: rest) := by
      simp [exprsPrint, commas]
    rw [hlist] at hp hfuel
    simp only [List.length_append, List.length_cons] at hfuel
    obtain ⟨e', p₁, hrun, hp₁, he'⟩ := he fuel hp (by simp; omega) rfl
    obtain ⟨es', p₂, hrun₂, hp₂, new, hes', hnew⟩ :=
      hes fuel close delimiter opened (e' :: found) hclose hcomma (hp₁.next (by simp))
        (by simp; omega)
    refine ⟨es', p₂, ?_, hp₂, e' :: new, by simp [hes'], ?_⟩
    · rw [Parse.items, Parse.reader_bind, if_neg (hp.not_closed hclose), bind_of_ok hrun, Parse.eat_bind,
        if_pos hp₁.atMark, if_pos rfl, hrun₂]
    · rw [exprsBare, he', hnew, ← exprsBare]

def ReadsPairs (ps : List (Expr × Expr)) : Prop := ∀ (fuel opened found) {p rest},
  At (commas (pairsPrint ps) ++ .mark .closeBrace :: rest) p →
  10 * (commas (pairsPrint ps) ++ .mark .closeBrace :: rest).length + 7 ≤ fuel →
    Reads (Parse.pairs fuel opened found p) rest fun ps' =>
      ∃ new, ps' = found.reverse ++ new ∧ pairsBare new = pairsBare ps

theorem readsPairs_nil : ReadsPairs [] := by
  intro fuel opened found p rest hp hfuel
  change At (.mark .closeBrace :: rest) p at hp
  obtain ⟨fuel, rfl⟩ := Nat.exists_eq_add_of_le' (by omega : 1 ≤ fuel)
  refine ⟨found.reverse, p.next, ?_, hp.next (by simp), [], by simp, rfl⟩
  rw [Parse.pairs, Parse.reader_bind, if_pos (by simp [hp.atMark]), bind_of_ok (expectClosing_eq hp)]
  rfl

theorem reads_pair (hkey : ReadsExpr key) (hvalue : ReadsExpr value) (fuel : Nat) {p : Parser}
    {rest : List Token.Kind}
    (hp : At (key.print assignLevel ++ .mark .colon :: (value.print assignLevel ++ rest)) p)
    (hfuel : 10 * ((key.print assignLevel).length + (value.print assignLevel).length + rest.length + 1)
      + 6 ≤ fuel) (hends : (rest.headD .eof).ends = true) :
    ∃ key' value' p₁ p₂, Parse.expr fuel p = (.ok key', p₁) ∧
      (discard (expect .colon) : Parse Unit) p₁ = (.ok (), p₁.next) ∧
      Parse.expr fuel p₁.next = (.ok value', p₂) ∧ At rest p₂ ∧
      key'.bare = key.bare ∧ value'.bare = value.bare := by
  obtain ⟨key', p₁, hrun₁, hp₁, hkey'⟩ := hkey fuel hp (by simp; omega) rfl
  obtain ⟨value', p₂, hrun₂, hp₂, hvalue'⟩ :=
    hvalue fuel (hp₁.next (by simp)) (by simp; omega) hends
  exact ⟨key', value', p₁, p₂, hrun₁, discard_expect_eq hp₁, hrun₂, hp₂, hkey', hvalue'⟩

theorem readsPairs_cons (hkey : ReadsExpr key) (hvalue : ReadsExpr value) (hps : ReadsPairs ps) :
    ReadsPairs ((key, value) :: ps) := by
  intro fuel opened found p rest hp hfuel
  obtain ⟨fuel, rfl⟩ := Nat.exists_eq_add_of_le' (by omega : 1 ≤ fuel)
  cases ps with
  | nil =>
    have hlist : commas (pairsPrint [(key, value)]) ++ .mark .closeBrace :: rest =
        key.print assignLevel ++
          .mark .colon :: (value.print assignLevel ++ .mark .closeBrace :: rest) := by
      simp [pairsPrint, commas]
    rw [hlist] at hp hfuel
    simp only [List.length_append, List.length_cons] at hfuel
    obtain ⟨key', value', p₁, p₂, hrun₁, hcolon, hrun₂, hp₂, hkey', hvalue'⟩ :=
      reads_pair hkey hvalue fuel hp (by simp; omega) rfl
    refine ⟨((key', value') :: found).reverse, p₂.next, ?_, hp₂.next (by simp), [(key', value')],
      by simp, by simp [pairsBare, hkey', hvalue']⟩
    rw [Parse.pairs, Parse.reader_bind, if_neg (hp.not_closed rfl), bind_of_ok hrun₁,
      bind_of_ok hcolon, bind_of_ok hrun₂, Parse.eat_bind, if_neg (hp₂.not_atMark (by simp)),
      if_neg Bool.false_ne_true, bind_of_ok (expectClosing_eq hp₂)]
    rfl
  | cons pair ps =>
    have hlist : commas (pairsPrint ((key, value) :: pair :: ps)) ++ .mark .closeBrace :: rest =
        key.print assignLevel ++ .mark .colon :: (value.print assignLevel ++ .mark .comma ::
          (commas (pairsPrint (pair :: ps)) ++ .mark .closeBrace :: rest)) := by
      simp [pairsPrint, commas]
    rw [hlist] at hp hfuel
    simp only [List.length_append, List.length_cons] at hfuel
    obtain ⟨key', value', p₁, p₂, hrun₁, hcolon, hrun₂, hp₂, hkey', hvalue'⟩ :=
      reads_pair hkey hvalue fuel hp (by simp; omega) rfl
    obtain ⟨ps', p₃, hrun₃, hp₃, new, hps', hnew⟩ :=
      hps fuel opened ((key', value') :: found) (hp₂.next (by simp)) (by simp; omega)
    refine ⟨ps', p₃, ?_, hp₃, (key', value') :: new, by simp [hps'], ?_⟩
    · rw [Parse.pairs, Parse.reader_bind, if_neg (hp.not_closed rfl), bind_of_ok hrun₁,
        bind_of_ok hcolon, bind_of_ok hrun₂, Parse.eat_bind, if_pos hp₂.atMark, if_pos rfl, hrun₃]
    · rw [pairsBare, hkey', hvalue', hnew, ← pairsBare]

theorem reads_params (names : List Ident) : ∀ (fuel : Nat) (found : List Ident) {p : Parser}
    {rest : List Token.Kind},
    At (commas (names.map fun i => [.ident i.name]) ++ .mark .closeParen :: rest) p →
    10 * (commas (names.map fun i => [.ident i.name]) ++ .mark .closeParen :: rest).length ≤ fuel →
      Reads (Parse.params fuel found p) (.mark .closeParen :: rest) fun names' =>
        ∃ new, names' = found.reverse ++ new ∧ new.map Ident.bare = names.map Ident.bare := by
  induction names with
  | nil =>
    intro fuel found p rest hp hfuel
    change At (.mark .closeParen :: rest) p at hp
    simp only [List.length_append, List.length_cons] at hfuel
    obtain ⟨fuel, rfl⟩ := Nat.exists_eq_add_of_le' (by omega : 1 ≤ fuel)
    refine ⟨found.reverse, p, ?_, hp, [], by simp, rfl⟩
    rw [Parse.params, Parse.reader_bind, if_pos (by simp [hp.atMark])]
    rfl
  | cons name names ih =>
    intro fuel found p rest hp hfuel
    simp only [List.length_append, List.length_cons] at hfuel
    obtain ⟨fuel, rfl⟩ := Nat.exists_eq_add_of_le' (by omega : 1 ≤ fuel)
    let name' : Ident := ⟨name.name, p.reader.current.span⟩
    cases names with
    | nil =>
      change At (.ident name.name :: .mark .closeParen :: rest) p at hp
      have hp₁ := hp.next (by simp)
      refine ⟨(name' :: found).reverse, p.next, ?_, hp₁, [name'], by simp, rfl⟩
      rw [Parse.params, Parse.reader_bind,
        if_neg (by simp [hp.not_atMark (m := .closeParen) (by simp), hp.not_atEnd (by simp)]),
        bind_of_ok (expectIdent_eq hp), Parse.eat_bind, if_neg (hp₁.not_atMark (by simp))]
      rfl
    | cons second names =>
      change At (.ident name.name :: .mark .comma ::
        (commas ((second :: names).map fun i => [.ident i.name]) ++ .mark .closeParen :: rest)) p at hp
      change 10 * ((commas ((second :: names).map fun i => [.ident i.name])).length + 1 + 1 +
        (rest.length + 1)) ≤ fuel + 1 at hfuel
      have hp₁ := hp.next (by simp)
      obtain ⟨names', p₂, hrun, hp₂, new, hnames', hnew⟩ :=
        ih fuel (name' :: found) (hp₁.next (by simp)) (by simp only [List.length_append, List.length_cons]; omega)
      refine ⟨names', p₂, ?_, hp₂, name' :: new, by simp [hnames'], ?_⟩
      · rw [Parse.params, Parse.reader_bind,
          if_neg (by simp [hp.not_atMark (m := .closeParen) (by simp), hp.not_atEnd (by simp)]),
          bind_of_ok (expectIdent_eq hp), Parse.eat_bind, if_pos hp₁.atMark, if_pos rfl, hrun]
      · simp only [List.map_cons, hnew]
        rfl

end Lists

section Primaries

variable {e condition callee target index : Expr} {es : List Expr} {ps : List (Expr × Expr)}
  {consequence b : Block} {alternative : Option Block} {names : List Ident} {span : Span}

/-- The primary parser reads the expression, which no `else` follows. -/
def ReadsPrimary (e : Expr) : Prop := ∀ (fuel) {p rest}, At (e.print callLevel ++ rest) p →
  10 * (e.print callLevel ++ rest).length + 3 ≤ fuel + 1 →
    rest.headD .eof ≠ .keyword .otherwise →
      Reads (Parse.primary (fuel + 1) p) rest fun e' => e'.bare = e.bare

theorem ReadsPrimary.reading (h : ReadsPrimary e) (hl : callLevel ≤ e.level) : Reading e := by
  refine .of_calls ?_ hl
  intro fuel p rest hp hfuel helse
  obtain ⟨fuel, rfl⟩ := Nat.exists_eq_add_of_le' (by omega : 1 ≤ fuel)
  obtain ⟨e', p₁, hrun, hp₁, he⟩ := h fuel hp hfuel helse
  simp only [List.length_append] at hfuel
  exact ⟨fuel + 1, e', p₁, bind_of_ok hrun, by omega, hp₁, he⟩

theorem readsPrimary_token {k : Token.Kind} (hprint : e.print callLevel = [k]) (hk : k ≠ .eof)
    (h : ∀ {fuel p}, p.reader.current.kind = k →
      ∃ e', Parse.primary (fuel + 1) p = (.ok e', p.next) ∧ e'.bare = e.bare) : ReadsPrimary e := by
  intro fuel p rest hp _ _
  rw [hprint] at hp
  obtain ⟨e', hrun, he⟩ := h hp.kind_cons
  exact ⟨e', p.next, hrun, hp.next hk, he⟩

theorem readsPrimary_array (hes : ReadsItems es) : ReadsPrimary (.array es span) := by
  intro fuel p rest hp hfuel _
  simp only [Expr.print, List.cons_append, List.append_assoc, List.nil_append, List.length_cons]
    at hp hfuel
  have hk : p.reader.current.kind = .mark .openBracket := hp.kind_cons
  obtain ⟨es', p₁, hrun, hp₁, new, rfl, hnew⟩ :=
    hes fuel .closeBracket .openBracket p.reader.current.span [] rfl (by simp) (hp.next (by simp))
      (by omega)
  rw [Parse.primary, Parse.reader_bind]
  simp only [hk, Token.Kind.expr?]
  rw [Parse.discard_advance_bind, bind_of_ok hrun]
  exact ⟨_, p₁, rfl, hp₁, by simp [Expr.bare, hnew]⟩

theorem readsPrimary_hash (hps : ReadsPairs ps) : ReadsPrimary (.hash ps span) := by
  intro fuel p rest hp hfuel _
  simp only [Expr.print, List.cons_append, List.append_assoc, List.nil_append, List.length_cons]
    at hp hfuel
  have hk : p.reader.current.kind = .mark .openBrace := hp.kind_cons
  obtain ⟨ps', p₁, hrun, hp₁, new, rfl, hnew⟩ :=
    hps fuel p.reader.current.span [] (hp.next (by simp)) (by omega)
  rw [Parse.primary, Parse.reader_bind]
  simp only [hk, Token.Kind.expr?]
  rw [Parse.discard_advance_bind, bind_of_ok hrun]
  exact ⟨_, p₁, rfl, hp₁, by simp [Expr.bare, hnew]⟩

theorem readsPostfix_call (hf : ReadsPostfix callee) (hes : ReadsItems es) :
    ReadsPostfix (.call callee es span) := by
  intro fuel p rest hp hfuel _
  simp only [Expr.print, List.cons_append, List.append_assoc, List.nil_append] at hp hfuel
  obtain ⟨fuel₁, callee', p₁, hrun, hfuel₁, hp₁, hcallee⟩ := hf fuel hp hfuel (by simp)
  have hk : p₁.reader.current.kind = .mark .openParen := hp₁.kind_cons
  simp only [List.length_cons] at hfuel₁
  obtain ⟨fuel₁, rfl⟩ := Nat.exists_eq_add_of_le' (by omega : 1 ≤ fuel₁)
  obtain ⟨es', p₂, hrun₂, hp₂, new, rfl, hnew⟩ :=
    hes fuel₁ .closeParen .openParen p₁.reader.current.span [] rfl (by simp) (hp₁.next (by simp))
      (by omega)
  simp only [List.length_append, List.length_cons] at hfuel₁
  refine ⟨fuel₁, .call callee' es' (p₂.reader.spanFrom callee'.span), p₂, ?_, by omega, hp₂, ?_⟩
  · rw [hrun, Parse.postfixes, Parse.reader_bind]
    simp only [hk]
    rw [Parse.advance_bind, bind_of_ok hrun₂, Parse.spanFrom_bind]
  · simp [Expr.bare, hcallee, hnew]

theorem readsPostfix_index (ht : ReadsPostfix target) (hi : ReadsExpr index) :
    ReadsPostfix (.index target index span) := by
  intro fuel p rest hp hfuel _
  simp only [Expr.print, List.cons_append, List.append_assoc, List.nil_append] at hp hfuel
  obtain ⟨fuel₁, target', p₁, hrun, hfuel₁, hp₁, htarget⟩ := ht fuel hp hfuel (by simp)
  have hk : p₁.reader.current.kind = .mark .openBracket := hp₁.kind_cons
  simp only [List.length_cons] at hfuel₁
  obtain ⟨fuel₁, rfl⟩ := Nat.exists_eq_add_of_le' (by omega : 1 ≤ fuel₁)
  obtain ⟨index', p₂, hrun₂, hp₂, hindex⟩ := hi fuel₁ (hp₁.next (by simp)) (by omega) rfl
  simp only [List.length_append, List.length_cons] at hfuel₁
  refine ⟨fuel₁, .index target' index' (p₂.next.reader.spanFrom target'.span), p₂.next, ?_,
    by omega, hp₂.next (by simp), ?_⟩
  · rw [hrun, Parse.postfixes, Parse.reader_bind]
    simp only [hk]
    rw [Parse.advance_bind, bind_of_ok hrun₂, bind_of_ok (expectClosing_eq hp₂),
      Parse.spanFrom_bind]
  · simp [Expr.bare, htarget, hindex]

def ReadsBlock (b : Block) : Prop := ∀ (fuel) {p rest}, At (b.print ++ rest) p →
  10 * (b.print ++ rest).length ≤ fuel →
    Reads (Parse.block fuel p) rest fun b' => b'.bare = b.bare

theorem Block.print_head (b : Block) : ∃ ks, b.print = .mark .openBrace :: ks := by
  cases b
  exact ⟨_, rfl⟩

theorem reads_condition (h : ReadsExpr condition) (fuel : Nat) {p : Parser}
    {rest : List Token.Kind}
    (hp : At (.mark .openParen :: (condition.print assignLevel ++ .mark .closeParen :: rest)) p)
    (hfuel : 10 * ((condition.print assignLevel).length + 1 + rest.length) + 6 ≤ fuel) :
    ∃ condition' p₁, Parse.expr fuel p.next = (.ok condition', p₁) ∧
      At (.mark .closeParen :: rest) p₁ ∧ condition'.bare = condition.bare := by
  obtain ⟨condition', p₁, hrun, hp₁, hc⟩ := h fuel (hp.next (by simp)) (by simp; omega) rfl
  exact ⟨condition', p₁, hrun, hp₁, hc⟩

theorem readsPrimary_cond (hc : ReadsExpr condition) (ht : ReadsBlock consequence)
    (he : ∀ b, alternative = some b → ReadsBlock b) :
    ReadsPrimary (.cond condition consequence alternative span) := by
  intro fuel p rest hp hfuel helse
  simp only [Expr.print, List.cons_append, List.append_assoc, List.length_cons] at hp hfuel
  have hk : p.reader.current.kind = .keyword .cond := hp.kind_cons
  have hp₁ := hp.next (by simp)
  obtain ⟨fuel, rfl⟩ := Nat.exists_eq_add_of_le' (by omega : 1 ≤ fuel)
  simp only [List.length_append, List.length_cons] at hfuel
  obtain ⟨condition', p₂, hrun₂, hp₂, hcondition⟩ := reads_condition hc fuel hp₁ (by simp; omega)
  obtain ⟨consequence', p₃, hrun₃, hp₃, hconsequence⟩ :=
    ht fuel (hp₂.next (by simp)) (by simp; omega)
  have hcond : Parse.primary (fuel + 1 + 1) p = Parse.cond (fuel + 1) p := by
    rw [Parse.primary, Parse.reader_bind]
    simp only [hk, Token.Kind.expr?]
  rw [hcond, Parse.cond, Parse.advance_bind, bind_of_ok (expect_eq hp₁), bind_of_ok hrun₂,
    bind_of_ok (expectClosing_eq hp₂), bind_of_ok hrun₃, Parse.eatKeyword_bind]
  cases alternative with
  | none =>
    rw [if_neg (hp₃.not_atKeyword helse), if_neg Bool.false_ne_true, Parse.spanFrom_bind]
    exact ⟨_, p₃, rfl, hp₃, by simp [Expr.bare, elseBare, hcondition, hconsequence]⟩
  | some b =>
    simp only [elsePrint, List.cons_append] at hp₃ hfuel
    have hp₄ := hp₃.next (by simp)
    obtain ⟨alternative', p₅, hrun₅, hp₅, halternative⟩ := he b rfl fuel hp₄ (by simp at hfuel ⊢; omega)
    have hbrace : (b.print ++ rest).headD .eof ≠ .keyword .cond := by
      obtain ⟨ks, hks⟩ := b.print_head
      simp [hks]
    rw [if_pos (TokenReader.atKeyword_iff.mpr hp₃.kind_cons), if_pos rfl, Parse.reader_bind,
      if_neg (hp₄.not_atKeyword hbrace), bind_of_ok hrun₅, Parse.spanFrom_bind]
    exact ⟨_, p₅, rfl, hp₅, by simp [Expr.bare, elseBare, hcondition, hconsequence, halternative]⟩

theorem readsPrimary_function (hb : ReadsBlock b) : ReadsPrimary (.function none names b span) := by
  intro fuel p rest hp hfuel _
  simp only [Expr.print, List.cons_append, List.append_assoc, List.length_cons] at hp hfuel
  have hk : p.reader.current.kind = .keyword .function := hp.kind_cons
  have hp₁ := hp.next (by simp)
  obtain ⟨fuel, rfl⟩ := Nat.exists_eq_add_of_le' (by omega : 1 ≤ fuel)
  obtain ⟨names', p₂, hrun₂, hp₂, new, rfl, hnew⟩ :=
    reads_params names fuel [] (hp₁.next (by simp)) (by omega)
  simp only [List.length_append, List.length_cons] at hfuel
  obtain ⟨b', p₃, hrun₃, hp₃, hb'⟩ := hb fuel (hp₂.next (by simp)) (by simp; omega)
  have hfunction : Parse.primary (fuel + 1 + 1) p = Parse.function (fuel + 1) p := by
    rw [Parse.primary, Parse.reader_bind]
    simp only [hk, Token.Kind.expr?]
  rw [hfunction, Parse.function, Parse.advance_bind, bind_of_ok (expect_eq hp₁), bind_of_ok hrun₂,
    bind_of_ok (expectClosing_eq hp₂), bind_of_ok hrun₃, Parse.spanFrom_bind]
  exact ⟨_, p₃, rfl, hp₃, by simp [Expr.bare, hnew, hb']⟩

end Primaries

end StackScript
