import StackScript.Proofs.Tree.Printer

/-! # Reading an expression back

What it means that a parser reads a printed expression, for the four layers of expressions:
assignments, operators, prefix operators, and calls and indices. A layer that reads an expression
where it stands alone makes the tighter layers read it in parentheses.

A looser expression is built by a loop behind a tighter one, so what is said of the operand and
postfix parsers is that they come to the head of their loop with the expression read so far
(`Reaches`). Fuel is counted in tokens: ten for each token that is left.
-/

namespace StackScript

open Parse (expect expectClosing expectIdent)

/-- The parser stands in front of tokens of these kinds and has recorded no error. -/
def At (ks : List Token.Kind) (p : Parser) : Prop :=
  p.reader.rest.map (·.kind) = ks ∧ p.errors = #[]

namespace At

variable {ks : List Token.Kind} {k : Token.Kind} {m : Mark} {w : Keyword} {p : Parser}

theorem kind_eq (h : At ks p) : p.kind = ks.headD .eof := by
  rw [← h.1]
  unfold Parser.kind TokenReader.current
  cases p.reader.rest <;> rfl

theorem kind_cons (h : At (k :: ks) p) : p.kind = k := h.kind_eq

theorem next (h : At (k :: ks) p) (hk : k ≠ .eof) : At ks p.next := by
  obtain ⟨hrest, herrors⟩ := h
  cases hr : p.reader.rest with
  | nil => simp [hr] at hrest
  | cons t ts =>
    rw [hr, List.map_cons, List.cons.injEq] at hrest
    constructor
    · rw [Parser.next, TokenReader.advance_cons hr (hrest.1 ▸ hk)]
      exact hrest.2
    · exact herrors

theorem atMark (h : At (.mark m :: ks) p) : p.reader.atMark m = true :=
  TokenReader.atMark_iff.mpr h.kind_cons

theorem not_atMark (h : At ks p) (hm : ks.headD .eof ≠ .mark m) : ¬ p.reader.atMark m = true :=
  fun ha => hm (h.kind_eq ▸ TokenReader.atMark_iff.mp ha)

theorem not_atKeyword (h : At ks p) (hw : ks.headD .eof ≠ .keyword w) :
    ¬ p.reader.atKeyword w = true :=
  fun ha => hw (h.kind_eq ▸ TokenReader.atKeyword_iff.mp ha)

theorem not_atEnd (h : At ks p) (hk : ks.headD .eof ≠ .eof) : ¬ p.reader.atEnd = true :=
  fun ha => hk (h.kind_eq ▸ TokenReader.atEnd_iff.mp ha)

end At

section Steps

variable {α β : Type} {ks : List Token.Kind} {m : Mark} {p p' : Parser}

theorem bind_of_ok {x : Parse α} {f : α → Parse β} {a : α} (h : x p = (.ok a, p')) :
    (x >>= f) p = f a p' := by
  rw [bind_apply, h]

theorem expect_eq (h : At (.mark m :: ks) p) : expect m p = (.ok p.reader.current.span, p.next) := by
  rw [expect, Parse.reader_bind, if_pos h.atMark]
  rfl

theorem discard_expect_eq (h : At (.mark m :: ks) p) :
    (discard (expect m) : Parse Unit) p = (.ok (), p.next) := by
  rw [discard_apply, expect_eq h]

theorem expectClosing_eq {delimiter : Mark} {opened : Span} (h : At (.mark m :: ks) p) :
    expectClosing m delimiter opened p = (.ok (), p.next) := by
  rw [expectClosing, Parse.reader_bind, if_neg (h.not_atEnd (by simp)), discard_expect_eq h]

theorem expectIdent_eq {name : String} (h : At (.ident name :: ks) p) :
    expectIdent p = (.ok ⟨name, p.reader.current.span⟩, p.next) := by
  have hk : p.reader.current.kind = .ident name := h.kind_cons
  rw [expectIdent, Parse.reader_bind]
  simp only [hk]
  rfl

end Steps

/-- The step ends in front of `rest`, with a result in `Q`. -/
def Reads {α : Type} (result : Except ParseError α × Parser) (rest : List Token.Kind)
    (Q : α → Prop) : Prop :=
  ∃ a p', result = (.ok a, p') ∧ At rest p' ∧ Q a

/-- The step is the loop `loop` in front of `rest`, behind the expression `e` and with fuel for the
rest. -/
def Reaches (result : Except ParseError Expr × Parser) (loop : Nat → Expr → Parse Expr)
    (rest : List Token.Kind) (e : Expr) : Prop :=
  ∃ fuel left p', result = loop fuel left p' ∧ 10 * rest.length + 1 ≤ fuel ∧ At rest p' ∧
    left.bare = e.bare

/-- Whether a token of this kind ends every expression. -/
def Token.Kind.ends : Token.Kind → Bool
  | .mark .closeParen | .mark .closeBracket | .mark .closeBrace | .mark .comma | .mark .semicolon
  | .mark .colon => true
  | _ => false

/-- In front of a token of this kind, an operand for which at least the level `least` is asked
ends. -/
structure Bounds (least : Nat) (k : Token.Kind) : Prop where
  not_else : k ≠ .keyword .otherwise
  not_call : k ≠ .mark .openParen
  not_index : k ≠ .mark .openBracket
  looser : ∀ op, k.binaryOp? = some op → op.level < least

namespace Bounds

variable {n least : Nat} {k : Token.Kind}

theorem mono (h : Bounds n k) (hn : n ≤ least) : Bounds least k := by
  constructor
  · exact h.not_else
  · exact h.not_call
  · exact h.not_index
  · exact fun op hop => Nat.lt_of_lt_of_le (h.looser op hop) hn

theorem of_op {op : BinaryOp} (h : op.level < least) : Bounds least (.mark op.mark) := by
  constructor
  · simp
  · cases op <;> simp [BinaryOp.mark]
  · cases op <;> simp [BinaryOp.mark]
  · intro op' hop
    have hmark : Token.Kind.binaryOp? (.mark op.mark) = some op :=
      Token.Kind.binaryOp?_eq_some.mpr rfl
    obtain rfl : op = op' := Option.some.inj (hmark.symm.trans hop)
    exact h

end Bounds

namespace Token.Kind

variable {k : Token.Kind}

theorem ends_cases (h : k.ends = true) : k = .mark .closeParen ∨ k = .mark .closeBracket ∨
    k = .mark .closeBrace ∨ k = .mark .comma ∨ k = .mark .semicolon ∨ k = .mark .colon := by
  unfold ends at h
  split at h <;> simp_all

theorem bounds_of_ends (h : k.ends = true) (least : Nat) : Bounds least k := by
  obtain rfl | rfl | rfl | rfl | rfl | rfl := ends_cases h <;>
    exact ⟨by simp, by simp, by simp, fun op hop => by cases hop⟩

theorem ne_of_ends {l : Token.Kind} (h : k.ends = true) (hl : l.ends = false) : k ≠ l := by
  rintro rfl
  exact Bool.noConfusion (h.symm.trans hl)

theorem ne_of_starts {l : Token.Kind} (h : k.starts = true) (hl : l.starts = false) : k ≠ l := by
  rintro rfl
  exact Bool.noConfusion (h.symm.trans hl)

end Token.Kind

/-- The least level of what stands last in an expression, printed for the level `least`. -/
def Expr.tail (least : Nat) : Expr → Nat
  | .binary op _ _ _ => if op.level < least then prefixLevel else op.rightLevel
  | _ => prefixLevel

section Readers

variable (e : Expr)

def ReadsExpr : Prop := ∀ (fuel) {p rest}, At (e.print assignLevel ++ rest) p →
  10 * (e.print assignLevel ++ rest).length + 6 ≤ fuel → (rest.headD .eof).ends = true →
    Reads (Parse.expr fuel p) rest fun e' => e'.bare = e.bare

def ReadsOperand (least : Nat) : Prop := ∀ (fuel) {p rest c}, At (e.print least ++ rest) p →
  10 * (e.print least ++ rest).length + 5 ≤ fuel → c ≤ least →
    Bounds (e.tail least) (rest.headD .eof) →
      Reaches (Parse.operand fuel c p) (fun fuel => Parse.operators fuel c) rest e

def ReadsUnary : Prop := ∀ (fuel) {p rest}, At (e.print prefixLevel ++ rest) p →
  10 * (e.print prefixLevel ++ rest).length + 4 ≤ fuel → Bounds prefixLevel (rest.headD .eof) →
    Reads (Parse.unary fuel p) rest fun e' => e'.bare = e.bare

def ReadsPostfix : Prop := ∀ (fuel) {p rest}, At (e.print callLevel ++ rest) p →
  10 * (e.print callLevel ++ rest).length + 3 ≤ fuel →
    rest.headD .eof ≠ .keyword .otherwise →
      Reaches ((Parse.primary fuel >>= Parse.postfixes fuel) p) Parse.postfixes rest e

/-- Every parser of expressions reads the expression where it is printed for that parser. -/
structure Reading : Prop where
  expr : ReadsExpr e
  operand : ∀ least ≤ prefixLevel, (e.level < least ∨ 2 ≤ e.level) → ReadsOperand e least
  unary : ReadsUnary e
  calls : ReadsPostfix e

end Readers

section Loops

variable {fuel c : Nat} (left : Expr) {p : Parser} {rest : List Token.Kind}

theorem operators_stop (hfuel : 1 ≤ fuel) (h : At rest p) (hb : Bounds c (rest.headD .eof)) :
    Parse.operators fuel c left p = (.ok left, p) := by
  obtain ⟨fuel, rfl⟩ := Nat.exists_eq_add_of_le' hfuel
  rw [Parse.operators, Parse.reader_bind]
  have hk : p.reader.current.kind = rest.headD .eof := h.kind_eq
  cases hop : (rest.headD .eof).binaryOp? with
  | none =>
    simp only [hk, hop]
    rfl
  | some op =>
    simp only [hk, hop]
    rw [if_pos (op.level_eq_power ▸ hb.looser op hop)]
    rfl

theorem postfixes_stop (hfuel : 1 ≤ fuel) (h : At rest p) (hcall : rest.headD .eof ≠ .mark .openParen)
    (hindex : rest.headD .eof ≠ .mark .openBracket) :
    Parse.postfixes fuel left p = (.ok left, p) := by
  obtain ⟨fuel, rfl⟩ := Nat.exists_eq_add_of_le' hfuel
  rw [Parse.postfixes, Parse.reader_bind]
  have hk : p.reader.current.kind = rest.headD .eof := h.kind_eq
  generalize p.reader.current.kind = k at hk
  split
  · exact absurd hk.symm hcall
  · exact absurd hk.symm hindex
  · rfl

end Loops

section Layers

variable {e : Expr}

theorem ReadsExpr.primary (h : ReadsExpr e) {fuel : Nat} {p : Parser} {rest : List Token.Kind}
    (hp : At (.mark .openParen :: e.print assignLevel ++ [.mark .closeParen] ++ rest) p)
    (hfuel : 10 * ((e.print assignLevel).length + 2 + rest.length) + 3 ≤ fuel) :
    Reads (Parse.primary fuel p) rest fun e' => e'.bare = e.bare := by
  rw [List.append_assoc, List.cons_append] at hp
  have hk : p.reader.current.kind = .mark .openParen := hp.kind_cons
  obtain ⟨fuel, rfl⟩ := Nat.exists_eq_add_of_le' (by omega : 1 ≤ fuel)
  obtain ⟨e', p₁, hrun, hp₁, he⟩ := h fuel (hp.next (by simp)) (by simp; omega) rfl
  rw [Parse.primary, Parse.reader_bind]
  simp only [hk, Token.Kind.expr?]
  rw [Parse.discard_advance_bind, bind_of_ok hrun, bind_of_ok (expectClosing_eq hp₁),
    Parse.spanFrom_bind]
  exact ⟨_, _, rfl, hp₁.next (by simp), (Expr.bare_withSpan _ _).trans he⟩

theorem ReadsExpr.calls (h : ReadsExpr e) (hl : e.level < callLevel) : ReadsPostfix e := by
  intro fuel p rest hp hfuel _
  rw [Expr.print_of_lt hl (Nat.le_refl _)] at hp hfuel
  simp only [List.length_append, List.length_cons, List.length_nil] at hfuel
  obtain ⟨e', p₁, hrun, hp₁, he⟩ := h.primary hp (by omega)
  exact ⟨fuel, e', p₁, bind_of_ok hrun, by omega, hp₁, he⟩

/-- Where a call may follow, an expression is printed as where a prefix operator may stand, unless
it begins with one itself. -/
theorem print_prefixLevel (hl : e.level ≠ prefixLevel) : e.print prefixLevel = e.print callLevel := by
  rcases Nat.lt_or_ge e.level prefixLevel with h | h
  · have hcall : e.level < callLevel := Nat.lt_succ_of_lt h
    rw [Expr.print_of_lt h (by decide), Expr.print_of_lt hcall (Nat.le_refl _)]
  · have hcall : callLevel ≤ e.level := Nat.lt_of_le_of_ne h (Ne.symm hl)
    rw [Expr.print_of_le h (by decide), Expr.print_of_le hcall (Nat.le_refl _)]

theorem ReadsPostfix.unary (h : ReadsPostfix e) (hl : e.level ≠ prefixLevel) : ReadsUnary e := by
  intro fuel p rest hp hfuel hb
  rw [print_prefixLevel hl] at hp hfuel
  obtain ⟨fuel, rfl⟩ := Nat.exists_eq_add_of_le' (by omega : 1 ≤ fuel)
  obtain ⟨fuel', e', p₁, hrun, hfuel', hp₁, he⟩ := h fuel hp (by omega) hb.not_else
  have hop : p.reader.current.kind.unaryOp? = none := by
    obtain ⟨k, ks, hks, -, hk⟩ := e.print_head callLevel
    rw [hks] at hp
    have hkind : p.reader.current.kind = k := hp.kind_cons
    rw [hkind, hk (Nat.le_refl _)]
  rw [Parse.unary, Parse.reader_bind]
  simp only [hop]
  rw [hrun, postfixes_stop e' (by omega) hp₁ hb.not_call hb.not_index]
  exact ⟨e', p₁, rfl, hp₁, he⟩

theorem ReadsUnary.operand (h : ReadsUnary e) {least : Nat} (hleast : least ≤ prefixLevel)
    (hl : e.level < least ∨ prefixLevel ≤ e.level) : ReadsOperand e least := by
  intro fuel p rest c hp hfuel hc hb
  have hprint : e.print least = e.print prefixLevel := by
    rcases hl with hl | hl
    · rw [Expr.print_of_lt hl (Nat.le_succ_of_le hleast),
        Expr.print_of_lt (Nat.lt_of_lt_of_le hl hleast) (by decide)]
    · rw [Expr.print_of_le (Nat.le_trans hleast hl) (Nat.le_succ_of_le hleast),
        Expr.print_of_le hl (by decide)]
  have htail : e.tail least = prefixLevel := by
    cases e with
    | binary op =>
      have hlt : op.level < least := hl.resolve_right (Nat.not_le.mpr op.level_lt_prefixLevel)
      exact if_pos hlt
    | _ => rfl
  rw [hprint] at hp hfuel
  obtain ⟨fuel, rfl⟩ := Nat.exists_eq_add_of_le' (by omega : 1 ≤ fuel)
  obtain ⟨e', p₁, hrun, hp₁, he⟩ := h fuel hp (by omega) (htail ▸ hb)
  refine ⟨fuel, e', p₁, ?_, ?_, hp₁, he⟩
  · rw [Parse.operand, bind_of_ok hrun]
  · simp only [List.length_append] at hfuel
    omega

theorem ReadsOperand.expr (h : ReadsOperand e assignLevel) : ReadsExpr e := by
  intro fuel p rest hp hfuel hends
  obtain ⟨fuel, rfl⟩ := Nat.exists_eq_add_of_le' (by omega : 1 ≤ fuel)
  obtain ⟨fuel', e', p₁, hrun, hfuel', hp₁, he⟩ :=
    h fuel hp (by omega) (Nat.le_refl _) (Token.Kind.bounds_of_ends hends _)
  have hpos : 1 ≤ fuel' := Nat.le_of_add_left_le hfuel'
  have hstop := operators_stop e' hpos hp₁ (Token.Kind.bounds_of_ends hends assignLevel)
  have hleft : Parse.operand fuel 1 p = (.ok e', p₁) := hrun.trans hstop
  refine ⟨e', p₁, ?_, hp₁, he⟩
  rw [Parse.expr, bind_of_ok hleft, Parse.eat_bind,
    if_neg (hp₁.not_atMark (Token.Kind.ne_of_ends hends rfl))]
  rfl

end Layers

namespace Reading

variable {e : Expr}

theorem of_expr (h : ReadsExpr e) (hl : e.level = assignLevel) : Reading e := by
  have hcalls : ReadsPostfix e := h.calls (hl ▸ by decide)
  have hunary : ReadsUnary e := hcalls.unary (hl ▸ by decide)
  constructor
  · exact h
  · intro least hleast htwo
    refine hunary.operand hleast (.inl (htwo.resolve_right ?_))
    exact hl ▸ by decide
  · exact hunary
  · exact hcalls

theorem of_operand (h : ∀ least ≤ e.level, ReadsOperand e least) (hl : e.level < prefixLevel) :
    Reading e := by
  have hexpr : ReadsExpr e := (h assignLevel e.assignLevel_le_level).expr
  have hcalls : ReadsPostfix e := hexpr.calls (Nat.lt_succ_of_lt hl)
  have hunary : ReadsUnary e := hcalls.unary (Nat.ne_of_lt hl)
  constructor
  · exact hexpr
  · intro least hleast _
    rcases Nat.lt_or_ge e.level least with hlt | hge
    · exact hunary.operand hleast (.inl hlt)
    · exact h least hge
  · exact hunary
  · exact hcalls

theorem of_unary (h : ReadsUnary e) (hl : e.level = prefixLevel) : Reading e := by
  have hoperand : ∀ least ≤ prefixLevel, ReadsOperand e least := fun _ hleast =>
    h.operand hleast (.inr (Nat.le_of_eq hl.symm))
  have hexpr : ReadsExpr e := (hoperand assignLevel (by decide)).expr
  constructor
  · exact hexpr
  · exact fun least hleast _ => hoperand least hleast
  · exact h
  · exact hexpr.calls (hl ▸ by decide)

theorem of_calls (h : ReadsPostfix e) (hl : callLevel ≤ e.level) : Reading e := by
  have hunary : ReadsUnary e := h.unary (Nat.ne_of_gt hl)
  have hoperand : ∀ least ≤ prefixLevel, ReadsOperand e least := fun _ hleast =>
    hunary.operand hleast (.inr (Nat.le_of_succ_le hl))
  constructor
  · exact (hoperand assignLevel (by decide)).expr
  · exact fun least hleast _ => hoperand least hleast
  · exact hunary
  · exact h

end Reading

end StackScript
