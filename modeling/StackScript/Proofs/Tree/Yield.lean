import StackScript.Proofs.Token.Tiling
import StackScript.Proofs.Tree.Steps

/-! # The yield of a tree

Reading a tree from left to right gives back the tokens it was parsed from, but for those that only
group or separate: parentheses, braces, commas and semicolons.
-/

namespace StackScript

/-- Whether a token of this kind is represented in the tree. -/
def Token.Kind.kept : Token.Kind → Bool
  | .eof | .mark .openParen | .mark .closeParen | .mark .openBrace | .mark .closeBrace
  | .mark .comma | .mark .semicolon => false
  | _ => true

/-- What is left of the tokens without those that only group or separate. -/
def content (ts : List Token) : List Token.Kind := (ts.map (·.kind)).filter Token.Kind.kept

theorem content_append (ts us : List Token) : content (ts ++ us) = content ts ++ content us := by
  simp [content]

theorem BinaryOp.kept_mark (op : BinaryOp) : Token.Kind.kept (.mark op.mark) = true := by
  cases op <;> rfl

theorem UnaryOp.kept_mark (op : UnaryOp) : Token.Kind.kept (.mark op.mark) = true := by
  cases op <;> rfl

def Ident.yield (i : Ident) : Token.Kind := .ident i.name

mutual

/-- The tokens of an expression from left to right. -/
@[simp] def Expr.yield : Expr → List Token.Kind
  | .int n _ => [.int n]
  | .decimal x _ => [.decimal x]
  | .str s _ => [.str s]
  | .bool true _ => [.keyword .true]
  | .bool false _ => [.keyword .false]
  | .null _ => [.keyword .null]
  | .ident name _ => [.ident name]
  | .unary op e _ => .mark op.mark :: e.yield
  | .binary op left right _ => left.yield ++ .mark op.mark :: right.yield
  | .cond condition consequence alternative _ =>
    .keyword .cond :: condition.yield ++ consequence.yield ++ elseYield alternative
  | .function _ params body _ => .keyword .function :: params.map Ident.yield ++ body.yield
  | .call callee args _ => callee.yield ++ exprsYield args
  | .array items _ => .mark .openBracket :: exprsYield items ++ [.mark .closeBracket]
  | .hash pairs _ => pairsYield pairs
  | .index target index _ =>
    target.yield ++ .mark .openBracket :: index.yield ++ [.mark .closeBracket]
  | .assign target value _ => target.yield ++ .mark .assign :: value.yield

@[simp] def exprsYield : List Expr → List Token.Kind
  | [] => []
  | e :: es => e.yield ++ exprsYield es

@[simp] def pairsYield : List (Expr × Expr) → List Token.Kind
  | [] => []
  | (key, value) :: ps => key.yield ++ .mark .colon :: value.yield ++ pairsYield ps

@[simp] def Block.yield : Block → List Token.Kind
  | .mk body _ => stmtsYield body

@[simp] def elseYield : Option Block → List Token.Kind
  | none => []
  | some b => .keyword .otherwise :: b.yield

@[simp] def clauseYield : Option Expr → List Token.Kind
  | none => []
  | some e => e.yield

@[simp] def Stmt.yield : Stmt → List Token.Kind
  | .bind name value _ =>
    .keyword .letBinding :: name.yield :: .mark .assign :: value.yield
  | .ret value _ => .keyword .ret :: clauseYield value
  | .expr e _ => e.yield
  | .whileLoop condition body _ => .keyword .whileLoop :: condition.yield ++ body.yield
  | .forLoop init condition update body _ =>
    .keyword .forLoop :: initYield init ++ clauseYield condition ++ clauseYield update ++ body.yield
  | .breakLoop _ => [.keyword .breakLoop]
  | .continueLoop _ => [.keyword .continueLoop]

@[simp] def initYield : Option Stmt → List Token.Kind
  | none => []
  | some s => s.yield

@[simp] def stmtsYield : List Stmt → List Token.Kind
  | [] => []
  | s :: ss => s.yield ++ stmtsYield ss

end

def Program.yield (program : Program) : List Token.Kind := stmtsYield program.statements

theorem Token.Kind.yield_of_expr? {k : Token.Kind} {span : Span} {e : Expr}
    (h : k.expr? span = some e) : k.kept = true ∧ e.yield = [k] := by
  unfold expr? at h
  split at h
  case h_5 => split at h <;> cases h <;> exact ⟨rfl, rfl⟩
  case h_6 => cases h
  all_goals
    cases h
    exact ⟨rfl, rfl⟩

theorem Expr.yield_withSpan (e : Expr) (span : Span) : (e.withSpan span).yield = e.yield := by
  cases e with
  | bool b => cases b <;> rfl
  | _ => rfl

theorem Stmt.yield_withSpan (s : Stmt) (span : Span) : (s.withSpan span).yield = s.yield := by
  cases s <;> rfl

theorem exprsYield_append (es es' : List Expr) :
    exprsYield (es ++ es') = exprsYield es ++ exprsYield es' := by
  induction es with
  | nil => rfl
  | cons e es ih => simp [ih]

theorem pairsYield_append (ps ps' : List (Expr × Expr)) :
    pairsYield (ps ++ ps') = pairsYield ps ++ pairsYield ps' := by
  induction ps with
  | nil => rfl
  | cons pair ps ih => simp [ih]

theorem stmtsYield_append (ss ss' : List Stmt) :
    stmtsYield (ss ++ ss') = stmtsYield ss ++ stmtsYield ss' := by
  induction ss with
  | nil => rfl
  | cons s ss ih => simp [ih]

/-- From `p` to `p'` the parser has passed tokens of the content `y`. Nothing is said once an error
is recorded. -/
def Passes (y : List Token.Kind) (p p' : Parser) : Prop :=
  p'.errors = #[] →
    p.errors = #[] ∧ ∃ ts, p.reader.rest = ts ++ p'.reader.rest ∧ content ts = y

namespace Passes

variable {y z : List Token.Kind} {p q r : Parser} {k : Token.Kind}

theorem refl (p : Parser) : Passes [] p p := fun h => ⟨h, [], rfl, rfl⟩

theorem trans (h₁ : Passes y p q) (h₂ : Passes z q r) : Passes (y ++ z) p r := by
  intro h
  obtain ⟨hq, us, hus, rfl⟩ := h₂ h
  obtain ⟨hp, ts, hts, rfl⟩ := h₁ hq
  exact ⟨hp, ts ++ us, by rw [hts, hus, List.append_assoc], content_append ts us⟩

theorem congr (h : Passes y p q) (hz : y = z) : Passes z p q := hz ▸ h

theorem next (hk : p.kind = k) (he : k ≠ .eof) : Passes ([k].filter Token.Kind.kept) p p.next := by
  intro h
  constructor
  · exact h
  · unfold Parser.kind TokenReader.current at hk
    split at hk
    · next t ts hrest =>
      refine ⟨[t], ?_, by simp [content, hk]⟩
      rw [Parser.next, TokenReader.advance_cons hrest (hk ▸ he), hrest]
      rfl
    · exact absurd hk.symm he

theorem keep (hk : p.kind = k) (h : k.kept = true) : Passes [k] p p.next := by
  have he : k ≠ .eof := by
    rintro rfl
    cases h
  exact (next hk he).congr (by simp [h])

theorem drop (hk : p.kind = k) (h : k.kept = false) (he : k ≠ .eof) : Passes [] p p.next :=
  (next hk he).congr (by simp [h])

theorem optional {m : Mark} (h : Token.Kind.kept (.mark m) = false) :
    Passes [] p (if p.reader.atMark m = true then p.next else p) := by
  split
  · next hm => exact .drop (TokenReader.atMark_iff.mp hm) h (by simp)
  · exact .refl p

end Passes

namespace Parse

variable {p p' : Parser}

theorem expect_ok {m : Mark} {s : Span} (h : expect m p = (.ok s, p')) :
    p.kind = .mark m ∧ p' = p.next := by
  unfold expect at h
  rw [reader_bind] at h
  split at h
  · next hm =>
    cases h
    exact ⟨TokenReader.atMark_iff.mp hm, rfl⟩
  · cases h

theorem discard_expect_ok {m : Mark} {u : Unit} (h : discard (expect m) p = (.ok u, p')) :
    p.kind = .mark m ∧ p' = p.next := by
  rw [discard_apply] at h
  split at h
  · next he =>
    cases h
    exact expect_ok he
  · cases h

theorem expectClosing_ok {close delimiter : Mark} {opened : Span} {u : Unit}
    (h : expectClosing close delimiter opened p = (.ok u, p')) :
    p.kind = .mark close ∧ p' = p.next := by
  unfold expectClosing at h
  rw [reader_bind] at h
  split at h
  · cases h
  · exact discard_expect_ok h

theorem expectIdent_ok {name : Ident} (h : expectIdent p = (.ok name, p')) :
    p.kind = name.yield ∧ p' = p.next := by
  rw [expectIdent, reader_bind] at h
  generalize hk : p.reader.current.kind = k at h
  split at h
  · cases h
    exact ⟨hk, rfl⟩
  · cases h

theorem noExpression_ne_ok {α : Type} {a : α} : ¬ noExpression p = (.ok a, p') := fun h => by cases h

theorem passes_expect {m : Mark} {s : Span} (h : expect m p = (.ok s, p')) :
    Passes ([.mark m].filter Token.Kind.kept) p p' := by
  obtain ⟨hk, rfl⟩ := expect_ok h
  exact .next hk (by simp)

theorem passes_discard_expect {m : Mark} {u : Unit} (h : discard (expect m) p = (.ok u, p')) :
    Passes ([.mark m].filter Token.Kind.kept) p p' := by
  obtain ⟨hk, rfl⟩ := discard_expect_ok h
  exact .next hk (by simp)

theorem passes_expectClosing {close delimiter : Mark} {opened : Span} {u : Unit}
    (h : expectClosing close delimiter opened p = (.ok u, p')) :
    Passes ([.mark close].filter Token.Kind.kept) p p' := by
  obtain ⟨hk, rfl⟩ := expectClosing_ok h
  exact .next hk (by simp)

theorem passes_expectIdent {name : Ident} (h : expectIdent p = (.ok name, p')) :
    Passes [name.yield] p p' := by
  obtain ⟨hk, rfl⟩ := expectIdent_ok h
  exact .keep hk rfl

theorem passes_params {p₀ : Parser} {fuel : Nat} {found names : List Ident}
    (h : params fuel found p = (.ok names, p')) (h₀ : Passes (found.reverse.map Ident.yield) p₀ p) :
    Passes (names.map Ident.yield) p₀ p' := by
  induction fuel generalizing found p with
  | zero => exact absurd h noExpression_ne_ok
  | succ fuel ih =>
    rw [params, reader_bind] at h
    split at h
    · cases h
      exact h₀
    · obtain ⟨name, p₁, hname, h⟩ := bind_eq_ok.mp h
      have h₁ : Passes ((name :: found).reverse.map Ident.yield) p₀ p₁ :=
        (h₀.trans (passes_expectIdent hname)).congr (by simp)
      rw [eat_bind] at h
      split at h
      · next hm =>
        have h₂ : Passes [] p₁ p₁.next := .drop (TokenReader.atMark_iff.mp hm) rfl (by simp)
        exact ih h ((h₁.trans h₂).congr (List.append_nil _))
      · cases h
        exact h₁

/-- A round of the statement loop ends it, passes a semicolon, adds a statement or records an
error. -/
theorem statements_cases {fuel : Nat} {inBlock : Bool} {found ss : List Stmt}
    (h : statements (fuel + 1) inBlock found p = (.ok ss, p')) :
    (ss = found.reverse ∧ p' = p ∧ (inBlock = false → p.kind = .eof)) ∨
    (p.kind = .mark .semicolon ∧ statements fuel inBlock found p.next = (.ok ss, p')) ∨
    (∃ s p₁, stmt fuel p = (.ok s, p₁) ∧ statements fuel inBlock (s :: found) p₁ = (.ok ss, p')) ∨
    ∃ e r, ∃ es : Array ParseError, statements fuel inBlock found ⟨r, es.push e⟩ = (.ok ss, p') := by
  rw [statements, reader_bind] at h
  split at h
  · next hstop =>
    cases h
    refine .inl ⟨rfl, rfl, ?_⟩
    rintro rfl
    exact TokenReader.atEnd_iff.mp (by simpa using hstop)
  · rw [eat_bind] at h
    split at h
    · next hm => exact .inr (.inl ⟨TokenReader.atMark_iff.mp hm, h⟩)
    · rw [if_neg Bool.false_ne_true, observing_bind] at h
      rcases hs : stmt fuel p with ⟨e | s, p₁⟩ <;> simp only [hs] at h
      · exact .inr (.inr (.inr ⟨e, _, _, h⟩))
      · exact .inr (.inr (.inl ⟨s, p₁, rfl, h⟩))

/-- With this fuel every parser passes just the tokens of the tree it returns. A parser that extends
a tree, or a list, passes the tokens that extend the yield of what it was given. -/
structure Yielding (fuel : Nat) : Prop where
  expr : ∀ {p e p'}, Parse.expr fuel p = (.ok e, p') → Passes e.yield p p'
  operand : ∀ {least p e p'}, Parse.operand fuel least p = (.ok e, p') → Passes e.yield p p'
  operators : ∀ {least left p₀ p e p'}, Parse.operators fuel least left p = (.ok e, p') →
    Passes left.yield p₀ p → Passes e.yield p₀ p'
  unary : ∀ {p e p'}, Parse.unary fuel p = (.ok e, p') → Passes e.yield p p'
  postfixes : ∀ {left p₀ p e p'}, Parse.postfixes fuel left p = (.ok e, p') →
    Passes left.yield p₀ p → Passes e.yield p₀ p'
  primary : ∀ {p e p'}, Parse.primary fuel p = (.ok e, p') → Passes e.yield p p'
  items : ∀ {close delimiter opened found p₀ p es p'},
    Parse.items fuel close delimiter opened found p = (.ok es, p') →
      Passes (exprsYield found.reverse) p₀ p → Passes (exprsYield es ++ [.mark close].filter Token.Kind.kept) p₀ p'
  pairs : ∀ {opened found p₀ p ps p'}, Parse.pairs fuel opened found p = (.ok ps, p') →
    Passes (pairsYield found.reverse) p₀ p → Passes (pairsYield ps) p₀ p'
  cond : ∀ {p e p'}, p.kind = .keyword .cond → Parse.cond fuel p = (.ok e, p') →
    Passes e.yield p p'
  function : ∀ {p e p'}, p.kind = .keyword .function → Parse.function fuel p = (.ok e, p') →
    Passes e.yield p p'
  block : ∀ {p b p'}, Parse.block fuel p = (.ok b, p') → Passes b.yield p p'
  statements : ∀ {inBlock found p₀ p ss p'},
    Parse.statements fuel inBlock found p = (.ok ss, p') →
      Passes (stmtsYield found.reverse) p₀ p → Passes (stmtsYield ss) p₀ p'
  stmt : ∀ {p s p'}, Parse.stmt fuel p = (.ok s, p') → Passes s.yield p p'
  simple : ∀ {p s p'}, Parse.simple fuel p = (.ok s, p') → Passes s.yield p p'
  whileLoop : ∀ {p s p'}, p.kind = .keyword .whileLoop → Parse.whileLoop fuel p = (.ok s, p') →
    Passes s.yield p p'
  forLoop : ∀ {p s p'}, p.kind = .keyword .forLoop → Parse.forLoop fuel p = (.ok s, p') →
    Passes s.yield p p'

namespace Yielding

variable {fuel : Nat} {p₀ : Parser} {e left : Expr} {s : Stmt}

theorem zero : Yielding 0 := by
  constructor <;> intros <;> exact absurd ‹_› noExpression_ne_ok

theorem expr_succ (ih : Yielding fuel) (h : Parse.expr (fuel + 1) p = (.ok e, p')) :
    Passes e.yield p p' := by
  rw [Parse.expr] at h
  obtain ⟨left, p₁, hleft, h⟩ := bind_eq_ok.mp h
  have h₁ := ih.operand hleft
  rw [eat_bind] at h
  split at h
  · next hm =>
    have h₂ : Passes [.mark .assign] p₁ p₁.next := .keep (TokenReader.atMark_iff.mp hm) rfl
    obtain ⟨value, p₃, hvalue, h⟩ := bind_eq_ok.mp h
    cases h
    exact (h₁.trans (h₂.trans (ih.expr hvalue))).congr (by simp)
  · cases h
    exact h₁

theorem operand_succ (ih : Yielding fuel) {least : Nat}
    (h : Parse.operand (fuel + 1) least p = (.ok e, p')) : Passes e.yield p p' := by
  rw [Parse.operand] at h
  obtain ⟨left, p₁, hleft, h⟩ := bind_eq_ok.mp h
  exact ih.operators h (ih.unary hleft)

theorem operators_succ (ih : Yielding fuel) {least : Nat}
    (h : Parse.operators (fuel + 1) least left p = (.ok e, p')) (h₀ : Passes left.yield p₀ p) :
    Passes e.yield p₀ p' := by
  rw [Parse.operators, reader_bind] at h
  cases hop : p.reader.current.kind.binaryOp? with
  | none =>
    simp only [hop] at h
    cases h
    exact h₀
  | some op =>
    simp only [hop] at h
    split at h
    · cases h
      exact h₀
    · have h₁ : Passes [.mark op.mark] p p.next :=
        .keep (Token.Kind.binaryOp?_eq_some.mp hop) op.kept_mark
      rw [discard_advance_bind] at h
      obtain ⟨right, p₂, hright, h⟩ := bind_eq_ok.mp h
      refine ih.operators h ?_
      exact (h₀.trans (h₁.trans (ih.operand hright))).congr (by simp)

theorem unary_succ (ih : Yielding fuel) (h : Parse.unary (fuel + 1) p = (.ok e, p')) :
    Passes e.yield p p' := by
  rw [Parse.unary, reader_bind] at h
  cases hop : p.reader.current.kind.unaryOp? with
  | none =>
    simp only [hop] at h
    obtain ⟨left, p₁, hleft, h⟩ := bind_eq_ok.mp h
    exact ih.postfixes h (ih.primary hleft)
  | some op =>
    simp only [hop] at h
    have h₁ : Passes [.mark op.mark] p p.next :=
      .keep (Token.Kind.unaryOp?_eq_some.mp hop) op.kept_mark
    rw [advance_bind] at h
    obtain ⟨inner, p₂, hinner, h⟩ := bind_eq_ok.mp h
    cases h
    exact (h₁.trans (ih.unary hinner)).congr (by simp)

theorem postfixes_succ (ih : Yielding fuel)
    (h : Parse.postfixes (fuel + 1) left p = (.ok e, p')) (h₀ : Passes left.yield p₀ p) :
    Passes e.yield p₀ p' := by
  rw [Parse.postfixes, reader_bind] at h
  generalize hk : p.reader.current.kind = k at h
  split at h
  · -- a call
    have h₁ : Passes [] p p.next := .drop hk rfl (by simp)
    rw [advance_bind] at h
    obtain ⟨args, p₂, hargs, h⟩ := bind_eq_ok.mp h
    refine ih.postfixes h ?_
    exact (h₀.trans (ih.items hargs h₁)).congr (by simp [Token.Kind.kept])
  · -- an index
    have h₁ : Passes [.mark .openBracket] p p.next := .keep hk rfl
    rw [advance_bind] at h
    obtain ⟨index, p₂, hindex, h⟩ := bind_eq_ok.mp h
    obtain ⟨_, p₃, hclose, h⟩ := bind_eq_ok.mp h
    refine ih.postfixes h ?_
    exact (h₀.trans (h₁.trans ((ih.expr hindex).trans (passes_expectClosing hclose)))).congr
      (by simp [Token.Kind.kept])
  · cases h
    exact h₀

theorem primary_succ (ih : Yielding fuel) (h : Parse.primary (fuel + 1) p = (.ok e, p')) :
    Passes e.yield p p' := by
  rw [Parse.primary, reader_bind] at h
  cases he : p.reader.current.kind.expr? p.reader.current.span with
  | some e₁ =>
    simp only [he] at h
    cases h
    obtain ⟨hkept, hyield⟩ := Token.Kind.yield_of_expr? he
    exact hyield ▸ .keep rfl hkept
  | none =>
    simp only [he] at h
    generalize hk : p.reader.current.kind = k at h
    split at h
    · have h₁ : Passes [] p p.next := .drop hk rfl (by simp)
      rw [discard_advance_bind] at h
      obtain ⟨inner, p₂, hinner, h⟩ := bind_eq_ok.mp h
      obtain ⟨_, p₃, hclose, h⟩ := bind_eq_ok.mp h
      cases h
      exact (h₁.trans ((ih.expr hinner).trans (passes_expectClosing hclose))).congr
        (by simp [Expr.yield_withSpan, Token.Kind.kept])
    · have h₁ : Passes [.mark .openBracket] p p.next := .keep hk rfl
      rw [discard_advance_bind] at h
      obtain ⟨es, p₂, hes, h⟩ := bind_eq_ok.mp h
      cases h
      exact (h₁.trans (ih.items hes (.refl _))).congr (by simp [Token.Kind.kept])
    · have h₁ : Passes [] p p.next := .drop hk rfl (by simp)
      rw [discard_advance_bind] at h
      obtain ⟨ps, p₂, hps, h⟩ := bind_eq_ok.mp h
      cases h
      exact (h₁.trans (ih.pairs hps (.refl _))).congr (by simp)
    · exact ih.cond hk h
    · exact ih.function hk h
    · exact absurd h noExpression_ne_ok

theorem items_succ (ih : Yielding fuel) {close delimiter : Mark} {opened : Span}
    {found es : List Expr}
    (h : Parse.items (fuel + 1) close delimiter opened found p = (.ok es, p'))
    (h₀ : Passes (exprsYield found.reverse) p₀ p) :
    Passes (exprsYield es ++ [.mark close].filter Token.Kind.kept) p₀ p' := by
  rw [Parse.items, reader_bind] at h
  split at h
  · obtain ⟨_, p₁, hclose, h⟩ := bind_eq_ok.mp h
    cases h
    exact h₀.trans (passes_expectClosing hclose)
  · obtain ⟨e, p₁, he, h⟩ := bind_eq_ok.mp h
    have h₁ : Passes (exprsYield (e :: found).reverse) p₀ p₁ :=
      (h₀.trans (ih.expr he)).congr (by simp [exprsYield_append])
    rw [eat_bind] at h
    split at h
    · next hm =>
      have h₂ : Passes [] p₁ p₁.next := .drop (TokenReader.atMark_iff.mp hm) rfl (by simp)
      exact ih.items h ((h₁.trans h₂).congr (List.append_nil _))
    · obtain ⟨_, p₂, hclose, h⟩ := bind_eq_ok.mp h
      cases h
      exact h₁.trans (passes_expectClosing hclose)

theorem pairs_succ (ih : Yielding fuel) {opened : Span} {found ps : List (Expr × Expr)}
    (h : Parse.pairs (fuel + 1) opened found p = (.ok ps, p'))
    (h₀ : Passes (pairsYield found.reverse) p₀ p) : Passes (pairsYield ps) p₀ p' := by
  rw [Parse.pairs, reader_bind] at h
  split at h
  · obtain ⟨_, p₁, hclose, h⟩ := bind_eq_ok.mp h
    cases h
    exact (h₀.trans (passes_expectClosing hclose)).congr (by simp [Token.Kind.kept])
  · obtain ⟨key, p₁, hkey, h⟩ := bind_eq_ok.mp h
    obtain ⟨_, p₂, hcolon, h⟩ := bind_eq_ok.mp h
    obtain ⟨value, p₃, hvalue, h⟩ := bind_eq_ok.mp h
    have h₂ : Passes [.mark .colon] p₁ p₂ := passes_discard_expect hcolon
    have hpair := (ih.expr hkey).trans (h₂.trans (ih.expr hvalue))
    have h₃ : Passes (pairsYield ((key, value) :: found).reverse) p₀ p₃ :=
      (h₀.trans hpair).congr (by simp [pairsYield_append])
    rw [eat_bind] at h
    split at h
    · next hm =>
      have h₄ : Passes [] p₃ p₃.next := .drop (TokenReader.atMark_iff.mp hm) rfl (by simp)
      exact ih.pairs h ((h₃.trans h₄).congr (List.append_nil _))
    · obtain ⟨_, p₄, hclose, h⟩ := bind_eq_ok.mp h
      cases h
      exact (h₃.trans (passes_expectClosing hclose)).congr (by simp [Token.Kind.kept])

theorem condition {opened opened' : Span} {c : Expr} {u : Unit} (ih : Yielding fuel)
    {p₁ p₂ p₃ : Parser} (hopen : expect .openParen p = (.ok opened, p₁))
    (hc : Parse.expr fuel p₁ = (.ok c, p₂))
    (hclose : expectClosing .closeParen .openParen opened' p₂ = (.ok u, p₃)) :
    Passes c.yield p p₃ :=
  ((passes_expect hopen).trans ((ih.expr hc).trans (passes_expectClosing hclose))).congr
    (by simp [Token.Kind.kept])

theorem cond_succ (ih : Yielding fuel) (hk : p.kind = .keyword .cond)
    (h : Parse.cond (fuel + 1) p = (.ok e, p')) : Passes e.yield p p' := by
  rw [Parse.cond, advance_bind] at h
  obtain ⟨opened, p₂, hopen, h⟩ := bind_eq_ok.mp h
  obtain ⟨c, p₃, hc, h⟩ := bind_eq_ok.mp h
  obtain ⟨_, p₄, hclose, h⟩ := bind_eq_ok.mp h
  obtain ⟨consequence, p₅, hb, h⟩ := bind_eq_ok.mp h
  have h₁ : Passes [.keyword .cond] p p.next := .keep hk rfl
  have h₅ := h₁.trans ((ih.condition hopen hc hclose).trans (ih.block hb))
  rw [eatKeyword_bind] at h
  split at h
  · next hw =>
    have h₆ : Passes [.keyword .otherwise] p₅ p₅.next :=
      .keep (TokenReader.atKeyword_iff.mp hw) rfl
    rw [if_pos rfl, reader_bind] at h
    split at h
    · next hw =>
      obtain ⟨nested, p₇, hnested, h⟩ := bind_eq_ok.mp h
      cases h
      have h₇ := ih.cond (TokenReader.atKeyword_iff.mp hw) hnested
      exact (h₅.trans (h₆.trans h₇)).congr
        (by simp)
    · obtain ⟨alternative, p₇, halt, h⟩ := bind_eq_ok.mp h
      cases h
      exact (h₅.trans (h₆.trans (ih.block halt))).congr (by simp)
  · cases h
    exact h₅.congr (by simp)

theorem function_succ (ih : Yielding fuel) (hk : p.kind = .keyword .function)
    (h : Parse.function (fuel + 1) p = (.ok e, p')) : Passes e.yield p p' := by
  rw [Parse.function, advance_bind] at h
  obtain ⟨opened, p₂, hopen, h⟩ := bind_eq_ok.mp h
  obtain ⟨names, p₃, hnames, h⟩ := bind_eq_ok.mp h
  obtain ⟨_, p₄, hclose, h⟩ := bind_eq_ok.mp h
  obtain ⟨body, p₅, hbody, h⟩ := bind_eq_ok.mp h
  cases h
  have h₁ : Passes [.keyword .function] p p.next := .keep hk rfl
  have h₃ : Passes (names.map Ident.yield) p₂ p₃ := passes_params hnames (.refl _)
  have hparams := (passes_expect hopen).trans (h₃.trans (passes_expectClosing hclose))
  exact (h₁.trans (hparams.trans (ih.block hbody))).congr
    (by simp [Token.Kind.kept])

theorem block_succ (ih : Yielding fuel) {b : Block}
    (h : Parse.block (fuel + 1) p = (.ok b, p')) : Passes b.yield p p' := by
  rw [Parse.block] at h
  obtain ⟨opened, p₁, hopen, h⟩ := bind_eq_ok.mp h
  obtain ⟨body, p₂, hbody, h⟩ := bind_eq_ok.mp h
  obtain ⟨_, p₃, hclose, h⟩ := bind_eq_ok.mp h
  cases h
  have h₂ : Passes (stmtsYield body) p₁ p₂ := ih.statements hbody (.refl _)
  exact ((passes_expect hopen).trans (h₂.trans (passes_expectClosing hclose))).congr
    (by simp [Token.Kind.kept])

theorem statements_succ (ih : Yielding fuel) {inBlock : Bool} {found ss : List Stmt}
    (h : Parse.statements (fuel + 1) inBlock found p = (.ok ss, p'))
    (h₀ : Passes (stmtsYield found.reverse) p₀ p) :
    Passes (stmtsYield ss) p₀ p' := by
  obtain ⟨rfl, rfl, -⟩ | ⟨hk, h⟩ | ⟨s, p₁, hs, h⟩ | ⟨e, r, es, h⟩ := statements_cases h
  · exact h₀
  · have h₁ : Passes [] p p.next := .drop hk rfl (by simp)
    exact ih.statements h ((h₀.trans h₁).congr (List.append_nil _))
  · refine ih.statements h ?_
    exact (h₀.trans (ih.stmt hs)).congr (by simp [stmtsYield_append])
  · -- an error is recorded, so nothing is promised
    refine ih.statements h fun hempty => ?_
    simp at hempty

theorem clause {α β : Type} {y : α → List Token.Kind} {x : Parse α} {f : Option α → Parse β}
    {skip : Prop} [Decidable skip] {b : β}
    (h : (if skip then pure none >>= f else some <$> x >>= f) p = (.ok b, p'))
    (hx : ∀ {a p₁}, x p = (.ok a, p₁) → Passes (y a) p p₁) :
    ∃ o p₁, Passes (o.elim [] y) p p₁ ∧ f o p₁ = (.ok b, p') := by
  split at h
  · exact ⟨none, p, .refl p, h⟩
  · obtain ⟨o, p₁, ho, h⟩ := bind_eq_ok.mp h
    rw [map_apply] at ho
    split at ho
    · next a _ ha =>
      cases ho
      exact ⟨some a, p₁, hx ha, h⟩
    · cases ho

theorem stmt_succ (ih : Yielding fuel) (h : Parse.stmt (fuel + 1) p = (.ok s, p')) :
    Passes s.yield p p' := by
  rw [Parse.stmt, reader_bind] at h
  generalize hk : p.reader.current.kind = k at h
  split at h
  · exact ih.whileLoop hk h
  · exact ih.forLoop hk h
  · have h₁ : Passes [.keyword .ret] p p.next := .keep hk rfl
    rw [discard_advance_bind, reader_bind] at h
    obtain ⟨value, p₂, h₂, h⟩ := clause h ih.expr
    simp only [discard_eat_bind] at h
    cases h
    exact (h₁.trans (h₂.trans (.optional rfl))).congr
      (by cases value <;> simp)
  · rw [discard_advance_bind, discard_eat_bind] at h
    cases h
    exact Passes.trans (.keep hk rfl) (.optional rfl)
  · rw [discard_advance_bind, discard_eat_bind] at h
    cases h
    exact Passes.trans (.keep hk rfl) (.optional rfl)
  · obtain ⟨inner, p₁, hinner, h⟩ := bind_eq_ok.mp h
    rw [discard_eat_bind] at h
    cases h
    exact ((ih.simple hinner).trans (.optional rfl)).congr (by simp [Stmt.yield_withSpan])

theorem simple_succ (ih : Yielding fuel) (h : Parse.simple (fuel + 1) p = (.ok s, p')) :
    Passes s.yield p p' := by
  rw [Parse.simple, reader_bind, eatKeyword_bind] at h
  split at h
  · next hw =>
    obtain ⟨name, p₂, hname, h⟩ := bind_eq_ok.mp h
    obtain ⟨_, p₃, hassign, h⟩ := bind_eq_ok.mp h
    obtain ⟨value, p₄, hvalue, h⟩ := bind_eq_ok.mp h
    cases h
    have h₁ : Passes [.keyword .letBinding] p p.next := .keep (TokenReader.atKeyword_iff.mp hw) rfl
    have h₃ : Passes [.mark .assign] p₂ p₃ := passes_discard_expect hassign
    exact (h₁.trans ((passes_expectIdent hname).trans (h₃.trans (ih.expr hvalue)))).congr
      (by simp)
  · obtain ⟨value, p₁, hvalue, h⟩ := bind_eq_ok.mp h
    cases h
    exact ih.expr hvalue

theorem whileLoop_succ (ih : Yielding fuel) (hk : p.kind = .keyword .whileLoop)
    (h : Parse.whileLoop (fuel + 1) p = (.ok s, p')) : Passes s.yield p p' := by
  rw [Parse.whileLoop, advance_bind] at h
  obtain ⟨opened, p₂, hopen, h⟩ := bind_eq_ok.mp h
  obtain ⟨c, p₃, hc, h⟩ := bind_eq_ok.mp h
  obtain ⟨_, p₄, hclose, h⟩ := bind_eq_ok.mp h
  obtain ⟨body, p₅, hb, h⟩ := bind_eq_ok.mp h
  cases h
  have h₁ : Passes [.keyword .whileLoop] p p.next := .keep hk rfl
  exact (h₁.trans ((ih.condition hopen hc hclose).trans (ih.block hb))).congr
    (by simp)

theorem forLoop_succ (ih : Yielding fuel) (hk : p.kind = .keyword .forLoop)
    (h : Parse.forLoop (fuel + 1) p = (.ok s, p')) : Passes s.yield p p' := by
  rw [Parse.forLoop, advance_bind] at h
  have h₁ : Passes [.keyword .forLoop] p p.next := .keep hk rfl
  obtain ⟨opened, p₂, hopen, h⟩ := bind_eq_ok.mp h
  rw [reader_bind] at h
  obtain ⟨init, p₃, hinit, h⟩ := clause h ih.simple
  obtain ⟨_, p₄, hsemi, h⟩ := bind_eq_ok.mp h
  rw [reader_bind] at h
  obtain ⟨c, p₅, hc, h⟩ := clause h ih.expr
  obtain ⟨_, p₆, hsemi', h⟩ := bind_eq_ok.mp h
  rw [reader_bind] at h
  obtain ⟨update, p₇, hupdate, h⟩ := clause h ih.expr
  obtain ⟨_, p₈, hclose, h⟩ := bind_eq_ok.mp h
  obtain ⟨body, p₉, hb, h⟩ := bind_eq_ok.mp h
  cases h
  have h₄ := (passes_expect hopen).trans (hinit.trans (passes_discard_expect hsemi))
  have h₆ := hc.trans (passes_discard_expect hsemi')
  have h₈ := hupdate.trans (passes_expectClosing hclose)
  exact (h₁.trans (h₄.trans (h₆.trans (h₈.trans (ih.block hb))))).congr
    (by cases init <;> cases c <;> cases update <;>
      simp [Token.Kind.kept])

end Yielding

theorem yielding (fuel : Nat) : Yielding fuel := by
  induction fuel with
  | zero => exact .zero
  | succ fuel ih =>
    constructor
    · exact ih.expr_succ
    · exact ih.operand_succ
    · exact ih.operators_succ
    · exact ih.unary_succ
    · exact ih.postfixes_succ
    · exact ih.primary_succ
    · exact ih.items_succ
    · exact ih.pairs_succ
    · exact ih.cond_succ
    · exact ih.function_succ
    · exact ih.block_succ
    · exact ih.statements_succ
    · exact ih.stmt_succ
    · exact ih.simple_succ
    · exact ih.whileLoop_succ
    · exact ih.forLoop_succ

theorem statements_atEnd {fuel : Nat} {found ss : List Stmt}
    (h : statements fuel false found p = (.ok ss, p')) : p'.kind = .eof := by
  induction fuel generalizing found p with
  | zero => exact absurd h noExpression_ne_ok
  | succ fuel ih =>
    obtain ⟨-, rfl, hend⟩ | ⟨-, h⟩ | ⟨s, p₁, -, h⟩ | ⟨e, r, es, h⟩ := statements_cases h
    · exact hend rfl
    all_goals exact ih h

end Parse

namespace Token

theorem Ended.content_rest {us : List Token} {r : TokenReader} (h : Ended (us ++ r.rest))
    (hr : r.current.kind = .eof) : content r.rest = [] := by
  obtain ⟨body, stop, hts, hstop, hbody⟩ := h
  obtain ⟨vs, rfl, hrest⟩ | ⟨vs, rfl, hrest⟩ := List.append_eq_append_iff.mp hts
  · rw [hrest]
    cases vs with
    | nil => simp [content, hstop, Kind.kept]
    | cons v vs =>
      have hv : r.current = v := by simp [TokenReader.current, hrest]
      exact absurd (hv ▸ hr) (hbody v (by simp))
  · have hempty : content [stop] = [] := by simp [content, hstop, Kind.kept]
    rw [hrest, content_append] at hempty
    exact (List.append_eq_nil_iff.mp hempty).2

end Token

theorem parse_ok {tokens : List Token} (h : (parse tokens).errors = #[]) :
    ∃ fuel p', Parse.statements fuel false [] ⟨⟨tokens, Span.nowhere, 0⟩, #[]⟩ =
      (.ok (parse tokens).program.statements, p') ∧ p'.errors = #[] := by
  unfold parse at h ⊢
  split at h
  · next body p' hrun =>
    exact ⟨_, p', hrun, h⟩
  · simp at h

/-- A source that parses without errors is, but for what groups and separates, the yield of its program: no
token is lost, none is invented and none is moved. -/
theorem content_lex_eq_yield (source : String)
    (h : (parse (lex source).tokens.toList).errors = #[]) :
    content (lex source).tokens.toList = (parse (lex source).tokens.toList).program.yield := by
  obtain ⟨fuel, p', hrun, hp'⟩ := parse_ok h
  obtain ⟨-, ts, hts, hyield⟩ := (Parse.yielding fuel).statements hrun (.refl _) hp'
  change (lex source).tokens.toList = ts ++ p'.reader.rest at hts
  have hended : Token.Ended (ts ++ p'.reader.rest) := hts ▸ Token.lex_ended source
  have hrest := hended.content_rest (Parse.statements_atEnd hrun)
  calc content (lex source).tokens.toList
      = content (ts ++ p'.reader.rest) := congrArg content hts
    _ = content ts := by rw [content_append, hrest, List.append_nil]
    _ = (parse (lex source).tokens.toList).program.yield := hyield

/-- A condition in parentheses, a trailing comma, a call followed by an index and an optional semicolon. -/
theorem content_eq_yield_conditional :
    (parse (lex "if(x)\x7bf(y,)[0];\x7d").tokens.toList).errors = #[] ∧
    content (lex "if(x)\x7bf(y,)[0];\x7d").tokens.toList =
      (parse (lex "if(x)\x7bf(y,)[0];\x7d").tokens.toList).program.yield := by
  have h : (parse (lex "if(x)\x7bf(y,)[0];\x7d").tokens.toList).errors = #[] :=
    Array.eq_empty_of_size_eq_zero (by decide +kernel)
  exact ⟨h, content_lex_eq_yield _ h⟩

end StackScript
