import StackScript.Proofs.Effect
import StackScript.Proofs.Token.Positions
import StackScript.Tree.Parser

/-! # Spans of trees

The parser takes spans from tokens and merges them. So whatever holds of the spans of the tokens, and
is kept by merging, holds of all spans in the tree and in the errors.
-/

namespace StackScript

structure Span.Closed (P : Span → Prop) : Prop where
  nowhere : P .nowhere
  merge : ∀ {a b : Span}, P a → P b → P (a.merge b)

theorem Span.Within.closed (source : String) : Span.Closed (·.Within source) := by
  have hzero : String.Pos.Raw.IsValid source ⟨0⟩ := (Token.Behind.start source).valid
  exact ⟨.of_valid (Nat.le_refl _) hzero hzero, .merge⟩

section Trees

variable (P : Span → Prop)

mutual

def Expr.Spans : Expr → Prop
  | .int _ s | .decimal _ s | .str _ s | .bool _ s | .null s | .ident _ s => P s
  | .unary _ e s => e.Spans ∧ P s
  | .binary _ l r s => l.Spans ∧ r.Spans ∧ P s
  | .cond c t e s => c.Spans ∧ t.Spans ∧ elseSpans e ∧ P s
  | .function _ ps b s => (∀ p ∈ ps, P p.span) ∧ b.Spans ∧ P s
  | .call f as s => f.Spans ∧ exprsSpans as ∧ P s
  | .array es s => exprsSpans es ∧ P s
  | .hash ps s => pairsSpans ps ∧ P s
  | .index t i s => t.Spans ∧ i.Spans ∧ P s
  | .assign t v s => t.Spans ∧ v.Spans ∧ P s

def exprsSpans : List Expr → Prop
  | [] => True
  | e :: es => e.Spans ∧ exprsSpans es

def pairsSpans : List (Expr × Expr) → Prop
  | [] => True
  | (k, v) :: ps => k.Spans ∧ v.Spans ∧ pairsSpans ps

def Block.Spans : Block → Prop
  | .mk body s => stmtsSpans body ∧ P s

def elseSpans : Option Block → Prop
  | none => True
  | some b => b.Spans

def clauseSpans : Option Expr → Prop
  | none => True
  | some e => e.Spans

def Stmt.Spans : Stmt → Prop
  | .bind name v s => P name.span ∧ v.Spans ∧ P s
  | .ret v s => clauseSpans v ∧ P s
  | .expr e s => e.Spans ∧ P s
  | .whileLoop c b s => c.Spans ∧ b.Spans ∧ P s
  | .forLoop i c u b s => initSpans i ∧ clauseSpans c ∧ clauseSpans u ∧ b.Spans ∧ P s
  | .breakLoop s | .continueLoop s => P s

def initSpans : Option Stmt → Prop
  | none => True
  | some s => s.Spans

def stmtsSpans : List Stmt → Prop
  | [] => True
  | s :: ss => s.Spans ∧ stmtsSpans ss

end

structure ParseError.Spans (e : ParseError) : Prop where
  span : P e.span
  opened : ∀ delimiter at', e.cause = .unclosedDelimiter delimiter at' → P at'

structure TokenReader.Spans (r : TokenReader) : Prop where
  tokens : ∀ t ∈ r.rest, P t.span
  previous : P r.previous

structure Parser.Spans (p : Parser) : Prop where
  reader : p.reader.Spans P
  errors : ∀ e ∈ p.errors, e.Spans P

end Trees

section Trees

variable {P : Span → Prop}

theorem Expr.Spans.span {e : Expr} (h : e.Spans P) : P e.span := by
  cases e <;> simp only [Expr.Spans] at h <;> first | exact h | exact h.2 | exact h.2.2 | exact h.2.2.2

theorem Expr.Spans.withSpan {e : Expr} {s : Span} (h : e.Spans P) (hs : P s) :
    (e.withSpan s).Spans P := by
  cases e <;> simp only [Expr.Spans, Expr.withSpan] at h ⊢ <;>
    first | exact hs | exact ⟨h.1, hs⟩ | exact ⟨h.1, h.2.1, hs⟩ | exact ⟨h.1, h.2.1, h.2.2.1, hs⟩

theorem Stmt.Spans.withSpan {st : Stmt} {s : Span} (h : st.Spans P) (hs : P s) :
    (st.withSpan s).Spans P := by
  cases st <;> simp only [Stmt.Spans, Stmt.withSpan] at h ⊢ <;>
    first
    | exact hs
    | exact ⟨h.1, hs⟩
    | exact ⟨h.1, h.2.1, hs⟩
    | exact ⟨h.1, h.2.1, h.2.2.1, h.2.2.2.1, hs⟩

theorem exprsSpans_nil : exprsSpans P [] := by simp [exprsSpans]

theorem pairsSpans_nil : pairsSpans P [] := by simp [pairsSpans]

theorem stmtsSpans_nil : stmtsSpans P [] := by simp [stmtsSpans]

theorem exprsSpans_iff {es : List Expr} : exprsSpans P es ↔ ∀ e ∈ es, e.Spans P := by
  induction es with
  | nil => simp [exprsSpans]
  | cons e es ih => simp [exprsSpans, ih]

theorem pairsSpans_iff {ps : List (Expr × Expr)} :
    pairsSpans P ps ↔ ∀ p ∈ ps, p.1.Spans P ∧ p.2.Spans P := by
  induction ps with
  | nil => simp [pairsSpans]
  | cons p ps ih => simp [pairsSpans, ih, and_assoc]

theorem stmtsSpans_iff {ss : List Stmt} : stmtsSpans P ss ↔ ∀ s ∈ ss, s.Spans P := by
  induction ss with
  | nil => simp [stmtsSpans]
  | cons s ss ih => simp [stmtsSpans, ih]

theorem exprsSpans_reverse {es : List Expr} (h : exprsSpans P es) : exprsSpans P es.reverse := by
  rw [exprsSpans_iff] at h ⊢
  simpa using h

theorem pairsSpans_reverse {ps : List (Expr × Expr)} (h : pairsSpans P ps) :
    pairsSpans P ps.reverse := by
  rw [pairsSpans_iff] at h ⊢
  simpa only [List.mem_reverse] using h

theorem stmtsSpans_reverse {ss : List Stmt} (h : stmtsSpans P ss) : stmtsSpans P ss.reverse := by
  rw [stmtsSpans_iff] at h ⊢
  simpa using h

theorem Token.Kind.expr?_spans {k : Token.Kind} {s : Span} {e : Expr} (h : k.expr? s = some e)
    (hs : P s) : e.Spans P := by
  unfold Token.Kind.expr? at h
  split at h
  case h_5 =>
    split at h <;> first | (cases h; exact hs) | cases h
  all_goals first | (cases h; exact hs) | cases h

namespace TokenReader.Spans

variable {r : TokenReader}

theorem current (hP : Span.Closed P) (h : r.Spans P) : P r.current.span := by
  unfold TokenReader.current
  split
  · next t ts hr => exact h.tokens t (by simp [hr])
  · exact hP.nowhere

theorem advance (h : r.Spans P) : r.advance.Spans P := by
  unfold TokenReader.advance
  split
  · next t ts hr =>
    split
    · exact h
    · exact ⟨fun u hu => h.tokens u (by simp [hr, hu]), h.tokens t (by simp [hr])⟩
  · exact h

theorem spanFrom (hP : Span.Closed P) (h : r.Spans P) {start : Span} (hs : P start) :
    P (r.spanFrom start) := hP.merge hs h.previous

theorem skipStatement {ts : List Token} {previous : Span} {position : Nat}
    (ht : ∀ t ∈ ts, P t.span) (hp : P previous) :
    (TokenReader.skipStatement ts previous position).Spans P := by
  fun_induction TokenReader.skipStatement ts previous position with
  | case1 => exact ⟨ht, hp⟩
  | case2 => exact ⟨ht, hp⟩
  | case3 => exact ⟨fun u hu => ht u (by simp [hu]), ht _ (by simp)⟩
  | case4 _ _ _ _ _ _ ih => exact ih (fun u hu => ht u (by simp [hu])) (ht _ (by simp))

theorem recover (h : r.Spans P) (start : Nat) : (r.recover start).Spans P := by
  unfold TokenReader.recover
  dsimp only
  split
  · exact skipStatement h.advance.tokens h.advance.previous
  · exact skipStatement h.tokens h.previous

end TokenReader.Spans

end Trees

namespace Parse

variable {P : Span → Prop} {α β : Type} {Q : α → Prop} {R : β → Prop} {x : Parse α}
  {f : α → Parse β}

/-- From spans in `P` the step gets results in `Q`, and errors with spans in `P`. -/
def Stays (P : Span → Prop) (Q : α → Prop) (x : Parse α) : Prop :=
  ∀ p : Parser, p.Spans P →
    Gives x p (fun a p' => Q a ∧ p'.Spans P) (fun e p' => e.Spans P ∧ p'.Spans P)

namespace Stays

theorem bind (h : Stays P Q x) (hf : ∀ a, Q a → Stays P R (f a)) : Stays P R (x >>= f) :=
  fun p hp => (h p hp).bind (fun _ _ he => he) fun a p' ha => hf a ha.1 p' ha.2

theorem pure {a : α} (h : Q a) : Stays P Q (Pure.pure a) := fun _ hp => ⟨h, hp⟩

theorem discard (h : Stays P Q x) : Stays P (fun _ => True) (Functor.discard x) :=
  fun p hp => ((h p hp).mono (fun _ _ ha => ⟨trivial, ha.2⟩) fun _ _ he => he).discard

theorem map {g : α → β} (h : Stays P Q x) (hg : ∀ a, Q a → R (g a)) : Stays P R (g <$> x) :=
  fun p hp => ((h p hp).map g).mono (fun _ _ ⟨a, hb, ha, hp'⟩ => ⟨hb ▸ hg a ha, hp'⟩) fun _ _ he => he

theorem ite {c : Prop} [Decidable c] {y : Parse α} (h : Stays P Q x) (h' : Stays P Q y) :
    Stays P Q (if c then x else y) := by
  split
  · exact h
  · exact h'

theorem observing (h : Stays P Q x) :
    Stays P (fun r => match r with | .ok a => Q a | .error e => e.Spans P) (Parse.observing x) := by
  intro p hp
  have hx := h p hp
  unfold Gives Parse.observing at *
  rcases hr : x p with ⟨e | a, p'⟩ <;> rw [hr] at hx <;> exact hx

end Stays

theorem reader_stays : Stays P (·.Spans P) reader := fun _ hp => ⟨hp.reader, hp⟩

theorem setReader_stays {r : TokenReader} (hr : r.Spans P) :
    Stays P (fun _ => True) (setReader r) := fun _ hp => ⟨trivial, hr, hp.errors⟩

theorem record_stays {e : ParseError} (he : e.Spans P) : Stays P (fun _ => True) (record e) := by
  refine fun p hp => ⟨trivial, hp.reader, fun e' he' => ?_⟩
  rcases Array.mem_push.mp he' with h | rfl
  · exact hp.errors e' h
  · exact he

section Steps

variable (hP : Span.Closed P)
include hP

theorem fail_stays {cause : ParseError.Cause}
    (hc : ∀ delimiter at', cause = .unclosedDelimiter delimiter at' → P at') :
    Stays P Q (fail cause) :=
  reader_stays.bind fun _ hr _ hp => ⟨⟨hr.current hP, hc⟩, hp⟩

theorem noExpression_stays : Stays P Q noExpression :=
  reader_stays.bind fun _ _ => fail_stays hP (by simp)

theorem advance_stays : Stays P (P ·.span) advance :=
  reader_stays.bind fun _ hr => (setReader_stays hr.advance).bind fun _ _ => .pure (hr.current hP)

omit hP in
theorem eat_stays (m : Mark) : Stays P (fun _ => True) (eat m) :=
  reader_stays.bind fun _ hr => .ite ((setReader_stays hr.advance).bind fun _ _ => .pure trivial)
    (.pure trivial)

omit hP in
theorem eatKeyword_stays (w : Keyword) : Stays P (fun _ => True) (eatKeyword w) :=
  reader_stays.bind fun _ hr => .ite ((setReader_stays hr.advance).bind fun _ _ => .pure trivial)
    (.pure trivial)

theorem expect_stays (m : Mark) : Stays P P (expect m) :=
  reader_stays.bind fun _ hr => .ite
    ((setReader_stays hr.advance).bind fun _ _ => .pure (hr.current hP)) (fail_stays hP (by simp))

theorem expectClosing_stays {opened : Span} (ho : P opened) (close delimiter : Mark) :
    Stays P (fun _ => True) (expectClosing close delimiter opened) := by
  refine reader_stays.bind fun r _ => .ite (fail_stays hP ?_) (expect_stays hP close).discard
  rintro _ _ hc
  cases hc
  exact ho

theorem expectIdent_stays : Stays P (P ·.span) expectIdent := by
  refine reader_stays.bind fun r hr => ?_
  dsimp only
  split
  · exact (advance_stays hP).discard.bind fun _ _ => .pure (hr.current hP)
  · exact fail_stays hP (by simp)

theorem spanFrom_stays {start : Span} (hs : P start) : Stays P P (spanFrom start) :=
  reader_stays.bind fun _ hr => .pure (hr.spanFrom hP hs)

theorem params_stays (fuel : Nat) {found : List Ident} (hf : ∀ i ∈ found, P i.span) :
    Stays P (fun is => ∀ i ∈ is, P i.span) (params fuel found) := by
  induction fuel generalizing found with
  | zero => exact noExpression_stays hP
  | succ fuel ih =>
    rw [params]
    refine reader_stays.bind fun r _ => .ite (.pure (by simpa using hf)) ?_
    refine (expectIdent_stays hP).bind fun name hname => ?_
    have hmore : ∀ i ∈ name :: found, P i.span := by
      intro i hi
      rcases List.mem_cons.mp hi with rfl | hi
      · exact hname
      · exact hf i hi
    exact (eat_stays .comma).bind fun _ _ => .ite (ih hmore)
      (.pure fun i hi => hmore i (List.mem_reverse.mp hi))

end Steps

/-- With this fuel every parser gives trees whose spans are in `P`. -/
structure Spanning (P : Span → Prop) (fuel : Nat) : Prop where
  expr : Stays P (Expr.Spans P) (expr fuel)
  operand : ∀ least, Stays P (Expr.Spans P) (operand fuel least)
  operators : ∀ least {left}, left.Spans P → Stays P (Expr.Spans P) (operators fuel least left)
  unary : Stays P (Expr.Spans P) (unary fuel)
  postfixes : ∀ {e}, e.Spans P → Stays P (Expr.Spans P) (postfixes fuel e)
  primary : Stays P (Expr.Spans P) (primary fuel)
  items : ∀ close delimiter {opened found}, P opened → exprsSpans P found →
    Stays P (exprsSpans P) (items fuel close delimiter opened found)
  pairs : ∀ {opened found}, P opened → pairsSpans P found →
    Stays P (pairsSpans P) (pairs fuel opened found)
  cond : Stays P (Expr.Spans P) (cond fuel)
  function : Stays P (Expr.Spans P) (function fuel)
  block : Stays P (Block.Spans P) (block fuel)
  statements : ∀ inBlock {found}, stmtsSpans P found →
    Stays P (stmtsSpans P) (statements fuel inBlock found)
  stmt : Stays P (Stmt.Spans P) (stmt fuel)
  simple : Stays P (Stmt.Spans P) (simple fuel)
  whileLoop : Stays P (Stmt.Spans P) (whileLoop fuel)
  forLoop : Stays P (Stmt.Spans P) (forLoop fuel)

namespace Spanning

section Cases

variable {fuel : Nat} (hP : Span.Closed P)
include hP

theorem zero : Spanning P 0 := by
  constructor <;> intros <;> exact noExpression_stays hP

variable (ih : Spanning P fuel)
include ih

theorem expr_succ : Stays P (Expr.Spans P) (Parse.expr (fuel + 1)) := by
  rw [Parse.expr]
  refine (ih.operand 1).bind fun left hl => (eat_stays _).bind fun _ _ => .ite ?_ (.pure hl)
  exact ih.expr.bind fun value hv => .pure ⟨hl, hv, hP.merge hl.span hv.span⟩

omit hP in
theorem operand_succ (least : Nat) : Stays P (Expr.Spans P) (Parse.operand (fuel + 1) least) := by
  rw [Parse.operand]
  exact ih.unary.bind fun _ he => ih.operators least he

theorem operators_succ (least : Nat) {left : Expr} (hl : left.Spans P) :
    Stays P (Expr.Spans P) (Parse.operators (fuel + 1) least left) := by
  rw [Parse.operators]
  refine reader_stays.bind fun r _ => ?_
  split
  · exact .pure hl
  · refine .ite (.pure hl) ((advance_stays hP).discard.bind fun _ _ => ?_)
    exact (ih.operand _).bind fun right hr =>
      ih.operators least ⟨hl, hr, hP.merge hl.span hr.span⟩

theorem unary_succ : Stays P (Expr.Spans P) (Parse.unary (fuel + 1)) := by
  rw [Parse.unary]
  refine reader_stays.bind fun r _ => ?_
  split
  · exact (advance_stays hP).bind fun _ ht => ih.unary.bind fun e he =>
      .pure ⟨he, hP.merge ht he.span⟩
  · exact ih.primary.bind fun _ he => ih.postfixes he

theorem postfixes_succ {e : Expr} (he : e.Spans P) :
    Stays P (Expr.Spans P) (Parse.postfixes (fuel + 1) e) := by
  rw [Parse.postfixes]
  refine reader_stays.bind fun r _ => ?_
  split
  · refine (advance_stays hP).bind fun _ ht => (ih.items _ _ ht exprsSpans_nil).bind fun args ha => ?_
    exact (spanFrom_stays hP he.span).bind fun _ hs => ih.postfixes ⟨he, ha, hs⟩
  · refine (advance_stays hP).bind fun _ ht => ih.expr.bind fun index hi => ?_
    exact (expectClosing_stays hP ht _ _).bind fun _ _ =>
      (spanFrom_stays hP he.span).bind fun _ hs => ih.postfixes ⟨he, hi, hs⟩
  · exact .pure he

theorem primary_succ : Stays P (Expr.Spans P) (Parse.primary (fuel + 1)) := by
  rw [Parse.primary]
  refine reader_stays.bind fun r hr => ?_
  have ht := hr.current hP
  dsimp only
  split
  · next e he =>
    exact (advance_stays hP).discard.bind fun _ _ => .pure (Token.Kind.expr?_spans he ht)
  · split
    · refine (advance_stays hP).discard.bind fun _ _ => ih.expr.bind fun inner hi => ?_
      exact (expectClosing_stays hP ht _ _).bind fun _ _ =>
        (spanFrom_stays hP ht).bind fun _ hs => .pure (hi.withSpan hs)
    · exact (advance_stays hP).discard.bind fun _ _ => (ih.items _ _ ht exprsSpans_nil).bind fun es hes =>
        (spanFrom_stays hP ht).bind fun _ hs => .pure ⟨hes, hs⟩
    · exact (advance_stays hP).discard.bind fun _ _ => (ih.pairs ht pairsSpans_nil).bind fun ps hps =>
        (spanFrom_stays hP ht).bind fun _ hs => .pure ⟨hps, hs⟩
    · exact ih.cond
    · exact ih.function
    · exact noExpression_stays hP

theorem items_succ (close delimiter : Mark) {opened : Span} {found : List Expr} (ho : P opened)
    (hf : exprsSpans P found) :
    Stays P (exprsSpans P) (Parse.items (fuel + 1) close delimiter opened found) := by
  rw [Parse.items]
  refine reader_stays.bind fun r _ => .ite ?_ ?_
  · exact (expectClosing_stays hP ho _ _).bind fun _ _ => .pure (exprsSpans_reverse hf)
  · refine ih.expr.bind fun e he => (eat_stays _).bind fun _ _ => .ite ?_ ?_
    · exact ih.items close delimiter ho ⟨he, hf⟩
    · exact (expectClosing_stays hP ho _ _).bind fun _ _ => .pure (exprsSpans_reverse ⟨he, hf⟩)

theorem pairs_succ {opened : Span} {found : List (Expr × Expr)} (ho : P opened)
    (hf : pairsSpans P found) : Stays P (pairsSpans P) (Parse.pairs (fuel + 1) opened found) := by
  rw [Parse.pairs]
  refine reader_stays.bind fun r _ => .ite ?_ ?_
  · exact (expectClosing_stays hP ho _ _).bind fun _ _ => .pure (pairsSpans_reverse hf)
  · refine ih.expr.bind fun key hk => (expect_stays hP _).discard.bind fun _ _ =>
      ih.expr.bind fun value hv => (eat_stays _).bind fun _ _ => .ite ?_ ?_
    · exact ih.pairs ho ⟨hk, hv, hf⟩
    · exact (expectClosing_stays hP ho _ _).bind fun _ _ => .pure (pairsSpans_reverse ⟨hk, hv, hf⟩)

theorem condition {f : Expr → Block → Parse α} (hf : ∀ c b, c.Spans P → b.Spans P → Stays P Q (f c b)) :
    Stays P Q (do
      let opened ← expect .openParen
      let condition ← Parse.expr fuel
      expectClosing .closeParen .openParen opened
      let body ← Parse.block fuel
      f condition body) :=
  (expect_stays hP _).bind fun _ ho => ih.expr.bind fun c hc =>
    (expectClosing_stays hP ho _ _).bind fun _ _ => ih.block.bind fun b hb => hf c b hc hb

theorem cond_succ : Stays P (Expr.Spans P) (Parse.cond (fuel + 1)) := by
  rw [Parse.cond]
  refine (advance_stays hP).bind fun start hs => condition hP ih fun c b hc hb => ?_
  refine (eatKeyword_stays _).bind fun _ _ => .ite ?_ ?_
  · refine reader_stays.bind fun r _ => .ite ?_ ?_
    · refine ih.cond.bind fun nested hn => (spanFrom_stays hP hs).bind fun _ hspan => ?_
      exact .pure ⟨hc, hb, ⟨⟨⟨hn, hn.span⟩, trivial⟩, hn.span⟩, hspan⟩
    · exact ih.block.bind fun alternative ha => (spanFrom_stays hP hs).bind fun _ hspan =>
        .pure ⟨hc, hb, ha, hspan⟩
  · exact (spanFrom_stays hP hs).bind fun _ hspan => .pure ⟨hc, hb, trivial, hspan⟩

theorem function_succ : Stays P (Expr.Spans P) (Parse.function (fuel + 1)) := by
  rw [Parse.function]
  refine (advance_stays hP).bind fun start hs => (expect_stays hP _).bind fun opened ho =>
    (params_stays hP fuel (by simp)).bind fun names hnames => ?_
  exact (expectClosing_stays hP ho _ _).bind fun _ _ => ih.block.bind fun body hb =>
    (spanFrom_stays hP hs).bind fun _ hspan => .pure ⟨hnames, hb, hspan⟩

theorem block_succ : Stays P (Block.Spans P) (Parse.block (fuel + 1)) := by
  rw [Parse.block]
  exact (expect_stays hP _).bind fun opened ho => (ih.statements true stmtsSpans_nil).bind fun body hb =>
    (expectClosing_stays hP ho _ _).bind fun _ _ => (spanFrom_stays hP ho).bind fun _ hspan =>
      .pure ⟨hb, hspan⟩

omit hP in
theorem statements_succ (inBlock : Bool) {found : List Stmt} (hf : stmtsSpans P found) :
    Stays P (stmtsSpans P) (Parse.statements (fuel + 1) inBlock found) := by
  rw [Parse.statements]
  refine reader_stays.bind fun r _ => .ite (.pure (stmtsSpans_reverse hf)) ?_
  refine (eat_stays _).bind fun _ _ => .ite (ih.statements inBlock hf) ?_
  refine ih.stmt.observing.bind fun result hresult => ?_
  cases result with
  | ok s => exact ih.statements inBlock ⟨hresult, hf⟩
  | error e =>
    exact (record_stays hresult).bind fun _ _ => reader_stays.bind fun _ hr =>
      (setReader_stays (hr.recover _)).bind fun _ _ => ih.statements inBlock hf

omit hP ih in
theorem clause {c : Prop} [Decidable c] {x : Parse α} (h : Stays P Q x) {R : Option α → Prop}
    {S : β → Prop} {k : Option α → Parse β} (hnone : R none) (hsome : ∀ a, Q a → R (some a))
    (hk : ∀ o, R o → Stays P S (k o)) :
    Stays P S (if c then Pure.pure none >>= k else some <$> x >>= k) :=
  .ite ((Stays.pure hnone).bind hk) ((h.map hsome).bind hk)

theorem stmt_succ : Stays P (Stmt.Spans P) (Parse.stmt (fuel + 1)) := by
  rw [Parse.stmt]
  refine reader_stays.bind fun r hr => ?_
  have hs := hr.current hP
  dsimp only
  split
  · exact ih.whileLoop
  · exact ih.forLoop
  · refine (advance_stays hP).discard.bind fun _ _ => reader_stays.bind fun _ _ =>
      clause ih.expr (R := clauseSpans P) trivial (fun _ he => he) fun value hv => ?_
    exact (eat_stays _).discard.bind fun _ _ => (spanFrom_stays hP hs).bind fun _ hspan =>
      .pure ⟨hv, hspan⟩
  · exact (advance_stays hP).discard.bind fun _ _ => (eat_stays _).discard.bind fun _ _ =>
      (spanFrom_stays hP hs).bind fun _ hspan => .pure hspan
  · exact (advance_stays hP).discard.bind fun _ _ => (eat_stays _).discard.bind fun _ _ =>
      (spanFrom_stays hP hs).bind fun _ hspan => .pure hspan
  · exact ih.simple.bind fun s hstmt => (eat_stays _).discard.bind fun _ _ =>
      (spanFrom_stays hP hs).bind fun _ hspan => .pure (hstmt.withSpan hspan)

theorem simple_succ : Stays P (Stmt.Spans P) (Parse.simple (fuel + 1)) := by
  rw [Parse.simple]
  refine reader_stays.bind fun r hr => (eatKeyword_stays _).bind fun _ _ => .ite ?_ ?_
  · exact (expectIdent_stays hP).bind fun name hname => (expect_stays hP _).discard.bind fun _ _ =>
      ih.expr.bind fun value hv => (spanFrom_stays hP (hr.current hP)).bind fun _ hspan =>
        .pure ⟨hname, hv, hspan⟩
  · exact ih.expr.bind fun value hv => (spanFrom_stays hP (hr.current hP)).bind fun _ hspan =>
      .pure ⟨hv, hspan⟩

theorem whileLoop_succ : Stays P (Stmt.Spans P) (Parse.whileLoop (fuel + 1)) := by
  rw [Parse.whileLoop]
  exact (advance_stays hP).bind fun start hs => condition hP ih fun c b hc hb =>
    (spanFrom_stays hP hs).bind fun _ hspan => .pure ⟨hc, hb, hspan⟩

theorem forLoop_succ : Stays P (Stmt.Spans P) (Parse.forLoop (fuel + 1)) := by
  rw [Parse.forLoop]
  refine (advance_stays hP).bind fun start hs => (expect_stays hP _).bind fun opened ho =>
    reader_stays.bind fun _ _ =>
      clause ih.simple (R := initSpans P) trivial (fun _ h => h) fun init hi => ?_
  refine (expect_stays hP _).discard.bind fun _ _ => reader_stays.bind fun _ _ =>
    clause ih.expr (R := clauseSpans P) trivial (fun _ h => h) fun c hc => ?_
  refine (expect_stays hP _).discard.bind fun _ _ => reader_stays.bind fun _ _ =>
    clause ih.expr (R := clauseSpans P) trivial (fun _ h => h) fun u hu => ?_
  exact (expectClosing_stays hP ho _ _).bind fun _ _ => ih.block.bind fun body hb =>
    (spanFrom_stays hP hs).bind fun _ hspan => .pure ⟨hi, hc, hu, hb, hspan⟩

end Cases

theorem all (hP : Span.Closed P) (fuel : Nat) : Spanning P fuel := by
  induction fuel with
  | zero => exact .zero hP
  | succ fuel ih =>
    exact {
      expr := expr_succ hP ih
      operand := operand_succ ih
      operators := operators_succ hP ih
      unary := unary_succ hP ih
      postfixes := postfixes_succ hP ih
      primary := primary_succ hP ih
      items := items_succ hP ih
      pairs := pairs_succ hP ih
      cond := cond_succ hP ih
      function := function_succ hP ih
      block := block_succ hP ih
      statements := statements_succ ih
      stmt := stmt_succ hP ih
      simple := simple_succ hP ih
      whileLoop := whileLoop_succ hP ih
      forLoop := forLoop_succ hP ih }

end Spanning

end Parse

/-- What holds of the spans of the tokens holds of those of the program and of the errors. -/
theorem parse_spans {P : Span → Prop} (hP : Span.Closed P) {tokens : List Token}
    (ht : ∀ t ∈ tokens, P t.span) :
    stmtsSpans P (parse tokens).program.statements ∧ ∀ e ∈ (parse tokens).errors, e.Spans P := by
  have hrun := (Parse.Spanning.all hP (10 * tokens.length + 10)).statements false stmtsSpans_nil
    ⟨⟨tokens, Span.nowhere, 0⟩, #[]⟩ ⟨⟨ht, hP.nowhere⟩, by simp⟩
  unfold Gives at hrun
  unfold parse ExceptT.run
  rcases hr : Parse.statements (10 * tokens.length + 10) false [] ⟨⟨tokens, Span.nowhere, 0⟩, #[]⟩ with
    ⟨e | body, p⟩ <;> rw [hr] at hrun
  · refine ⟨stmtsSpans_nil, fun e' he' => ?_⟩
    rcases Array.mem_push.mp he' with h | rfl
    · exact hrun.2.errors e' h
    · exact hrun.1
  · exact ⟨hrun.1, hrun.2.errors⟩

end StackScript
