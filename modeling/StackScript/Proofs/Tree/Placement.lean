import StackScript.Proofs.Tree.Nodes

/-! # Where the parser puts nodes

Every parser goes on through the tokens, and the tree it gives covers just the tokens it has passed.
One step is proved for every parser, and all of them by induction on the fuel.
-/

namespace StackScript

section Spans

variable {ts : List Token} {p : Parser} {i a : Nat}

namespace Parser.Placed

theorem current_span (hp : p.Placed ts) :
    p.reader.current.span = tokensSpan ts p.position (p.position + 1) := hp.span

theorem spanFrom (hts : Token.Stream ts) (hp : p.Placed ts) (hi : i < p.position)
    (ha : a ≤ p.position) : p.reader.spanFrom (tokensSpan ts i a) = tokensSpan ts i p.position := by
  have hprevious : p.reader.previous = tokensSpan ts (p.position - 1) p.position :=
    hp.previous (Nat.zero_lt_of_lt hi)
  rw [TokenReader.spanFrom, hprevious]
  exact hts.merge_tokensSpan (by omega) (by omega) ha hp.lt.le

theorem covers {n : Node} {start : Span} (hts : Token.Stream ts) (hp : p.Placed ts)
    (hstart : start = tokensSpan ts i a) (hi : i < p.position) (ha : a ≤ p.position)
    (hspan : n.span = p.reader.spanFrom start) (hchildren : Lined ts n.children i p.position) :
    Node.Stands ts n i p.position :=
  .mk hi hp.lt (by rw [hspan, hstart, hp.spanFrom hts hi ha]) hchildren

end Parser.Placed

theorem Expr.children_withSpan (e : Expr) (s : Span) : (e.withSpan s).children = e.children := by
  cases e <;> rfl

theorem Expr.span_withSpan (e : Expr) (s : Span) : (e.withSpan s).span = s := by
  cases e <;> rfl

theorem Stmt.children_withSpan (st : Stmt) (s : Span) : (st.withSpan s).children = st.children := by
  cases st <;> rfl

theorem Stmt.span_withSpan (st : Stmt) (s : Span) : (st.withSpan s).span = s := by
  cases st <;> rfl

theorem Token.Kind.expr?_leaf {k : Token.Kind} {s : Span} {e : Expr} (h : k.expr? s = some e) :
    e.span = s ∧ e.children = [] ∧ k ≠ .eof := by
  unfold Token.Kind.expr? at h
  split at h
  case h_5 => split at h <;> cases h <;> exact ⟨rfl, rfl, nofun⟩
  case h_6 => cases h
  all_goals
    cases h
    exact ⟨rfl, rfl, nofun⟩

end Spans

namespace Parse

variable {ts : List Token} {p : Parser} {i : Nat}

theorem goes_params (hts : Token.Stream ts) (fuel : Nat) {found : List Ident} (hp : p.Placed ts)
    (hfound : Lined ts (found.reverse.map .ident) i p.position) :
    Goes ts 1 (params fuel found) p fun names j => Lined ts (names.map .ident) i j := by
  induction fuel generalizing found p with
  | zero => exact .noExpression hp
  | succ fuel ih =>
    rw [params]
    refine .reading ?_
    split
    · exact .pure hp hfound
    · refine .expectIdent hts hp fun name hq hposition => ?_
      have hname : Node.Stands ts (.ident ⟨name, p.reader.current.span⟩) p.position p.next.position :=
        .mk (by omega) hq.lt (hposition ▸ hp.current_span) (.nil (by omega))
      have hmore : Lined ts ((⟨name, p.reader.current.span⟩ :: found).reverse.map Node.ident) i
          p.next.position := by
        rw [List.reverse_cons, List.map_append]
        exact hfound.append (hname.lined (Nat.le_refl _) (Nat.le_refl _))
      refine .eat hts hq (fun hr hcomma => ?_) (.pure hq hmore)
      exact ih hr (hmore.mono (Nat.le_refl _) (by omega))

/-- With this fuel the tree that a parser gives stands where the parser has passed tokens. A parser
that extends a tree, or a list, extends it up to where it stops. -/
structure Placing (ts : List Token) (fuel : Nat) : Prop where
  expr : ∀ {p}, p.Placed ts →
    Goes ts 1 (Parse.expr fuel) p fun e j => Node.Stands ts (.expr e) p.position j
  operand : ∀ least {p}, p.Placed ts →
    Goes ts 1 (Parse.operand fuel least) p fun e j => Node.Stands ts (.expr e) p.position j
  operators : ∀ least {left p i}, p.Placed ts → Node.Stands ts (.expr left) i p.position →
    Goes ts 1 (Parse.operators fuel least left) p fun e j => Node.Stands ts (.expr e) i j
  unary : ∀ {p}, p.Placed ts →
    Goes ts 1 (Parse.unary fuel) p fun e j => Node.Stands ts (.expr e) p.position j
  postfixes : ∀ {e p i}, p.Placed ts → Node.Stands ts (.expr e) i p.position →
    Goes ts 1 (Parse.postfixes fuel e) p fun e j => Node.Stands ts (.expr e) i j
  primary : ∀ {p}, p.Placed ts →
    Goes ts 1 (Parse.primary fuel) p fun e j => Node.Stands ts (.expr e) p.position j
  items : ∀ close delimiter opened {found p i}, p.Placed ts →
    Lined ts (found.reverse.map .expr) i p.position →
      Goes ts 1 (Parse.items fuel close delimiter opened found) p fun es j =>
        p.position < j ∧ Lined ts (es.map .expr) i j
  pairs : ∀ opened {found p i}, p.Placed ts →
    Lined ts (found.reverse.flatMap fun q => [.expr q.1, .expr q.2]) i p.position →
      Goes ts 1 (Parse.pairs fuel opened found) p fun ps j =>
        p.position < j ∧ Lined ts (ps.flatMap fun q => [.expr q.1, .expr q.2]) i j
  cond : ∀ {p}, p.Placed ts → p.kind = .keyword .cond →
    Goes ts 1 (Parse.cond fuel) p fun e j => Node.Stands ts (.expr e) p.position j
  function : ∀ {p}, p.Placed ts → p.kind = .keyword .function →
    Goes ts 1 (Parse.function fuel) p fun e j => Node.Stands ts (.expr e) p.position j
  block : ∀ {p}, p.Placed ts →
    Goes ts 1 (Parse.block fuel) p fun b j => Node.Stands ts (.block b) p.position j
  statements : ∀ inBlock {found p i}, p.Placed ts →
    Lined ts (found.reverse.map .stmt) i p.position →
      Goes ts 0 (Parse.statements fuel inBlock found) p fun ss j => Lined ts (ss.map .stmt) i j
  stmt : ∀ {p}, p.Placed ts →
    Goes ts 1 (Parse.stmt fuel) p fun s j => Node.Stands ts (.stmt s) p.position j
  simple : ∀ {p}, p.Placed ts →
    Goes ts 1 (Parse.simple fuel) p fun s j => Node.Stands ts (.stmt s) p.position j
  whileLoop : ∀ {p}, p.Placed ts → p.kind = .keyword .whileLoop →
    Goes ts 1 (Parse.whileLoop fuel) p fun s j => Node.Stands ts (.stmt s) p.position j
  forLoop : ∀ {p}, p.Placed ts → p.kind = .keyword .forLoop →
    Goes ts 1 (Parse.forLoop fuel) p fun s j => Node.Stands ts (.stmt s) p.position j

namespace Placing

variable {fuel : Nat}

theorem zero : Placing ts 0 := by
  constructor <;> intros <;> exact .noExpression ‹_›

section Cases

variable (hts : Token.Stream ts) (ih : Placing ts fuel) (hp : p.Placed ts)
include hts ih hp

theorem expr_succ :
    Goes ts 1 (Parse.expr (fuel + 1)) p fun e j => Node.Stands ts (.expr e) p.position j := by
  rw [Parse.expr]
  refine (ih.operand 1 hp).bind fun left q hq _ hleft => ?_
  refine .eat hts hq (fun hr hassign => ?_) (.pure hq hleft)
  refine (ih.expr hr).bind fun value s hs _ hvalue => .pure hs ?_
  exact hleft.join hts hvalue (by omega) rfl rfl

omit hts in
theorem operand_succ (least : Nat) :
    Goes ts 1 (Parse.operand (fuel + 1) least) p fun e j => Node.Stands ts (.expr e) p.position j := by
  rw [Parse.operand]
  exact (ih.unary hp).bind fun left q hq _ hleft => ih.operators least hq hleft

theorem operators_succ (least : Nat) {left : Expr} (hleft : Node.Stands ts (.expr left) i p.position) :
    Goes ts 1 (Parse.operators (fuel + 1) least left) p fun e j => Node.Stands ts (.expr e) i j := by
  rw [Parse.operators]
  refine .reading ?_
  split
  · exact .pure hp hleft
  · next op hop =>
    have hk := Token.Kind.binaryOp?_eq_some.mp hop
    split
    · exact .pure hp hleft
    · rw [discard_bind]
      refine .advance hts hp (by simp [Parser.kind, hk]) fun hq hposition => ?_
      refine (ih.operand _ hq).bind fun right r hr _ hright => ih.operators least hr ?_
      exact hleft.join hts hright (by omega) rfl rfl

theorem unary_succ :
    Goes ts 1 (Parse.unary (fuel + 1)) p fun e j => Node.Stands ts (.expr e) p.position j := by
  rw [Parse.unary]
  refine .reading ?_
  split
  · next op hop =>
    have hk := Token.Kind.unaryOp?_eq_some.mp hop
    refine .advance hts hp (by simp [Parser.kind, hk]) fun hq hposition => ?_
    refine (ih.unary hq).bind fun e r hr _ he => .pure hr ?_
    have hlt := he.lt
    refine .mk (by omega) hr.lt ?_ (he.lined (by omega) (Nat.le_refl _))
    change p.reader.current.span.merge (Node.expr e).span = _
    rw [hp.current_span, he.span]
    exact hts.merge_tokensSpan (by omega) hlt (by omega) hr.lt.le
  · exact (ih.primary hp).bind fun e q hq _ he => ih.postfixes hq he

theorem postfixes_succ {e : Expr} (he : Node.Stands ts (.expr e) i p.position) :
    Goes ts 1 (Parse.postfixes (fuel + 1) e) p fun e j => Node.Stands ts (.expr e) i j := by
  have hlt := he.lt
  rw [Parse.postfixes]
  refine .reading ?_
  split
  · next hk =>
    refine .advance hts hp (by simp [Parser.kind, hk]) fun hq hposition => ?_
    refine (ih.items _ _ _ hq (.nil (Nat.le_refl _))).bind fun args r hr _ hargs => ?_
    obtain ⟨hlt', hlined⟩ := hargs
    refine .spanFrom (ih.postfixes hr ?_)
    exact hr.covers hts he.span (by omega) (by omega) rfl
      (.cons (Nat.le_refl _) he (hlined.mono (by omega) (Nat.le_refl _)))
  · next hk =>
    refine .advance hts hp (by simp [Parser.kind, hk]) fun hq hposition => ?_
    refine (ih.expr hq).bind fun index r hr _ hindex => ?_
    have hlt' := hindex.lt
    refine .expectClosing hts hr fun hs hclose => .spanFrom (ih.postfixes hs ?_)
    exact hs.covers hts he.span (by omega) (by omega) rfl
      (.cons (Nat.le_refl _) he (hindex.lined (by omega) (by omega)))
  · exact .pure hp he

theorem primary_succ :
    Goes ts 1 (Parse.primary (fuel + 1)) p fun e j => Node.Stands ts (.expr e) p.position j := by
  rw [Parse.primary]
  refine .reading ?_
  dsimp only
  split
  · next e he =>
    obtain ⟨hspan, hchildren, hk⟩ := Token.Kind.expr?_leaf he
    rw [discard_bind]
    refine .advance hts hp hk fun hq hposition => .pure hq ?_
    refine .mk (by omega) hq.lt ?_ ?_
    · exact hspan.trans (hposition ▸ hp.current_span)
    · rw [Node.children, hchildren]
      exact .nil (by omega)
  · split
    · next hk =>
      rw [discard_bind]
      refine .advance hts hp (by simp [Parser.kind, hk]) fun hq hposition => ?_
      refine (ih.expr hq).bind fun inner r hr _ hinner => ?_
      have hlt := hinner.lt
      refine .expectClosing hts hr fun hs hclose => .spanFrom (.pure hs ?_)
      refine hs.covers hts hp.current_span (by omega) (by omega) (Expr.span_withSpan ..) ?_
      rw [Node.children, Expr.children_withSpan]
      exact hinner.children.mono (by omega) (by omega)
    · next hk =>
      rw [discard_bind]
      refine .advance hts hp (by simp [Parser.kind, hk]) fun hq hposition => ?_
      refine (ih.items _ _ _ hq (.nil (Nat.le_refl _))).bind fun es r hr _ hes => ?_
      obtain ⟨hlt, hlined⟩ := hes
      refine .spanFrom (.pure hr ?_)
      exact hr.covers hts hp.current_span (by omega) (by omega) rfl
        (hlined.mono (by omega) (Nat.le_refl _))
    · next hk =>
      rw [discard_bind]
      refine .advance hts hp (by simp [Parser.kind, hk]) fun hq hposition => ?_
      refine (ih.pairs _ hq (.nil (Nat.le_refl _))).bind fun ps r hr _ hps => ?_
      obtain ⟨hlt, hlined⟩ := hps
      refine .spanFrom (.pure hr ?_)
      exact hr.covers hts hp.current_span (by omega) (by omega) rfl
        (hlined.mono (by omega) (Nat.le_refl _))
    · next hk => exact ih.cond hp hk
    · next hk => exact ih.function hp hk
    · exact .noExpression hp

theorem items_succ (close delimiter : Mark) (opened : Span) {found : List Expr}
    (hfound : Lined ts (found.reverse.map .expr) i p.position) :
    Goes ts 1 (Parse.items (fuel + 1) close delimiter opened found) p fun es j =>
      p.position < j ∧ Lined ts (es.map .expr) i j := by
  rw [Parse.items]
  refine .reading ?_
  split
  · refine .expectClosing hts hp fun hq hclose => .pure hq ⟨by omega, ?_⟩
    exact hfound.mono (Nat.le_refl _) (by omega)
  · refine (ih.expr hp).bind fun e q hq _ he => ?_
    have hlt := he.lt
    have hmore : Lined ts ((e :: found).reverse.map .expr) i q.position := by
      rw [List.reverse_cons, List.map_append]
      exact hfound.append (he.lined (Nat.le_refl _) (Nat.le_refl _))
    refine .eat hts hq (fun hr hcomma => ?_) ?_
    · refine (ih.items close delimiter opened hr (hmore.mono (Nat.le_refl _) (by omega))).mono ?_
      exact fun es j hes => ⟨by omega, hes.2⟩
    · refine .expectClosing hts hq fun hr hclose => .pure hr ⟨by omega, ?_⟩
      exact hmore.mono (Nat.le_refl _) (by omega)

theorem pairs_succ (opened : Span) {found : List (Expr × Expr)}
    (hfound : Lined ts (found.reverse.flatMap fun q => [.expr q.1, .expr q.2]) i p.position) :
    Goes ts 1 (Parse.pairs (fuel + 1) opened found) p fun ps j =>
      p.position < j ∧ Lined ts (ps.flatMap fun q => [.expr q.1, .expr q.2]) i j := by
  rw [Parse.pairs]
  refine .reading ?_
  split
  · refine .expectClosing hts hp fun hq hclose => .pure hq ⟨by omega, ?_⟩
    exact hfound.mono (Nat.le_refl _) (by omega)
  · refine (ih.expr hp).bind fun key q hq _ hkey => ?_
    have hlt := hkey.lt
    rw [discard_bind]
    refine .expect hts hq fun hr hcolon => (ih.expr hr).bind fun value s hs _ hvalue => ?_
    have hlt' := hvalue.lt
    have hpair : Lined ts [.expr key, .expr value] p.position s.position :=
      .cons (Nat.le_refl _) hkey (hvalue.lined (by omega) (Nat.le_refl _))
    have hmore : Lined ts (((key, value) :: found).reverse.flatMap fun q => [.expr q.1, .expr q.2]) i
        s.position := by
      rw [List.reverse_cons, List.flatMap_append]
      exact hfound.append hpair
    refine .eat hts hs (fun ht hcomma => ?_) ?_
    · refine (ih.pairs opened ht (hmore.mono (Nat.le_refl _) (by omega))).mono ?_
      exact fun ps j hps => ⟨by omega, hps.2⟩
    · refine .expectClosing hts hs fun ht hclose => .pure ht ⟨by omega, ?_⟩
      exact hmore.mono (Nat.le_refl _) (by omega)

theorem condition {α : Type} {f : Expr → Block → Parse α} {Q : α → Nat → Prop}
    (hf : ∀ c b q, q.Placed ts → p.position < q.position →
      Lined ts [.expr c, .block b] p.position q.position → Goes ts 1 (f c b) q Q) :
    Goes ts 1 (do
      let opened ← expect .openParen
      let condition ← Parse.expr fuel
      expectClosing .closeParen .openParen opened
      let body ← Parse.block fuel
      f condition body) p Q := by
  refine .expect hts hp fun hq hopen => (ih.expr hq).bind fun c r hr _ hc => ?_
  refine .expectClosing hts hr fun hs hclose => (ih.block hs).bind fun b t ht _ hb => ?_
  have hlt := hc.lt
  have hlt' := hb.lt
  exact hf c b t ht (by omega) (.cons (by omega) hc (hb.lined (by omega) (Nat.le_refl _)))

theorem cond_succ (hk : p.kind = .keyword .cond) :
    Goes ts 1 (Parse.cond (fuel + 1)) p fun e j => Node.Stands ts (.expr e) p.position j := by
  rw [Parse.cond]
  refine .advance hts hp (by simp [hk]) fun hq hposition => ?_
  refine condition hts ih hq fun c b r hr hlt hlined => ?_
  refine .eatKeyword hts hr (fun hs helse => .reading ?_) (.spanFrom (.pure hr ?_))
  · split
    · next hcond =>
      refine (ih.cond hs (TokenReader.atKeyword_iff.mp hcond)).bind fun nested t ht _ hnested => ?_
      have hlt' := hnested.lt
      have hstmt : Node.Stands ts (.stmt (.expr nested nested.span)) r.next.position t.position :=
        .mk hlt' ht.lt hnested.span (hnested.lined (Nat.le_refl _) (Nat.le_refl _))
      have hblock : Node.Stands ts (.block (.mk [.expr nested nested.span] nested.span)) r.next.position
          t.position :=
        .mk hlt' ht.lt hnested.span (hstmt.lined (Nat.le_refl _) (Nat.le_refl _))
      refine .spanFrom (.pure ht (ht.covers hts hp.current_span (by omega) (by omega) rfl ?_))
      exact (hlined.mono (by omega) (Nat.le_refl _)).append (hblock.lined (by omega) (Nat.le_refl _))
    · refine (ih.block hs).bind fun alternative t ht _ hblock => ?_
      have hlt' := hblock.lt
      refine .spanFrom (.pure ht (ht.covers hts hp.current_span (by omega) (by omega) rfl ?_))
      exact (hlined.mono (by omega) (Nat.le_refl _)).append (hblock.lined (by omega) (Nat.le_refl _))
  · exact hr.covers hts hp.current_span (by omega) (by omega) rfl
      (hlined.mono (by omega) (Nat.le_refl _))

theorem function_succ (hk : p.kind = .keyword .function) :
    Goes ts 1 (Parse.function (fuel + 1)) p fun e j => Node.Stands ts (.expr e) p.position j := by
  rw [Parse.function]
  refine .advance hts hp (by simp [hk]) fun hq hposition => .expect hts hq fun hr hopen => ?_
  refine (goes_params hts fuel hr (.nil (Nat.le_refl _))).bind fun names s hs hle hnames => ?_
  refine .expectClosing hts hs fun ht hclose => (ih.block ht).bind fun body u hu _ hbody => ?_
  have hlt := hbody.lt
  refine .spanFrom (.pure hu (hu.covers hts hp.current_span (by omega) (by omega) rfl ?_))
  exact (hnames.mono (by omega) (Nat.le_refl _)).append (hbody.lined (by omega) (Nat.le_refl _))

theorem block_succ :
    Goes ts 1 (Parse.block (fuel + 1)) p fun b j => Node.Stands ts (.block b) p.position j := by
  rw [Parse.block]
  refine .opening hts hp fun hq hopen => ?_
  refine (ih.statements true hq (.nil (Nat.le_refl _))).bind fun body r hr hle hbody => ?_
  refine .expectClosing hts hr fun hs hclose => .spanFrom (.pure hs ?_)
  exact hs.covers hts hp.current_span (by omega) (by omega) rfl (hbody.mono (by omega) (by omega))

/-- A round of the statement loop ends it, or goes on to a later token with at most one statement
more. -/
theorem round (inBlock : Bool) (found : List Stmt) :
    (Parse.statements (fuel + 1) inBlock found p = (.ok found.reverse, p) ∧
      (p.kind = .eof ∨ inBlock = true ∧ p.kind = .mark .closeBrace)) ∨
    ∃ found' q, Parse.statements (fuel + 1) inBlock found p = Parse.statements fuel inBlock found' q ∧
      p.Moves ts 0 q ∧ p.position < q.position ∧
      (found' = found ∨ ∃ s, found' = s :: found ∧ Node.Stands ts (.stmt s) p.position q.position) := by
  rw [Parse.statements, reader_bind]
  split
  · next hstop =>
    refine .inl ⟨rfl, ?_⟩
    rw [Bool.or_eq_true, Bool.and_eq_true] at hstop
    exact hstop.imp TokenReader.atEnd_iff.mp (.imp id TokenReader.atMark_iff.mp)
  · next hstop =>
    have hk : p.kind ≠ .eof := fun heof => hstop (by simp [TokenReader.atEnd_iff.mpr heof])
    obtain ⟨hnext, hposition⟩ := hp.next hts hk
    right
    rw [eat_bind]
    split
    · have hmoves : p.Moves ts 1 p.next := .next hts hp hk (.refl hnext)
      exact ⟨found, p.next, rfl, hmoves.weaken (Nat.zero_le _), by omega, .inl rfl⟩
    · have hstmt := ih.stmt hp
      unfold Goes Gives at hstmt
      rw [if_neg Bool.false_ne_true, observing_bind]
      rcases hs : Parse.stmt fuel p with ⟨e | s, q⟩ <;> rw [hs] at hstmt
      · obtain ⟨hmoves, hlt⟩ := hstmt.1.recover hts hp hk hstmt.2
        exact ⟨found, _, rfl, hmoves, hlt, .inl rfl⟩
      · exact ⟨s :: found, q, rfl, hstmt.1.weaken (Nat.zero_le _), hstmt.2.lt, .inr ⟨s, rfl, hstmt.2⟩⟩

omit hts ih hp in
theorem found_lined {found found' : List Stmt} {j k : Nat}
    (hfound : Lined ts (found.reverse.map .stmt) i j) (hlt : j < k)
    (h : found' = found ∨ ∃ s, found' = s :: found ∧ Node.Stands ts (.stmt s) j k) :
    Lined ts (found'.reverse.map .stmt) i k := by
  obtain rfl | ⟨s, rfl, hs⟩ := h
  · exact hfound.mono (Nat.le_refl _) hlt.le
  · rw [List.reverse_cons, List.map_append]
    exact hfound.append (hs.lined (Nat.le_refl _) (Nat.le_refl _))

theorem statements_succ (inBlock : Bool) {found : List Stmt}
    (hfound : Lined ts (found.reverse.map .stmt) i p.position) :
    Goes ts 0 (Parse.statements (fuel + 1) inBlock found) p fun ss j =>
      Lined ts (ss.map .stmt) i j := by
  obtain ⟨hstop, -⟩ | ⟨found', q, hround, hmoves, hlt, hfound'⟩ := round hts ih hp inBlock found
  · exact (Goes.pure hp hfound).after (.refl hp) hstop
  · exact (ih.statements inBlock hmoves.placed (found_lined hfound hlt hfound')).after hmoves hround

omit hts ih in
theorem clause {α β : Type} {c : Prop} [Decidable c] {x : Parse α} {k : Option α → Parse β}
    {Q : β → Nat → Prop} (node : α → Node)
    (h : Goes ts 1 x p fun a j => Node.Stands ts (node a) p.position j)
    (hk : ∀ o q, q.Placed ts → p.position ≤ q.position →
      Lined ts (o.toList.map node) p.position q.position → Goes ts 1 (k o) q Q) :
    Goes ts 1 (if c then Pure.pure none >>= k else some <$> x >>= k) p Q := by
  split
  · exact hk none p hp (Nat.le_refl _) (.nil (Nat.le_refl _))
  · rw [bind_map_left]
    refine h.bind fun a q hq hle ha => hk (some a) q hq hle ?_
    exact ha.lined (Nat.le_refl _) (Nat.le_refl _)

theorem stmt_succ :
    Goes ts 1 (Parse.stmt (fuel + 1)) p fun s j => Node.Stands ts (.stmt s) p.position j := by
  rw [Parse.stmt]
  refine .reading ?_
  dsimp only
  split
  · next hk => exact ih.whileLoop hp hk
  · next hk => exact ih.forLoop hp hk
  · next hk =>
    rw [discard_bind]
    refine .advance hts hp (by simp [Parser.kind, hk]) fun hq hposition => .reading ?_
    refine clause hq .expr (ih.expr hq) fun value r hr hle hvalue => ?_
    refine .optional hts hr fun s hs hle' => .spanFrom (.pure hs ?_)
    exact hs.covers hts hp.current_span (by omega) (by omega) rfl
      (hvalue.mono (by omega) hle')
  · next hk =>
    rw [discard_bind]
    refine .advance hts hp (by simp [Parser.kind, hk]) fun hq hposition => ?_
    refine .optional hts hq fun r hr hle => .spanFrom (.pure hr ?_)
    exact hr.covers hts hp.current_span (by omega) (by omega) rfl (.nil (by omega))
  · next hk =>
    rw [discard_bind]
    refine .advance hts hp (by simp [Parser.kind, hk]) fun hq hposition => ?_
    refine .optional hts hq fun r hr hle => .spanFrom (.pure hr ?_)
    exact hr.covers hts hp.current_span (by omega) (by omega) rfl (.nil (by omega))
  · refine (ih.simple hp).bind fun s q hq _ hs => ?_
    have hlt := hs.lt
    refine .optional hts hq fun r hr hle => .spanFrom (.pure hr ?_)
    refine hr.covers hts hp.current_span (by omega) (by omega) (Stmt.span_withSpan ..) ?_
    rw [Node.children, Stmt.children_withSpan]
    exact hs.children.mono (Nat.le_refl _) hle

theorem simple_succ :
    Goes ts 1 (Parse.simple (fuel + 1)) p fun s j => Node.Stands ts (.stmt s) p.position j := by
  rw [Parse.simple]
  refine .reading (.eatKeyword hts hp (fun hq hlet => ?_) ?_)
  · refine .expectIdent hts hq fun name hr hident => ?_
    have hname : Node.Stands ts (.ident ⟨name, p.next.reader.current.span⟩) p.next.position
        p.next.next.position :=
      .mk (by omega) hr.lt (hident ▸ hq.current_span) (.nil (by omega))
    rw [discard_bind]
    refine .expect hts hr fun hs hassign => (ih.expr hs).bind fun value t ht _ hvalue => ?_
    have hlt := hvalue.lt
    refine .spanFrom (.pure ht (ht.covers hts hp.current_span (by omega) (by omega) rfl ?_))
    exact .cons (by omega) hname (hvalue.lined (by omega) (Nat.le_refl _))
  · refine (ih.expr hp).bind fun value q hq _ hvalue => ?_
    have hlt := hvalue.lt
    refine .spanFrom (.pure hq (hq.covers hts hp.current_span (by omega) (by omega) rfl ?_))
    exact hvalue.lined (Nat.le_refl _) (Nat.le_refl _)

theorem whileLoop_succ (hk : p.kind = .keyword .whileLoop) :
    Goes ts 1 (Parse.whileLoop (fuel + 1)) p fun s j => Node.Stands ts (.stmt s) p.position j := by
  rw [Parse.whileLoop]
  refine .advance hts hp (by simp [hk]) fun hq hposition => ?_
  refine condition hts ih hq fun c b r hr hlt hlined => ?_
  refine .spanFrom (.pure hr (hr.covers hts hp.current_span (by omega) (by omega) rfl ?_))
  exact hlined.mono (by omega) (Nat.le_refl _)

theorem forLoop_succ (hk : p.kind = .keyword .forLoop) :
    Goes ts 1 (Parse.forLoop (fuel + 1)) p fun s j => Node.Stands ts (.stmt s) p.position j := by
  rw [Parse.forLoop]
  refine .advance hts hp (by simp [hk]) fun hq hposition => .expect hts hq fun hr hopen => ?_
  refine .reading (clause hr .stmt (ih.simple hr) fun init p₁ h₁ hle₁ hinit => ?_)
  dsimp only
  rw [discard_bind]
  refine .expect hts h₁ fun h₂ hsemi => ?_
  refine .reading (clause h₂ .expr (ih.expr h₂) fun c p₃ h₃ hle₃ hc => ?_)
  rw [discard_bind]
  refine .expect hts h₃ fun h₄ hsemi' => ?_
  refine .reading (clause h₄ .expr (ih.expr h₄) fun update p₅ h₅ hle₅ hupdate => ?_)
  refine .expectClosing hts h₅ fun h₆ hclose => (ih.block h₆).bind fun body p₇ h₇ _ hbody => ?_
  have hlt := hbody.lt
  refine .spanFrom (.pure h₇ (h₇.covers hts hp.current_span (by omega) (by omega) rfl ?_))
  have hinit := hinit.mono (i := p.position) (by omega) (Nat.le_refl _)
  have hc := hc.mono (i := p₁.position) (by omega) (Nat.le_refl _)
  have hupdate := hupdate.mono (i := p₃.position) (by omega) (Nat.le_refl _)
  exact ((hinit.append hc).append hupdate).append (hbody.lined (by omega) (Nat.le_refl _))

end Cases

theorem all (hts : Token.Stream ts) (fuel : Nat) : Placing ts fuel := by
  induction fuel with
  | zero => exact .zero
  | succ fuel ih =>
    constructor
    · exact fun hp => expr_succ hts ih hp
    · exact fun least _ hp => operand_succ ih hp least
    · exact fun least _ _ _ hp hleft => operators_succ hts ih hp least hleft
    · exact fun hp => unary_succ hts ih hp
    · exact fun hp he => postfixes_succ hts ih hp he
    · exact fun hp => primary_succ hts ih hp
    · exact fun close delimiter opened _ _ _ hp hfound =>
        items_succ hts ih hp close delimiter opened hfound
    · exact fun opened _ _ _ hp hfound => pairs_succ hts ih hp opened hfound
    · exact fun hp hk => cond_succ hts ih hp hk
    · exact fun hp hk => function_succ hts ih hp hk
    · exact fun hp => block_succ hts ih hp
    · exact fun inBlock _ _ _ hp hfound => statements_succ hts ih hp inBlock hfound
    · exact fun hp => stmt_succ hts ih hp
    · exact fun hp => simple_succ hts ih hp
    · exact fun hp hk => whileLoop_succ hts ih hp hk
    · exact fun hp hk => forLoop_succ hts ih hp hk

end Placing

/-- With more fuel than there are tokens the statement loop comes to the end of the source. -/
theorem statements_ends (hts : Token.Stream ts) {fuel : Nat} {found : List Stmt} (hp : p.Placed ts)
    (hfuel : ts.length ≤ p.position + fuel) (hfound : Lined ts (found.reverse.map .stmt) i p.position) :
    ∃ ss q, statements fuel false found p = (.ok ss, q) ∧ p.Moves ts 0 q ∧ q.kind = .eof ∧
      Lined ts (ss.map .stmt) i q.position := by
  induction fuel generalizing found p with
  | zero => exact absurd hp.lt (by omega)
  | succ fuel ih =>
    obtain ⟨hstop, hend⟩ | ⟨found', q, hround, hmoves, hlt, hfound'⟩ :=
      Placing.round hts (Placing.all hts fuel) hp false found
    · have heof : p.kind = .eof := hend.resolve_right fun h => Bool.false_ne_true h.1
      exact ⟨found.reverse, p, hstop, .refl hp, heof, hfound⟩
    · have hmore := Placing.found_lined hfound hlt hfound'
      obtain ⟨ss, r, hrun, hmoves', heof, hss⟩ := ih hmoves.placed (by omega) hmore
      exact ⟨ss, r, hround.trans hrun, hmoves.trans hmoves', heof, hss⟩

end Parse

section Run

variable {ts : List Token}

def Parser.start (ts : List Token) : Parser := ⟨⟨ts, Span.nowhere, 0⟩, #[]⟩

theorem Parser.start_placed (hts : Token.Stream ts) : (Parser.start ts).Placed ts := by
  obtain ⟨body, stop, rfl, -⟩ := hts.ended
  exact ⟨rfl, by simp [Parser.position, Parser.start]⟩

/-- Parsing is the statement loop coming to the end of the tokens. -/
theorem parse_run (hts : Token.Stream ts) :
    ∃ p : Parser, Parse.statements (10 * ts.length + 10) false [] (.start ts) =
        (.ok (parse ts).program.statements, p) ∧
      p.errors = (parse ts).errors ∧ (Parser.start ts).Moves ts 0 p ∧ p.kind = .eof ∧
      Lined ts ((parse ts).program.statements.map .stmt) 0 p.position := by
  have hfuel : ts.length ≤ (Parser.start ts).position + (10 * ts.length + 10) := by omega
  have hnil : Lined ts (([] : List Stmt).reverse.map .stmt) 0 (Parser.start ts).position :=
    .nil (Nat.le_refl 0)
  obtain ⟨ss, p, hrun, hmoves, heof, hss⟩ :=
    Parse.statements_ends hts (Parser.start_placed hts) hfuel hnil
  have hrun' : (Parse.statements (10 * ts.length + 10) false []).run
      ⟨⟨ts, Span.nowhere, 0⟩, #[]⟩ = (.ok ss, p) := hrun
  have hparse : parse ts = ⟨⟨ss⟩, p.errors⟩ := by rw [parse, hrun']
  rw [hparse]
  exact ⟨p, hrun, rfl, hmoves, heof, hss⟩

end Run

end StackScript
