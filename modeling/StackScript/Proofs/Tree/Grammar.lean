import Mathlib.Logic.Function.Iterate
import StackScript.Proofs.Tree.Placement

/-! # The parser without fuel

Parsers that call each other are one step of a grammar. The parsers with fuel are its iterates, and
where the fuel is enough they are the iterates of any grammar at all: no parser comes to the end of
its fuel, so what stands there does not matter.
-/

namespace StackScript.Parse

/-- A parser for each part of a program. -/
structure Grammar where
  params : (found : List Ident) → Parse (List Ident)
  expr : Parse Expr
  operand : (least : Nat) → Parse Expr
  operators : (least : Nat) → (left : Expr) → Parse Expr
  unary : Parse Expr
  postfixes : Expr → Parse Expr
  primary : Parse Expr
  items : (close delimiter : Mark) → (opened : Span) → (found : List Expr) → Parse (List Expr)
  pairs : (opened : Span) → (found : List (Expr × Expr)) → Parse (List (Expr × Expr))
  cond : Parse Expr
  function : Parse Expr
  block : Parse Block
  statements : (inBlock : Bool) → (found : List Stmt) → Parse (List Stmt)
  stmt : Parse Stmt
  simple : Parse Stmt
  whileLoop : Parse Stmt
  forLoop : Parse Stmt

namespace Grammar

/-- The parsers, where they call those of `g`. -/
def step (g : Grammar) : Grammar where
  params found := do
    let r ← reader
    if r.atMark .closeParen || r.atEnd then return found.reverse
    let name ← expectIdent
    if ← eat .comma then g.params (name :: found)
    else return (name :: found).reverse
  expr := do
    let left ← g.operand 1
    if ← eat .assign then
      let value ← g.expr
      return .assign left value (left.span.merge value.span)
    else return left
  operand least := do g.operators least (← g.unary)
  operators least left := do
    match (← reader).current.kind.binaryOp? with
    | none => return left
    | some op =>
      if op.power < least then return left
      else
        discard advance
        let right ← g.operand op.rightPower
        g.operators least (.binary op left right (left.span.merge right.span))
  unary := do
    match (← reader).current.kind.unaryOp? with
    | some op =>
      let start := (← advance).span
      let e ← g.unary
      return .unary op e (start.merge e.span)
    | none => g.postfixes (← g.primary)
  postfixes e := do
    match (← reader).current.kind with
    | .mark .openParen =>
      let opened := (← advance).span
      let args ← g.items .closeParen .openParen opened []
      g.postfixes (.call e args (← spanFrom e.span))
    | .mark .openBracket =>
      let opened := (← advance).span
      let index ← g.expr
      expectClosing .closeBracket .openBracket opened
      g.postfixes (.index e index (← spanFrom e.span))
    | _ => return e
  primary := do
    let token := (← reader).current
    let span := token.span
    match token.kind.expr? span with
    | some e =>
      discard advance
      return e
    | none =>
      match token.kind with
      | .mark .openParen =>
        discard advance
        let inner ← g.expr
        expectClosing .closeParen .openParen span
        return inner.withSpan (← spanFrom span)
      | .mark .openBracket =>
        discard advance
        let es ← g.items .closeBracket .openBracket span []
        return .array es (← spanFrom span)
      | .mark .openBrace =>
        discard advance
        let ps ← g.pairs span []
        return .hash ps (← spanFrom span)
      | .keyword .cond => g.cond
      | .keyword .function => g.function
      | _ => noExpression
  items close delimiter opened found := do
    let r ← reader
    if r.atMark close || r.atEnd then
      expectClosing close delimiter opened
      return found.reverse
    else
      let e ← g.expr
      if ← eat .comma then g.items close delimiter opened (e :: found)
      else
        expectClosing close delimiter opened
        return (e :: found).reverse
  pairs opened found := do
    let r ← reader
    if r.atMark .closeBrace || r.atEnd then
      expectClosing .closeBrace .openBrace opened
      return found.reverse
    else
      let key ← g.expr
      discard (expect .colon)
      let value ← g.expr
      if ← eat .comma then g.pairs opened ((key, value) :: found)
      else
        expectClosing .closeBrace .openBrace opened
        return ((key, value) :: found).reverse
  cond := do
    let start := (← advance).span
    let opened ← expect .openParen
    let condition ← g.expr
    expectClosing .closeParen .openParen opened
    let consequence ← g.block
    if ← eatKeyword .otherwise then
      if (← reader).atKeyword .cond then
        let nested ← g.cond
        let alternative := Block.mk [.expr nested nested.span] nested.span
        return .cond condition consequence (some alternative) (← spanFrom start)
      else
        let alternative ← g.block
        return .cond condition consequence (some alternative) (← spanFrom start)
    else return .cond condition consequence none (← spanFrom start)
  function := do
    let start := (← advance).span
    let opened ← expect .openParen
    let names ← g.params []
    expectClosing .closeParen .openParen opened
    let body ← g.block
    return .function none names body (← spanFrom start)
  block := do
    let opened ← expect .openBrace
    let body ← g.statements true []
    expectClosing .closeBrace .openBrace opened
    return .mk body (← spanFrom opened)
  statements inBlock found := do
    let r ← reader
    if r.atEnd || (inBlock && r.atMark .closeBrace) then return found.reverse
    else if ← eat .semicolon then g.statements inBlock found
    else
      match ← observing g.stmt with
      | .ok s => g.statements inBlock (s :: found)
      | .error e =>
        record e
        setReader ((← reader).recover r.position)
        g.statements inBlock found
  stmt := do
    let r ← reader
    let start := r.current.span
    match r.current.kind with
    | .keyword .whileLoop => g.whileLoop
    | .keyword .forLoop => g.forLoop
    | .keyword .ret =>
      discard advance
      let r ← reader
      let value ←
        if r.atMark .semicolon || r.atMark .closeBrace || r.atEnd then pure none
        else some <$> g.expr
      discard (eat .semicolon)
      return .ret value (← spanFrom start)
    | .keyword .breakLoop =>
      discard advance
      discard (eat .semicolon)
      return .breakLoop (← spanFrom start)
    | .keyword .continueLoop =>
      discard advance
      discard (eat .semicolon)
      return .continueLoop (← spanFrom start)
    | _ =>
      let s ← g.simple
      discard (eat .semicolon)
      return s.withSpan (← spanFrom start)
  simple := do
    let start := (← reader).current.span
    if ← eatKeyword .letBinding then
      let name ← expectIdent
      discard (expect .assign)
      let value ← g.expr
      return .bind name value (← spanFrom start)
    else
      let value ← g.expr
      return .expr value (← spanFrom start)
  whileLoop := do
    let start := (← advance).span
    let opened ← expect .openParen
    let condition ← g.expr
    expectClosing .closeParen .openParen opened
    let body ← g.block
    return .whileLoop condition body (← spanFrom start)
  forLoop := do
    let start := (← advance).span
    let opened ← expect .openParen
    let init ← if (← reader).atMark .semicolon then pure none else some <$> g.simple
    discard (expect .semicolon)
    let condition ← if (← reader).atMark .semicolon then pure none else some <$> g.expr
    discard (expect .semicolon)
    let update ← if (← reader).atMark .closeParen then pure none else some <$> g.expr
    expectClosing .closeParen .openParen opened
    let body ← g.block
    return .forLoop init condition update body (← spanFrom start)

/-- The parsers with this fuel. -/
def ofFuel (fuel : Nat) : Grammar where
  params := Parse.params fuel
  expr := Parse.expr fuel
  operand := Parse.operand fuel
  operators := Parse.operators fuel
  unary := Parse.unary fuel
  postfixes := Parse.postfixes fuel
  primary := Parse.primary fuel
  items := Parse.items fuel
  pairs := Parse.pairs fuel
  cond := Parse.cond fuel
  function := Parse.function fuel
  block := Parse.block fuel
  statements := Parse.statements fuel
  stmt := Parse.stmt fuel
  simple := Parse.simple fuel
  whileLoop := Parse.whileLoop fuel
  forLoop := Parse.forLoop fuel

/-- Fuel is the number of steps taken. -/
theorem ofFuel_succ (fuel : Nat) : ofFuel (fuel + 1) = step (ofFuel fuel) := by
  rfl

end Grammar

section Alike

variable {ts : List Token} {spare : Nat} {p : Parser} {α β : Type}

theorem bind_alike {x x' : Parse α} {f f' : α → Parse β} {Q : α → Nat → Prop}
    (hgoes : Goes ts spare x p Q) (hx : x' p = x p)
    (hf : ∀ a q, q.Placed ts → p.position ≤ q.position → Q a q.position → f' a q = f a q) :
    (x' >>= f') p = (x >>= f) p := by
  unfold Goes Gives at hgoes
  rw [bind_apply, bind_apply, hx]
  rcases hxp : x p with ⟨e | a, q⟩
  · rfl
  · rw [hxp] at hgoes
    exact hf a q hgoes.1.placed hgoes.1.le hgoes.2

theorem ite_alike {c : Prop} [Decidable c] {x x' y y' : Parse α} (hx : x' p = x p)
    (hy : y' p = y p) : (if c then x' else y') p = (if c then x else y) p := by
  split
  · exact hx
  · exact hy

theorem clause_alike {c : Prop} [Decidable c] {x x' : Parse α} {k k' : Option α → Parse β}
    {Q : α → Nat → Prop} (hp : p.Placed ts) (hgoes : Goes ts spare x p Q) (hx : x' p = x p)
    (hk : ∀ o q, q.Placed ts → p.position ≤ q.position → k' o q = k o q) :
    (if c then pure none >>= k' else some <$> x' >>= k') p =
      (if c then pure none >>= k else some <$> x >>= k) p := by
  refine ite_alike (hk none p hp (Nat.le_refl _)) ?_
  rw [bind_map_left, bind_map_left]
  exact bind_alike hgoes hx fun a q hq hle _ => hk (some a) q hq hle

theorem ite_pure :
    (fun b : Bool => if b = true then (pure true : Parse Bool) else pure false) = pure := by
  funext b
  cases b <;> rfl

theorem Goes.alone {x : Parse α} {Q : α → Nat → Prop} (h : Goes ts spare (x >>= Pure.pure) p Q) :
    Goes ts spare x p Q := by
  rwa [bind_pure] at h

section Steps

variable (hts : Token.Stream ts) (hp : p.Placed ts)
include hts hp

theorem goes_advance (hk : p.kind ≠ .eof) : Goes ts 1 advance p fun _ j => p.position < j :=
  .alone (.advance hts hp hk fun hq hposition => .pure hq hposition.ge)

theorem goes_expect (m : Mark) : Goes ts 1 (expect m) p fun _ j => p.position < j :=
  .alone (.expect hts hp fun hq hposition => .pure hq hposition.ge)

theorem goes_expectClosing (close delimiter : Mark) (opened : Span) :
    Goes ts 1 (expectClosing close delimiter opened) p fun _ j => p.position < j :=
  .alone (.expectClosing hts hp fun hq hposition => .pure hq hposition.ge)

theorem goes_expectIdent : Goes ts 1 expectIdent p fun _ j => p.position < j :=
  .alone (.expectIdent hts hp fun _ hq hposition => .pure hq hposition.ge)

theorem goes_eat (m : Mark) : Goes ts 1 (eat m) p fun _ _ => True := by
  have h := Goes.eat (R := fun _ _ => True) (m := m) (x := pure true) (y := pure false) hts hp
    (fun hq _ => (Goes.pure hq trivial : Goes ts 1 _ _ _)) (.pure hp trivial)
  rw [ite_pure] at h
  exact .alone h

theorem goes_eatKeyword (w : Keyword) : Goes ts 1 (eatKeyword w) p fun _ _ => True := by
  have h := Goes.eatKeyword (R := fun _ _ => True) (w := w) (x := pure true) (y := pure false) hts hp
    (fun hq _ => (Goes.pure hq trivial : Goes ts 1 _ _ _)) (.pure hp trivial)
  rw [ite_pure] at h
  exact .alone h

end Steps

end Alike

/-- The parser may take this many steps, counted from its place among those that pass no token
between them. -/
structure Enough (ts : List Token) (fuel rank : Nat) (p : Parser) : Prop where
  placed : p.Placed ts
  bound : 10 * ts.length + rank ≤ fuel + 10 * p.position

/-- The parsers of `g` do the same as those of `g'` where the fuel is enough. -/
structure Agrees (ts : List Token) (fuel : Nat) (g g' : Grammar) : Prop where
  params : ∀ {p} found, Enough ts fuel 1 p → g.params found p = g'.params found p
  expr : ∀ {p}, Enough ts fuel 5 p → g.expr p = g'.expr p
  operand : ∀ {p} least, Enough ts fuel 4 p → g.operand least p = g'.operand least p
  operators : ∀ {p} least left, Enough ts fuel 1 p →
    g.operators least left p = g'.operators least left p
  unary : ∀ {p}, Enough ts fuel 3 p → g.unary p = g'.unary p
  postfixes : ∀ {p} e, Enough ts fuel 1 p → g.postfixes e p = g'.postfixes e p
  primary : ∀ {p}, Enough ts fuel 2 p → g.primary p = g'.primary p
  items : ∀ {p} close delimiter opened found, Enough ts fuel 6 p →
    g.items close delimiter opened found p = g'.items close delimiter opened found p
  pairs : ∀ {p} opened found, Enough ts fuel 6 p → g.pairs opened found p = g'.pairs opened found p
  cond : ∀ {p}, Enough ts fuel 1 p → p.kind = .keyword .cond → g.cond p = g'.cond p
  function : ∀ {p}, Enough ts fuel 1 p → p.kind = .keyword .function → g.function p = g'.function p
  block : ∀ {p}, Enough ts fuel 1 p → g.block p = g'.block p
  statements : ∀ {p} inBlock found, Enough ts fuel 8 p →
    g.statements inBlock found p = g'.statements inBlock found p
  stmt : ∀ {p}, Enough ts fuel 7 p → g.stmt p = g'.stmt p
  simple : ∀ {p}, Enough ts fuel 6 p → g.simple p = g'.simple p
  whileLoop : ∀ {p}, Enough ts fuel 1 p → p.kind = .keyword .whileLoop →
    g.whileLoop p = g'.whileLoop p
  forLoop : ∀ {p}, Enough ts fuel 1 p → p.kind = .keyword .forLoop → g.forLoop p = g'.forLoop p

namespace Agrees

variable {ts : List Token} {n : Nat} {g : Grammar} {p : Parser}

theorem zero (g g' : Grammar) : Agrees ts 0 g g' := by
  have hnone {p : Parser} {rank : Nat} (hp : Enough ts 0 rank p) : False := by
    have := hp.placed.lt
    have := hp.bound
    omega
  constructor <;> intros <;> exact (hnone ‹_›).elim

open Grammar

section Cases

variable (hts : Token.Stream ts) (hplacing : Placing ts n) (ih : Agrees ts n g (.ofFuel n))
include hts hplacing ih

omit hplacing in
theorem params_succ (found : List Ident) (hp : Enough ts (n + 1) 1 p) :
    g.step.params found p = (ofFuel n).step.params found p := by
  obtain ⟨hp, hbound⟩ := hp
  unfold step
  dsimp only
  rw [reader_bind, reader_bind]
  refine ite_alike rfl ?_
  refine bind_alike (goes_expectIdent hts hp) rfl fun name q hq _ hlt => ?_
  refine bind_alike (goes_eat hts hq .comma) rfl fun _ r hr hle _ => ite_alike ?_ rfl
  exact ih.params _ ⟨hr, by omega⟩

theorem expr_succ (hp : Enough ts (n + 1) 5 p) : g.step.expr p = (ofFuel n).step.expr p := by
  obtain ⟨hp, hbound⟩ := hp
  unfold step
  dsimp only
  refine bind_alike (hplacing.operand 1 hp) (ih.operand 1 ⟨hp, by omega⟩) fun left q hq _ hleft => ?_
  have hlt := hleft.lt
  refine bind_alike (goes_eat hts hq .assign) rfl fun _ r hr hle _ => ite_alike ?_ rfl
  exact bind_alike (hplacing.expr hr) (ih.expr ⟨hr, by omega⟩) fun _ _ _ _ _ => rfl

omit hts in
theorem operand_succ (least : Nat) (hp : Enough ts (n + 1) 4 p) :
    g.step.operand least p = (ofFuel n).step.operand least p := by
  obtain ⟨hp, hbound⟩ := hp
  unfold step
  dsimp only
  refine bind_alike (hplacing.unary hp) (ih.unary ⟨hp, by omega⟩) fun left q hq _ hleft => ?_
  have hlt := hleft.lt
  exact ih.operators _ _ ⟨hq, by omega⟩

theorem operators_succ (least : Nat) (left : Expr) (hp : Enough ts (n + 1) 1 p) :
    g.step.operators least left p = (ofFuel n).step.operators least left p := by
  obtain ⟨hp, hbound⟩ := hp
  unfold step
  dsimp only
  rw [reader_bind, reader_bind]
  cases hop : p.reader.current.kind.binaryOp? with
  | none => rfl
  | some op =>
    have hk := Token.Kind.binaryOp?_eq_some.mp hop
    refine ite_alike rfl ?_
    rw [discard_bind, discard_bind]
    refine bind_alike (goes_advance hts hp (by simp [Parser.kind, hk])) rfl fun _ q hq _ hlt => ?_
    refine bind_alike (hplacing.operand _ hq) (ih.operand _ ⟨hq, by omega⟩)
      fun right r hr hle _ => ?_
    exact ih.operators _ _ ⟨hr, by omega⟩

theorem unary_succ (hp : Enough ts (n + 1) 3 p) : g.step.unary p = (ofFuel n).step.unary p := by
  obtain ⟨hp, hbound⟩ := hp
  unfold step
  dsimp only
  rw [reader_bind, reader_bind]
  cases hop : p.reader.current.kind.unaryOp? with
  | none =>
    refine bind_alike (hplacing.primary hp) (ih.primary ⟨hp, by omega⟩) fun e q hq _ he => ?_
    have hlt := he.lt
    exact ih.postfixes _ ⟨hq, by omega⟩
  | some op =>
    have hk := Token.Kind.unaryOp?_eq_some.mp hop
    refine bind_alike (goes_advance hts hp (by simp [Parser.kind, hk])) rfl fun _ q hq _ hlt => ?_
    exact bind_alike (hplacing.unary hq) (ih.unary ⟨hq, by omega⟩) fun _ _ _ _ _ => rfl

theorem postfixes_succ (e : Expr) (hp : Enough ts (n + 1) 1 p) :
    g.step.postfixes e p = (ofFuel n).step.postfixes e p := by
  obtain ⟨hp, hbound⟩ := hp
  unfold step
  dsimp only
  rw [reader_bind, reader_bind]
  cases hk : p.reader.current.kind with
  | mark m =>
    have hadvance := goes_advance hts hp (by simp [Parser.kind, hk])
    cases m with
    | openParen =>
      refine bind_alike hadvance rfl fun opened q hq _ hlt => ?_
      refine bind_alike (hplacing.items .closeParen .openParen opened.span hq (.nil (Nat.le_refl _)))
        (ih.items _ _ _ _ ⟨hq, by omega⟩) fun args r hr hle _ => ?_
      rw [spanFrom_bind, spanFrom_bind]
      exact ih.postfixes _ ⟨hr, by omega⟩
    | openBracket =>
      refine bind_alike hadvance rfl fun opened q hq _ hlt => ?_
      refine bind_alike (hplacing.expr hq) (ih.expr ⟨hq, by omega⟩) fun index r hr hle _ => ?_
      refine bind_alike (goes_expectClosing hts hr _ _ _) rfl fun _ s hs hle' _ => ?_
      rw [spanFrom_bind, spanFrom_bind]
      exact ih.postfixes _ ⟨hs, by omega⟩
    | _ => rfl
  | _ => rfl

theorem primary_succ (hp : Enough ts (n + 1) 2 p) : g.step.primary p = (ofFuel n).step.primary p := by
  obtain ⟨hp, hbound⟩ := hp
  unfold step
  dsimp only
  rw [reader_bind, reader_bind]
  cases p.reader.current.kind.expr? p.reader.current.span with
  | some e => rfl
  | none =>
    cases hk : p.reader.current.kind with
    | mark m =>
      have hadvance := goes_advance hts hp (by simp [Parser.kind, hk])
      cases m with
      | openParen =>
        dsimp only
        rw [discard_bind, discard_bind]
        refine bind_alike hadvance rfl fun _ q hq _ hlt => ?_
        exact bind_alike (hplacing.expr hq) (ih.expr ⟨hq, by omega⟩) fun _ _ _ _ _ => rfl
      | openBracket =>
        dsimp only
        rw [discard_bind, discard_bind]
        refine bind_alike hadvance rfl fun _ q hq _ hlt => ?_
        exact bind_alike (hplacing.items _ _ _ hq (.nil (Nat.le_refl _)))
          (ih.items _ _ _ _ ⟨hq, by omega⟩) fun _ _ _ _ _ => rfl
      | openBrace =>
        dsimp only
        rw [discard_bind, discard_bind]
        refine bind_alike hadvance rfl fun _ q hq _ hlt => ?_
        exact bind_alike (hplacing.pairs _ hq (.nil (Nat.le_refl _)))
          (ih.pairs _ _ ⟨hq, by omega⟩) fun _ _ _ _ _ => rfl
      | _ => rfl
    | keyword w =>
      cases w with
      | cond => exact ih.cond ⟨hp, by omega⟩ hk
      | function => exact ih.function ⟨hp, by omega⟩ hk
      | _ => rfl
    | _ => rfl

theorem items_succ (close delimiter : Mark) (opened : Span) (found : List Expr)
    (hp : Enough ts (n + 1) 6 p) :
    g.step.items close delimiter opened found p =
      (ofFuel n).step.items close delimiter opened found p := by
  obtain ⟨hp, hbound⟩ := hp
  unfold step
  dsimp only
  rw [reader_bind, reader_bind]
  refine ite_alike rfl ?_
  refine bind_alike (hplacing.expr hp) (ih.expr ⟨hp, by omega⟩) fun e q hq _ he => ?_
  have hlt := he.lt
  refine bind_alike (goes_eat hts hq .comma) rfl fun _ r hr hle _ => ite_alike ?_ rfl
  exact ih.items _ _ _ _ ⟨hr, by omega⟩

theorem pairs_succ (opened : Span) (found : List (Expr × Expr)) (hp : Enough ts (n + 1) 6 p) :
    g.step.pairs opened found p = (ofFuel n).step.pairs opened found p := by
  obtain ⟨hp, hbound⟩ := hp
  unfold step
  dsimp only
  rw [reader_bind, reader_bind]
  refine ite_alike rfl ?_
  refine bind_alike (hplacing.expr hp) (ih.expr ⟨hp, by omega⟩) fun key q hq _ hkey => ?_
  have hlt := hkey.lt
  rw [discard_bind, discard_bind]
  refine bind_alike (goes_expect hts hq .colon) rfl fun _ r hr hle _ => ?_
  refine bind_alike (hplacing.expr hr) (ih.expr ⟨hr, by omega⟩) fun value s hs hle' _ => ?_
  refine bind_alike (goes_eat hts hs .comma) rfl fun _ t ht hle'' _ => ite_alike ?_ rfl
  exact ih.pairs _ _ ⟨ht, by omega⟩

theorem condition {α : Type} {f f' : Expr → Block → Parse α} (hp : p.Placed ts)
    (hbound : 10 * ts.length ≤ n + 10 * p.position)
    (hf : ∀ c b q, q.Placed ts → p.position ≤ q.position → f' c b q = f c b q) :
    (do
      let opened ← expect .openParen
      let condition ← g.expr
      expectClosing .closeParen .openParen opened
      let body ← g.block
      f' condition body : Parse α) p =
    (do
      let opened ← expect .openParen
      let condition ← (ofFuel n).expr
      expectClosing .closeParen .openParen opened
      let body ← (ofFuel n).block
      f condition body : Parse α) p := by
  refine bind_alike (goes_expect hts hp .openParen) rfl fun opened q hq _ hlt => ?_
  refine bind_alike (hplacing.expr hq) (ih.expr ⟨hq, by omega⟩) fun c r hr hle _ => ?_
  refine bind_alike (goes_expectClosing hts hr _ _ _) rfl fun _ s hs hle' _ => ?_
  refine bind_alike (hplacing.block hs) (ih.block ⟨hs, by omega⟩) fun b t ht hle'' _ => ?_
  exact hf c b t ht (by omega)

theorem cond_succ (hp : Enough ts (n + 1) 1 p) (hk : p.kind = .keyword .cond) :
    g.step.cond p = (ofFuel n).step.cond p := by
  obtain ⟨hp, hbound⟩ := hp
  unfold step
  dsimp only
  refine bind_alike (goes_advance hts hp (by simp [hk])) rfl fun _ q hq _ hlt => ?_
  refine condition hts hplacing ih hq (by omega) fun c b r hr hle => ?_
  refine bind_alike (goes_eatKeyword hts hr _) rfl fun _ s hs hle' _ => ite_alike ?_ rfl
  rw [reader_bind, reader_bind]
  by_cases hcond : s.reader.atKeyword .cond = true
  · rw [if_pos hcond, if_pos hcond]
    exact bind_alike (hplacing.cond hs (TokenReader.atKeyword_iff.mp hcond))
      (ih.cond ⟨hs, by omega⟩ (TokenReader.atKeyword_iff.mp hcond)) fun _ _ _ _ _ => rfl
  · rw [if_neg hcond, if_neg hcond]
    exact bind_alike (hplacing.block hs) (ih.block ⟨hs, by omega⟩) fun _ _ _ _ _ => rfl

theorem function_succ (hp : Enough ts (n + 1) 1 p) (hk : p.kind = .keyword .function) :
    g.step.function p = (ofFuel n).step.function p := by
  obtain ⟨hp, hbound⟩ := hp
  unfold step
  dsimp only
  refine bind_alike (goes_advance hts hp (by simp [hk])) rfl fun _ q hq _ hlt => ?_
  refine bind_alike (goes_expect hts hq _) rfl fun opened r hr hle _ => ?_
  refine bind_alike (goes_params hts n hr (.nil (Nat.le_refl _))) (ih.params _ ⟨hr, by omega⟩)
    fun names s hs hle' _ => ?_
  refine bind_alike (goes_expectClosing hts hs _ _ _) rfl fun _ t ht hle'' _ => ?_
  exact bind_alike (hplacing.block ht) (ih.block ⟨ht, by omega⟩) fun _ _ _ _ _ => rfl

theorem block_succ (hp : Enough ts (n + 1) 1 p) : g.step.block p = (ofFuel n).step.block p := by
  obtain ⟨hp, hbound⟩ := hp
  unfold step
  dsimp only
  refine bind_alike (goes_expect hts hp _) rfl fun opened q hq _ hlt => ?_
  exact bind_alike (hplacing.statements true hq (.nil (Nat.le_refl _)))
    (ih.statements _ _ ⟨hq, by omega⟩) fun _ _ _ _ _ => rfl

theorem statements_succ (inBlock : Bool) (found : List Stmt) (hp : Enough ts (n + 1) 8 p) :
    g.step.statements inBlock found p = (ofFuel n).step.statements inBlock found p := by
  obtain ⟨hp, hbound⟩ := hp
  unfold step
  dsimp only
  rw [reader_bind, reader_bind]
  by_cases hstop : (p.reader.atEnd || inBlock && p.reader.atMark .closeBrace) = true
  · rw [if_pos hstop, if_pos hstop]
  · have hk : p.kind ≠ .eof := fun heof => hstop (by simp [TokenReader.atEnd_iff.mpr heof])
    obtain ⟨hnext, hposition⟩ := hp.next hts hk
    rw [if_neg hstop, if_neg hstop, eat_bind, eat_bind]
    split
    · exact ih.statements _ _ ⟨hnext, by omega⟩
    · have hstmt : Goes ts 1 (ofFuel n).stmt p fun s j => Node.Stands ts (.stmt s) p.position j :=
        hplacing.stmt hp
      unfold Goes Gives at hstmt
      rw [if_neg Bool.false_ne_true, if_neg Bool.false_ne_true, observing_bind, observing_bind,
        ih.stmt ⟨hp, by omega⟩]
      rcases hs : (ofFuel n).stmt p with ⟨e | s, q⟩ <;> rw [hs] at hstmt
      · obtain ⟨hmoves, hlt⟩ := hstmt.1.recover hts hp hk hstmt.2
        exact ih.statements (p := ⟨q.reader.recover p.position, q.errors.push e⟩) _ _
          ⟨hmoves.placed, by change _ ≤ n + 10 * (q.reader.recover p.position).position; omega⟩
      · have hlt : p.position < q.position := hstmt.2.lt
        exact ih.statements (p := q) _ _ ⟨hstmt.1.placed, by omega⟩

theorem stmt_succ (hp : Enough ts (n + 1) 7 p) : g.step.stmt p = (ofFuel n).step.stmt p := by
  obtain ⟨hp, hbound⟩ := hp
  unfold step
  dsimp only
  rw [reader_bind, reader_bind]
  cases hk : p.reader.current.kind with
  | keyword w =>
    cases w with
    | whileLoop => exact ih.whileLoop ⟨hp, by omega⟩ hk
    | forLoop => exact ih.forLoop ⟨hp, by omega⟩ hk
    | ret =>
      dsimp only
      rw [discard_bind, discard_bind]
      refine bind_alike (goes_advance hts hp (by simp [Parser.kind, hk])) rfl fun _ q hq _ hlt => ?_
      rw [reader_bind, reader_bind]
      exact clause_alike hq (hplacing.expr hq) (ih.expr ⟨hq, by omega⟩) fun _ _ _ _ => rfl
    | breakLoop => rfl
    | continueLoop => rfl
    | _ => exact bind_alike (hplacing.simple hp) (ih.simple ⟨hp, by omega⟩) fun _ _ _ _ _ => rfl
  | _ => exact bind_alike (hplacing.simple hp) (ih.simple ⟨hp, by omega⟩) fun _ _ _ _ _ => rfl

theorem simple_succ (hp : Enough ts (n + 1) 6 p) : g.step.simple p = (ofFuel n).step.simple p := by
  obtain ⟨hp, hbound⟩ := hp
  unfold step
  dsimp only
  rw [reader_bind, reader_bind]
  refine bind_alike (goes_eatKeyword hts hp _) rfl fun _ q hq hle _ => ite_alike ?_ ?_
  · refine bind_alike (goes_expectIdent hts hq) rfl fun name r hr _ hlt => ?_
    rw [discard_bind, discard_bind]
    refine bind_alike (goes_expect hts hr _) rfl fun _ s hs hle' _ => ?_
    exact bind_alike (hplacing.expr hs) (ih.expr ⟨hs, by omega⟩) fun _ _ _ _ _ => rfl
  · exact bind_alike (hplacing.expr hq) (ih.expr ⟨hq, by omega⟩) fun _ _ _ _ _ => rfl

theorem whileLoop_succ (hp : Enough ts (n + 1) 1 p) (hk : p.kind = .keyword .whileLoop) :
    g.step.whileLoop p = (ofFuel n).step.whileLoop p := by
  obtain ⟨hp, hbound⟩ := hp
  unfold step
  dsimp only
  refine bind_alike (goes_advance hts hp (by simp [hk])) rfl fun _ q hq _ hlt => ?_
  exact condition hts hplacing ih hq (by omega) fun _ _ _ _ _ => rfl

theorem forLoop_succ (hp : Enough ts (n + 1) 1 p) (hk : p.kind = .keyword .forLoop) :
    g.step.forLoop p = (ofFuel n).step.forLoop p := by
  obtain ⟨hp, hbound⟩ := hp
  unfold step
  dsimp only
  refine bind_alike (goes_advance hts hp (by simp [hk])) rfl fun _ q hq _ hlt => ?_
  refine bind_alike (goes_expect hts hq _) rfl fun opened r hr hle _ => ?_
  rw [reader_bind, reader_bind]
  refine clause_alike hr (hplacing.simple hr) (ih.simple ⟨hr, by omega⟩) fun init p₁ h₁ hle₁ => ?_
  rw [discard_bind, discard_bind]
  refine bind_alike (goes_expect hts h₁ _) rfl fun _ p₂ h₂ hle₂ _ => ?_
  rw [reader_bind, reader_bind]
  refine clause_alike h₂ (hplacing.expr h₂) (ih.expr ⟨h₂, by omega⟩) fun c p₃ h₃ hle₃ => ?_
  rw [discard_bind, discard_bind]
  refine bind_alike (goes_expect hts h₃ _) rfl fun _ p₄ h₄ hle₄ _ => ?_
  rw [reader_bind, reader_bind]
  refine clause_alike h₄ (hplacing.expr h₄) (ih.expr ⟨h₄, by omega⟩) fun update p₅ h₅ hle₅ => ?_
  refine bind_alike (goes_expectClosing hts h₅ _ _ _) rfl fun _ p₆ h₆ hle₆ _ => ?_
  exact bind_alike (hplacing.block h₆) (ih.block ⟨h₆, by omega⟩) fun _ _ _ _ _ => rfl

end Cases

/-- What a grammar does with enough steps does not depend on the grammar. -/
theorem iterate (hts : Token.Stream ts) (g : Grammar) (n : Nat) :
    Agrees ts n (step^[n] g) (ofFuel n) := by
  induction n with
  | zero => exact .zero _ _
  | succ n ih =>
    have hplacing := Placing.all hts n
    rw [Function.iterate_succ_apply', ofFuel_succ]
    constructor
    · exact fun found hp => params_succ hts ih found hp
    · exact fun hp => expr_succ hts hplacing ih hp
    · exact fun least hp => operand_succ hplacing ih least hp
    · exact fun least left hp => operators_succ hts hplacing ih least left hp
    · exact fun hp => unary_succ hts hplacing ih hp
    · exact fun e hp => postfixes_succ hts hplacing ih e hp
    · exact fun hp => primary_succ hts hplacing ih hp
    · exact fun close delimiter opened found hp =>
        items_succ hts hplacing ih close delimiter opened found hp
    · exact fun opened found hp => pairs_succ hts hplacing ih opened found hp
    · exact fun hp hk => cond_succ hts hplacing ih hp hk
    · exact fun hp hk => function_succ hts hplacing ih hp hk
    · exact fun hp => block_succ hts hplacing ih hp
    · exact fun inBlock found hp => statements_succ hts hplacing ih inBlock found hp
    · exact fun hp => stmt_succ hts hplacing ih hp
    · exact fun hp => simple_succ hts hplacing ih hp
    · exact fun hp hk => whileLoop_succ hts hplacing ih hp hk
    · exact fun hp hk => forLoop_succ hts hplacing ih hp hk

end Agrees

end StackScript.Parse
