import StackScript.Token.Reader
import StackScript.Tree.Basic
import StackScript.Tree.Error

/-! # Parsing

Statements by recursive descent, expressions by binding power. An error in a statement is recorded,
the rest of the statement is skipped, and parsing goes on behind it.
-/

namespace StackScript

structure Parser where
  reader : TokenReader
  errors : Array ParseError := #[]

/-- A parser step: a result, or the error that ends the current statement. -/
abbrev Parse := ExceptT ParseError (StateM Parser)

namespace Parse

def reader : Parse TokenReader := return (← get).reader

def setReader (r : TokenReader) : Parse Unit := modify fun p => { p with reader := r }

def fail {α : Type} (cause : ParseError.Cause) : Parse α := do
  throw ⟨cause, (← reader).current.span⟩

def advance : Parse Token := do
  let r ← reader
  setReader r.advance
  return r.current

def eat (m : Mark) : Parse Bool := do
  let r ← reader
  if r.atMark m then
    setReader r.advance
    return true
  else return false

def eatKeyword (w : Keyword) : Parse Bool := do
  let r ← reader
  if r.atKeyword w then
    setReader r.advance
    return true
  else return false

def expect (m : Mark) : Parse Span := do
  let r ← reader
  if r.atMark m then
    setReader r.advance
    return r.current.span
  else fail (.unexpectedToken m r.current.kind)

/-- Pass the mark that closes the delimiter opened at `openedAt`. -/
def expectClosing (close delimiter : Mark) (openedAt : Span) : Parse Unit := do
  if (← reader).atEnd then fail (.unclosedDelimiter delimiter openedAt)
  else discard (expect close)

def expectIdent : Parse Ident := do
  let token := (← reader).current
  match token.kind with
  | .ident name =>
    discard advance
    return ⟨name, token.span⟩
  | kind => fail (.expectedIdentifier kind)

def noExpression {α : Type} : Parse α := do
  fail (.expectedExpression (← reader).current.kind)

def spanFrom (start : Span) : Parse Span := return (← reader).spanFrom start

/-- Run a step and hand its error back as a value. -/
def observing {α : Type} (step : Parse α) : Parse (Except ParseError α) := fun p =>
  let (result, p) := step p
  (.ok result, p)

def record (e : ParseError) : Parse Unit := modify fun p => { p with errors := p.errors.push e }

end Parse

def Token.Kind.binaryOp? : Token.Kind → Option BinaryOp
  | .mark m =>
    match m with
    | .pipePipe => some .or
    | .ampAmp => some .and
    | .pipe => some .bitOr
    | .caret => some .bitXor
    | .amp => some .bitAnd
    | .equal => some .equal
    | .notEqual => some .notEqual
    | .less => some .less
    | .lessEqual => some .lessEqual
    | .greater => some .greater
    | .greaterEqual => some .greaterEqual
    | .shiftLeft => some .shiftLeft
    | .shiftRight => some .shiftRight
    | .plus => some .add
    | .minus => some .sub
    | .star => some .mul
    | .slash => some .div
    | .percent => some .mod
    | .starStar => some .pow
    | _ => none
  | _ => none

def Token.Kind.unaryOp? : Token.Kind → Option UnaryOp
  | .mark .minus => some .neg
  | .mark .bang => some .not
  | .mark .tilde => some .bitNot
  | _ => none

/-- The expression that a token is by itself. -/
def Token.Kind.expr? (span : Span) : Token.Kind → Option Expr
  | .int n => some (.int n span)
  | .decimal x => some (.decimal x span)
  | .str s => some (.str s span)
  | .ident name => some (.ident name span)
  | .keyword word =>
    match word with
    | .true => some (.bool true span)
    | .false => some (.bool false span)
    | .null => some (.null span)
    | _ => none
  | _ => none

/-- The least power of the right operand of `op`. -/
def BinaryOp.rightPower (op : BinaryOp) : Nat := if op.rightAssoc then op.power else op.power + 1

namespace Parse

/-- Names up to a closing parenthesis, a comma after each but the last. -/
def params : Nat → List Ident → Parse (List Ident)
  | 0, _ => noExpression
  | fuel + 1, found => do
    let r ← reader
    if r.atMark .closeParen || r.atEnd then return found.reverse
    let name ← expectIdent
    if ← eat .comma then params fuel (name :: found)
    else return (name :: found).reverse

mutual

/-- An expression, assignment included. -/
def expr : Nat → Parse Expr
  | 0 => noExpression
  | fuel + 1 => do
    let left ← operand fuel 1
    if ← eat .assign then
      let value ← expr fuel
      return .assign left value (left.span.merge value.span)
    else return left

/-- An expression of operators that bind at least as tightly as `least`. -/
def operand : Nat → (least : Nat) → Parse Expr
  | 0, _ => noExpression
  | fuel + 1, least => do operators fuel least (← unary fuel)

/-- The operators behind `left` that bind at least as tightly as `least`, with their right
operands. -/
def operators : Nat → (least : Nat) → (left : Expr) → Parse Expr
  | 0, _, _ => noExpression
  | fuel + 1, least, left => do
    match (← reader).current.kind.binaryOp? with
    | none => return left
    | some op =>
      if op.power < least then return left
      else
        discard advance
        let right ← operand fuel op.rightPower
        operators fuel least (.binary op left right (left.span.merge right.span))

def unary : Nat → Parse Expr
  | 0 => noExpression
  | fuel + 1 => do
    match (← reader).current.kind.unaryOp? with
    | some op =>
      let start := (← advance).span
      let e ← unary fuel
      return .unary op e (start.merge e.span)
    | none => postfixes fuel (← primary fuel)

/-- The calls and indices behind `e`. -/
def postfixes : Nat → Expr → Parse Expr
  | 0, _ => noExpression
  | fuel + 1, e => do
    match (← reader).current.kind with
    | .mark .openParen =>
      let opened := (← advance).span
      let args ← items fuel .closeParen .openParen opened []
      postfixes fuel (.call e args (← spanFrom e.span))
    | .mark .openBracket =>
      let opened := (← advance).span
      let index ← expr fuel
      expectClosing .closeBracket .openBracket opened
      postfixes fuel (.index e index (← spanFrom e.span))
    | _ => return e

def primary : Nat → Parse Expr
  | 0 => noExpression
  | fuel + 1 => do
    let token := (← reader).current
    let span := token.span
    match token.kind.expr? span with
    | some e =>
      discard advance
      return e
    | none =>
      match token.kind with
      | .mark .openParen =>
        discard advance
        let inner ← expr fuel
        expectClosing .closeParen .openParen span
        return inner.withSpan (← spanFrom span)
      | .mark .openBracket =>
        discard advance
        let es ← items fuel .closeBracket .openBracket span []
        return .array es (← spanFrom span)
      | .mark .openBrace =>
        discard advance
        let ps ← pairs fuel span []
        return .hash ps (← spanFrom span)
      | .keyword .cond => cond fuel
      | .keyword .function => function fuel
      | _ => noExpression

/-- Expressions up to the mark `close`, a comma after each but the last, where one is allowed. -/
def items : Nat → (close delimiter : Mark) → Span → List Expr → Parse (List Expr)
  | 0, _, _, _, _ => noExpression
  | fuel + 1, close, delimiter, opened, found => do
    let r ← reader
    if r.atMark close || r.atEnd then
      expectClosing close delimiter opened
      return found.reverse
    else
      let e ← expr fuel
      if ← eat .comma then items fuel close delimiter opened (e :: found)
      else
        expectClosing close delimiter opened
        return (e :: found).reverse

/-- The keys and values of a hash up to its closing brace. -/
def pairs : Nat → Span → List (Expr × Expr) → Parse (List (Expr × Expr))
  | 0, _, _ => noExpression
  | fuel + 1, opened, found => do
    let r ← reader
    if r.atMark .closeBrace || r.atEnd then
      expectClosing .closeBrace .openBrace opened
      return found.reverse
    else
      let key ← expr fuel
      discard (expect .colon)
      let value ← expr fuel
      if ← eat .comma then pairs fuel opened ((key, value) :: found)
      else
        expectClosing .closeBrace .openBrace opened
        return ((key, value) :: found).reverse

/-- A conditional. An `else if` is an alternative of one statement. -/
def cond : Nat → Parse Expr
  | 0 => noExpression
  | fuel + 1 => do
    let start := (← advance).span
    let opened ← expect .openParen
    let condition ← expr fuel
    expectClosing .closeParen .openParen opened
    let consequence ← block fuel
    if ← eatKeyword .otherwise then
      if (← reader).atKeyword .cond then
        let nested ← cond fuel
        let alternative := Block.mk [.expr nested nested.span] nested.span
        return .cond condition consequence (some alternative) (← spanFrom start)
      else
        let alternative ← block fuel
        return .cond condition consequence (some alternative) (← spanFrom start)
    else return .cond condition consequence none (← spanFrom start)

def function : Nat → Parse Expr
  | 0 => noExpression
  | fuel + 1 => do
    let start := (← advance).span
    let opened ← expect .openParen
    let names ← params fuel []
    expectClosing .closeParen .openParen opened
    let body ← block fuel
    return .function none names body (← spanFrom start)

def block : Nat → Parse Block
  | 0 => noExpression
  | fuel + 1 => do
    let opened ← expect .openBrace
    let body ← statements fuel true []
    expectClosing .closeBrace .openBrace opened
    return .mk body (← spanFrom opened)

/-- Statements up to the end of the source, or in a block up to its closing brace. Errors are
recorded, so that the statements behind them are still parsed. -/
def statements : Nat → (inBlock : Bool) → List Stmt → Parse (List Stmt)
  | 0, _, _ => noExpression
  | fuel + 1, inBlock, found => do
    let r ← reader
    if r.atEnd || (inBlock && r.atMark .closeBrace) then return found.reverse
    else if ← eat .semicolon then statements fuel inBlock found
    else
      match ← observing (stmt fuel) with
      | .ok s => statements fuel inBlock (s :: found)
      | .error e =>
        record e
        setReader ((← reader).recover r.position)
        statements fuel inBlock found

def stmt : Nat → Parse Stmt
  | 0 => noExpression
  | fuel + 1 => do
    let r ← reader
    let start := r.current.span
    match r.current.kind with
    | .keyword .whileLoop => whileLoop fuel
    | .keyword .forLoop => forLoop fuel
    | .keyword .ret =>
      discard advance
      let r ← reader
      let value ←
        if r.atMark .semicolon || r.atMark .closeBrace || r.atEnd then pure none
        else some <$> expr fuel
      discard (eat .semicolon)
      return .ret value (← spanFrom start)
    | .keyword .breakLoop =>
      discard advance
      discard (eat .semicolon)
      return .breakLoop (← spanFrom start)
    | .keyword .continueLoop =>
      discard advance
      discard (eat .semicolon)
      return .continueLoop (← spanFrom start)
    | _ =>
      let s ← simple fuel
      discard (eat .semicolon)
      return s.withSpan (← spanFrom start)

/-- A binding or an expression, without the semicolon. -/
def simple : Nat → Parse Stmt
  | 0 => noExpression
  | fuel + 1 => do
    let start := (← reader).current.span
    if ← eatKeyword .letBinding then
      let name ← expectIdent
      discard (expect .assign)
      let value ← expr fuel
      return .bind name value (← spanFrom start)
    else
      let value ← expr fuel
      return .expr value (← spanFrom start)

def whileLoop : Nat → Parse Stmt
  | 0 => noExpression
  | fuel + 1 => do
    let start := (← advance).span
    let opened ← expect .openParen
    let condition ← expr fuel
    expectClosing .closeParen .openParen opened
    let body ← block fuel
    return .whileLoop condition body (← spanFrom start)

def forLoop : Nat → Parse Stmt
  | 0 => noExpression
  | fuel + 1 => do
    let start := (← advance).span
    let opened ← expect .openParen
    let init ← if (← reader).atMark .semicolon then pure none else some <$> simple fuel
    discard (expect .semicolon)
    let condition ← if (← reader).atMark .semicolon then pure none else some <$> expr fuel
    discard (expect .semicolon)
    let update ← if (← reader).atMark .closeParen then pure none else some <$> expr fuel
    expectClosing .closeParen .openParen opened
    let body ← block fuel
    return .forLoop init condition update body (← spanFrom start)

end

end Parse

/-- A program, and the errors met on the way, in source order. -/
structure Parsed where
  program : Program
  errors : Array ParseError

def Parsed.hasErrors (p : Parsed) : Bool := !p.errors.isEmpty

/-- Parse the tokens of a source. Between two tokens the parser takes fewer than ten steps, so its
fuel does not run out. -/
def parse (tokens : List Token) : Parsed :=
  match (Parse.statements (10 * tokens.length + 10) false []).run ⟨⟨tokens, Span.nowhere, 0⟩, #[]⟩ with
  | (.ok body, p) => ⟨⟨body⟩, p.errors⟩
  | (.error e, p) => ⟨⟨[]⟩, p.errors.push e⟩

end StackScript
