import StackScript.Proofs.Tree.Steps

/-! # Printing trees

A tree as tokens, with parentheses only where the precedence of the operators asks for them and one
semicolon behind every statement; and a tree without its spans, which is what printing keeps.
-/

namespace StackScript

/-- The binary operators from the loosest to the tightest. Operators in one row bind alike. -/
def BinaryOp.table : List (List BinaryOp) :=
  [[.or], [.and], [.bitOr], [.bitXor], [.bitAnd], [.equal, .notEqual],
    [.less, .lessEqual, .greater, .greaterEqual], [.shiftLeft, .shiftRight], [.add, .sub],
    [.mul, .div, .mod], [.pow]]

/-- Assignment is looser than every operator. -/
def assignLevel : Nat := 1

def BinaryOp.level (op : BinaryOp) : Nat := 2 + table.findIdx (op ∈ ·)

def prefixLevel : Nat := 13

def callLevel : Nat := 14

/-- The least level of a left operand without parentheses: only `**` groups from the right. -/
def BinaryOp.leftLevel : BinaryOp → Nat
  | .pow => BinaryOp.pow.level + 1
  | op => op.level

def BinaryOp.rightLevel : BinaryOp → Nat
  | .pow => BinaryOp.pow.level
  | op => op.level + 1

/-- How tightly an expression holds together. -/
def Expr.level : Expr → Nat
  | .assign _ _ _ => assignLevel
  | .binary op _ _ _ => op.level
  | .unary _ _ _ => prefixLevel
  | .call _ _ _ | .index _ _ _ => callLevel
  | _ => callLevel + 1

/-- Parentheses around what is looser than its place allows. -/
def grouped (least level : Nat) (ks : List Token.Kind) : List Token.Kind :=
  if level < least then .mark .openParen :: ks ++ [.mark .closeParen] else ks

def commas : List (List Token.Kind) → List Token.Kind
  | [] => []
  | [ks] => ks
  | ks :: ls :: rest => ks ++ .mark .comma :: commas (ls :: rest)

mutual

/-- The tokens of an expression where at least the level `least` is asked for. -/
def Expr.print : (least : Nat) → Expr → List Token.Kind
  | _, .int n _ => [.int n]
  | _, .decimal x _ => [.decimal x]
  | _, .str s _ => [.str s]
  | _, .bool true _ => [.keyword .true]
  | _, .bool false _ => [.keyword .false]
  | _, .null _ => [.keyword .null]
  | _, .ident name _ => [.ident name]
  | least, .unary op e _ => grouped least prefixLevel (.mark op.mark :: e.print prefixLevel)
  | least, .binary op left right _ =>
    grouped least op.level
      (left.print op.leftLevel ++ .mark op.mark :: right.print op.rightLevel)
  | _, .cond condition consequence alternative _ =>
    .keyword .cond :: .mark .openParen :: condition.print assignLevel ++
      .mark .closeParen :: consequence.print ++ elsePrint alternative
  | _, .function _ params body _ =>
    .keyword .function :: .mark .openParen :: commas (params.map fun i => [.ident i.name]) ++
      .mark .closeParen :: body.print
  | _, .call callee args _ =>
    callee.print callLevel ++ .mark .openParen :: commas (exprsPrint args) ++ [.mark .closeParen]
  | _, .array items _ => .mark .openBracket :: commas (exprsPrint items) ++ [.mark .closeBracket]
  | _, .hash pairs _ => .mark .openBrace :: commas (pairsPrint pairs) ++ [.mark .closeBrace]
  | _, .index target index _ =>
    target.print callLevel ++
      .mark .openBracket :: index.print assignLevel ++ [.mark .closeBracket]
  | least, .assign target value _ =>
    grouped least assignLevel
      (target.print (assignLevel + 1) ++ .mark .assign :: value.print assignLevel)

def exprsPrint : List Expr → List (List Token.Kind)
  | [] => []
  | e :: es => e.print assignLevel :: exprsPrint es

def pairsPrint : List (Expr × Expr) → List (List Token.Kind)
  | [] => []
  | (key, value) :: ps =>
    (key.print assignLevel ++ .mark .colon :: value.print assignLevel) :: pairsPrint ps

def Block.print : Block → List Token.Kind
  | .mk body _ => .mark .openBrace :: stmtsPrint body ++ [.mark .closeBrace]

def elsePrint : Option Block → List Token.Kind
  | none => []
  | some b => .keyword .otherwise :: b.print

def clausePrint : Option Expr → List Token.Kind
  | none => []
  | some e => e.print assignLevel

def Stmt.print : Stmt → List Token.Kind
  | .bind name value _ =>
    .keyword .letBinding :: .ident name.name :: .mark .assign :: value.print assignLevel
  | .ret value _ => .keyword .ret :: clausePrint value
  | .expr e _ => e.print assignLevel
  | .whileLoop condition body _ =>
    .keyword .whileLoop :: .mark .openParen :: condition.print assignLevel ++
      .mark .closeParen :: body.print
  | .forLoop init condition update body _ =>
    .keyword .forLoop :: .mark .openParen :: initPrint init ++
      .mark .semicolon :: clausePrint condition ++
      .mark .semicolon :: clausePrint update ++ .mark .closeParen :: body.print
  | .breakLoop _ => [.keyword .breakLoop]
  | .continueLoop _ => [.keyword .continueLoop]

def initPrint : Option Stmt → List Token.Kind
  | none => []
  | some s => s.print

def stmtsPrint : List Stmt → List Token.Kind
  | [] => []
  | s :: ss => s.print ++ .mark .semicolon :: stmtsPrint ss

end

def Program.print (program : Program) : List Token.Kind := stmtsPrint program.statements

mutual

/-- Whether an expression can be written down: a function has no name of its own, and a `for` loop
starts with a binding or an expression. -/
def Expr.writable : Expr → Bool
  | .unary _ e _ => e.writable
  | .binary _ left right _ => left.writable && right.writable
  | .cond condition consequence alternative _ =>
    condition.writable && consequence.writable && elseWritable alternative
  | .function name _ body _ => name.isNone && body.writable
  | .call callee args _ => callee.writable && exprsWritable args
  | .array items _ => exprsWritable items
  | .hash ps _ => pairsWritable ps
  | .index target index _ => target.writable && index.writable
  | .assign target value _ => target.writable && value.writable
  | _ => true

def exprsWritable : List Expr → Bool
  | [] => true
  | e :: es => e.writable && exprsWritable es

def pairsWritable : List (Expr × Expr) → Bool
  | [] => true
  | (key, value) :: ps => key.writable && value.writable && pairsWritable ps

def Block.writable : Block → Bool
  | .mk body _ => stmtsWritable body

def elseWritable : Option Block → Bool
  | none => true
  | some b => b.writable

def clauseWritable : Option Expr → Bool
  | none => true
  | some e => e.writable

def Stmt.writable : Stmt → Bool
  | .bind _ value _ => value.writable
  | .ret value _ => clauseWritable value
  | .expr e _ => e.writable
  | .whileLoop condition body _ => condition.writable && body.writable
  | .forLoop init condition update body _ =>
    initWritable init && clauseWritable condition && clauseWritable update && body.writable
  | .breakLoop _ => true
  | .continueLoop _ => true

def initWritable : Option Stmt → Bool
  | none => true
  | some (.bind _ value _) => value.writable
  | some (.expr e _) => e.writable
  | some _ => false

def stmtsWritable : List Stmt → Bool
  | [] => true
  | s :: ss => s.writable && stmtsWritable ss

end

def Program.writable (program : Program) : Bool := stmtsWritable program.statements

def Ident.bare (i : Ident) : Ident := ⟨i.name, Span.nowhere⟩

mutual

def Expr.bare : Expr → Expr
  | .int n _ => .int n Span.nowhere
  | .decimal x _ => .decimal x Span.nowhere
  | .str s _ => .str s Span.nowhere
  | .bool b _ => .bool b Span.nowhere
  | .null _ => .null Span.nowhere
  | .ident name _ => .ident name Span.nowhere
  | .unary op e _ => .unary op e.bare Span.nowhere
  | .binary op left right _ => .binary op left.bare right.bare Span.nowhere
  | .cond condition consequence alternative _ =>
    .cond condition.bare consequence.bare (elseBare alternative) Span.nowhere
  | .function name params body _ => .function name (params.map Ident.bare) body.bare Span.nowhere
  | .call callee args _ => .call callee.bare (exprsBare args) Span.nowhere
  | .array items _ => .array (exprsBare items) Span.nowhere
  | .hash ps _ => .hash (pairsBare ps) Span.nowhere
  | .index target index _ => .index target.bare index.bare Span.nowhere
  | .assign target value _ => .assign target.bare value.bare Span.nowhere

def exprsBare : List Expr → List Expr
  | [] => []
  | e :: es => e.bare :: exprsBare es

def pairsBare : List (Expr × Expr) → List (Expr × Expr)
  | [] => []
  | (key, value) :: ps => (key.bare, value.bare) :: pairsBare ps

def Block.bare : Block → Block
  | .mk body _ => .mk (stmtsBare body) Span.nowhere

def elseBare : Option Block → Option Block
  | none => none
  | some b => some b.bare

def clauseBare : Option Expr → Option Expr
  | none => none
  | some e => some e.bare

def Stmt.bare : Stmt → Stmt
  | .bind name value _ => .bind name.bare value.bare Span.nowhere
  | .ret value _ => .ret (clauseBare value) Span.nowhere
  | .expr e _ => .expr e.bare Span.nowhere
  | .whileLoop condition body _ => .whileLoop condition.bare body.bare Span.nowhere
  | .forLoop init condition update body _ =>
    .forLoop (initBare init) (clauseBare condition) (clauseBare update) body.bare Span.nowhere
  | .breakLoop _ => .breakLoop Span.nowhere
  | .continueLoop _ => .continueLoop Span.nowhere

def initBare : Option Stmt → Option Stmt
  | none => none
  | some s => some s.bare

def stmtsBare : List Stmt → List Stmt
  | [] => []
  | s :: ss => s.bare :: stmtsBare ss

end

def Program.bare (program : Program) : Program := ⟨stmtsBare program.statements⟩

theorem Expr.bare_withSpan (e : Expr) (span : Span) : (e.withSpan span).bare = e.bare := by
  cases e <;> rfl

theorem Stmt.bare_withSpan (s : Stmt) (span : Span) : (s.withSpan span).bare = s.bare := by
  cases s <;> rfl

namespace BinaryOp

theorem level_eq_power (op : BinaryOp) : op.level = op.power := by cases op <;> rfl

theorem rightLevel_eq_rightPower (op : BinaryOp) : op.rightLevel = op.rightPower := by
  cases op <;> rfl

theorem two_le_level (op : BinaryOp) : 2 ≤ op.level := by cases op <;> decide

theorem level_lt_prefixLevel (op : BinaryOp) : op.level < prefixLevel := by cases op <;> decide

theorem level_le_leftLevel (op : BinaryOp) : op.level ≤ op.leftLevel := by cases op <;> decide

theorem two_le_leftLevel (op : BinaryOp) : 2 ≤ op.leftLevel :=
  Nat.le_trans op.two_le_level op.level_le_leftLevel

theorem leftLevel_le_prefixLevel (op : BinaryOp) : op.leftLevel ≤ prefixLevel := by
  cases op <;> decide

theorem level_le_rightLevel (op : BinaryOp) : op.level ≤ op.rightLevel := by cases op <;> decide

theorem two_le_rightLevel (op : BinaryOp) : 2 ≤ op.rightLevel :=
  Nat.le_trans op.two_le_level op.level_le_rightLevel

theorem rightLevel_lt_prefixLevel (op : BinaryOp) : op.rightLevel < prefixLevel := by
  cases op <;> decide

/-- An operator whose left operand may be headed by another one leaves the right operand of that
one alone. -/
theorem level_lt_rightLevel {op inner : BinaryOp} (h : op.leftLevel ≤ inner.level) :
    op.level < inner.rightLevel := by
  cases op <;> cases inner <;> first | decide | exact absurd h (by decide)

end BinaryOp

theorem grouped_of_le {least level : Nat} (h : least ≤ level) (ks : List Token.Kind) :
    grouped least level ks = ks := if_neg (Nat.not_lt.mpr h)

theorem grouped_of_lt {least level : Nat} (h : level < least) (ks : List Token.Kind) :
    grouped least level ks = .mark .openParen :: ks ++ [.mark .closeParen] := if_pos h

namespace Expr

theorem assignLevel_le_level (e : Expr) : assignLevel ≤ e.level := by
  cases e with
  | binary op => exact Nat.le_of_succ_le op.two_le_level
  | _ => exact Nat.le_of_ble_eq_true rfl

theorem level_lt_or_two_le (e : Expr) {least : Nat} (h : 2 ≤ least) :
    e.level < least ∨ 2 ≤ e.level := by omega

/-- Whatever its place asks for, an expression is printed as it stands alone, or in parentheses. -/
theorem print_eq_grouped (e : Expr) {least : Nat} (h : least ≤ callLevel) :
    e.print least = grouped least e.level (e.print assignLevel) := by
  have hatom : least ≤ callLevel + 1 := Nat.le_succ_of_le h
  cases e with
  | unary op e => simp only [print, level, grouped_of_le (by decide : assignLevel ≤ prefixLevel)]
  | binary op l r =>
    simp only [print, level, grouped_of_le (Nat.le_of_succ_le op.two_le_level : assignLevel ≤ op.level)]
  | assign t v => simp only [print, level, grouped_of_le (Nat.le_refl assignLevel)]
  | call | index => simp only [print, level, grouped_of_le h]
  | bool b => cases b <;> simp only [print, level, grouped_of_le hatom]
  | _ => simp only [print, level, grouped_of_le hatom]

theorem print_of_le {e : Expr} {least : Nat} (h : least ≤ e.level) (hc : least ≤ callLevel) :
    e.print least = e.print assignLevel := by
  rw [e.print_eq_grouped hc, grouped_of_le h]

theorem print_of_lt {e : Expr} {least : Nat} (h : e.level < least) (hc : least ≤ callLevel) :
    e.print least = .mark .openParen :: e.print assignLevel ++ [.mark .closeParen] := by
  rw [e.print_eq_grouped hc, grouped_of_lt h]

end Expr

/-- Whether an expression can begin with a token of this kind. -/
def Token.Kind.starts : Token.Kind → Bool
  | .int _ | .decimal _ | .str _ | .ident _ => true
  | .keyword word =>
    match word with
    | .true | .false | .null | .cond | .function => true
    | _ => false
  | .mark m =>
    match m with
    | .openParen | .openBracket | .openBrace | .minus | .bang | .tilde => true
    | _ => false
  | _ => false

/-- An expression begins with a token that can begin one, and not with a prefix operator where a
call or an index may follow. -/
theorem Expr.print_head : (e : Expr) → (least : Nat) → ∃ k ks, e.print least = k :: ks ∧
    k.starts = true ∧ (callLevel ≤ least → k.unaryOp? = none)
  | .int _ _, _ | .decimal _ _, _ | .str _ _, _ | .bool true _, _ | .bool false _, _ | .null _, _
  | .ident _ _, _ | .cond _ _ _ _, _ | .function _ _ _ _, _ | .array _ _, _ | .hash _ _, _ =>
    ⟨_, _, rfl, rfl, fun _ => rfl⟩
  | .unary op e _, least => by
    rw [print]
    by_cases h : prefixLevel < least
    · exact ⟨_, _, grouped_of_lt h _, rfl, fun _ => rfl⟩
    · rw [grouped_of_le (Nat.not_lt.mp h)]
      exact ⟨_, _, rfl, by cases op <;> rfl, fun hc => absurd hc h⟩
  | .binary op left _ _, least => by
    rw [print]
    by_cases h : op.level < least
    · exact ⟨_, _, grouped_of_lt h _, rfl, fun _ => rfl⟩
    · rw [grouped_of_le (Nat.not_lt.mp h)]
      obtain ⟨k, ks, hks, hk, -⟩ := left.print_head op.leftLevel
      refine ⟨k, _, by rw [hks]; rfl, hk, fun hc => ?_⟩
      have := op.level_lt_prefixLevel
      exact absurd (Nat.lt_of_lt_of_le (Nat.lt_succ_of_lt this) hc) h
  | .assign target _ _, least => by
    rw [print]
    by_cases h : assignLevel < least
    · exact ⟨_, _, grouped_of_lt h _, rfl, fun _ => rfl⟩
    · rw [grouped_of_le (Nat.not_lt.mp h)]
      obtain ⟨k, ks, hks, hk, -⟩ := target.print_head (assignLevel + 1)
      refine ⟨k, _, by rw [hks]; rfl, hk, fun hc => ?_⟩
      exact absurd (Nat.lt_of_lt_of_le (by decide) hc) h
  | .call callee _ _, _ => by
    obtain ⟨k, ks, hks, hk, hop⟩ := callee.print_head callLevel
    exact ⟨k, _, by rw [print, hks]; rfl, hk, fun _ => hop (Nat.le_refl _)⟩
  | .index target _ _, _ => by
    obtain ⟨k, ks, hks, hk, hop⟩ := target.print_head callLevel
    exact ⟨k, _, by rw [print, hks]; rfl, hk, fun _ => hop (Nat.le_refl _)⟩

end StackScript
