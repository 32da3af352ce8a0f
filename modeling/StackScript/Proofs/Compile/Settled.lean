import StackScript.Tree.Basic

/-! # Settled programs

A `for` is compiled with its last clause behind the body, whose names are visible there; `continue`
leads to that clause past a part of the body. In a settled program no last clause reads a name that the
body binds in such a part.
-/

namespace StackScript

mutual

/-- Whether a `continue` in an expression leads to the loop around it. -/
def Expr.continues : Expr → Bool
  | .unary _ e _ => e.continues
  | .binary _ left right _ => left.continues || right.continues
  | .cond condition consequence alternative _ =>
    condition.continues || consequence.continues || elseContinues alternative
  | .call callee args _ => callee.continues || exprsContinue args
  | .array items _ => exprsContinue items
  | .hash ps _ => pairsContinue ps
  | .index target index _ => target.continues || index.continues
  | .assign target value _ => target.continues || value.continues
  | _ => false

def exprsContinue : List Expr → Bool
  | [] => false
  | e :: es => e.continues || exprsContinue es

def pairsContinue : List (Expr × Expr) → Bool
  | [] => false
  | (key, value) :: ps => key.continues || value.continues || pairsContinue ps

def Block.continues : Block → Bool
  | .mk body _ => stmtsContinue body

def elseContinues : Option Block → Bool
  | none => false
  | some b => b.continues

def clauseContinues : Option Expr → Bool
  | none => false
  | some e => e.continues

/-- The body of an inner loop has its own `continue`, but its clauses belong to the loop around. -/
def Stmt.continues : Stmt → Bool
  | .bind _ value _ => value.continues
  | .ret value _ => clauseContinues value
  | .expr e _ => e.continues
  | .whileLoop condition _ _ => condition.continues
  | .forLoop init condition update _ _ =>
    initContinues init || clauseContinues condition || clauseContinues update
  | .breakLoop _ => false
  | .continueLoop _ => true

def initContinues : Option Stmt → Bool
  | none => false
  | some st => st.continues

def stmtsContinue : List Stmt → Bool
  | [] => false
  | st :: ss => st.continues || stmtsContinue ss

end

def Stmt.bound? : Stmt → Option String
  | .bind name _ _ => some name.name
  | _ => none

/-- The names that the body of a loop binds only behind a `continue`. -/
def lateNames (body : List Stmt) : List String :=
  (body.dropWhile fun st => !st.continues).filterMap Stmt.bound?

/-- Whether an expression that `let` binds to `name` is no function literal of another name. -/
def Expr.goesBy (name : String) : Expr → Bool
  | .function own _ _ _ => own.all (· == name)
  | _ => true

mutual

/-- Whether an expression reads none of the names `late`, and the last clauses of the loops in it
read no late names of their bodies. A function literal captures whatever is visible. -/
def Expr.settled (late : List String) : Expr → Bool
  | .ident name _ => !late.contains name
  | .unary _ e _ => e.settled late
  | .binary _ left right _ => left.settled late && right.settled late
  | .cond condition consequence alternative _ =>
    condition.settled late && consequence.settled late && elseSettled late alternative
  | .function _ _ body _ => late.isEmpty && body.settled late
  | .call callee args _ => callee.settled late && exprsSettled late args
  | .array items _ => exprsSettled late items
  | .hash ps _ => pairsSettled late ps
  | .index target index _ => target.settled late && index.settled late
  | .assign (.ident _ _) value _ => value.settled late
  | .assign target value _ => target.settled late && value.settled late
  | _ => true

def exprsSettled (late : List String) : List Expr → Bool
  | [] => true
  | e :: es => e.settled late && exprsSettled late es

def pairsSettled (late : List String) : List (Expr × Expr) → Bool
  | [] => true
  | (key, value) :: ps => key.settled late && value.settled late && pairsSettled late ps

def Block.settled (late : List String) : Block → Bool
  | .mk body _ => stmtsSettled late body

def elseSettled (late : List String) : Option Block → Bool
  | none => true
  | some b => b.settled late

def clauseSettled (late : List String) : Option Expr → Bool
  | none => true
  | some e => e.settled late

def Stmt.settled (late : List String) : Stmt → Bool
  | .bind name value _ => value.goesBy name.name && value.settled late
  | .ret value _ => clauseSettled late value
  | .expr e _ => e.settled late
  | .whileLoop condition body _ => condition.settled late && body.settled late
  | .forLoop init condition update body _ =>
    initSettled late init && clauseSettled late condition && body.settled late &&
      clauseSettled (late ++ lateNames body.statements) update
  | .breakLoop _ => true
  | .continueLoop _ => true

def initSettled (late : List String) : Option Stmt → Bool
  | none => true
  | some st => st.settled late

def stmtsSettled (late : List String) : List Stmt → Bool
  | [] => true
  | st :: ss => st.settled late && stmtsSettled late ss

end

/-- Whether the last clause of every loop reads only names that are bound before any `continue` of its
body. -/
def Program.settled (p : Program) : Bool := stmtsSettled [] p.statements

end StackScript
