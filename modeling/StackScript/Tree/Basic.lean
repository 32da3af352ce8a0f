import StackScript.Source.Span
import StackScript.Tree.Operator

/-! # Programs

Expressions, statements and blocks of the source language, each with its span.
-/

namespace StackScript

structure Ident where
  name : String
  span : Span
deriving DecidableEq, Repr

mutual

inductive Expr where
  | int (value : Int64) (span : Span)
  | decimal (value : Float) (span : Span)
  | str (value : String) (span : Span)
  | bool (value : Bool) (span : Span)
  | null (span : Span)
  | ident (name : String) (span : Span)
  | unary (op : UnaryOp) (operand : Expr) (span : Span)
  | binary (op : BinaryOp) (left right : Expr) (span : Span)
  /-- The value of the taken block, or null. -/
  | cond (condition : Expr) (consequence : Block) (alternative : Option Block) (span : Span)
  | function (name : Option String) (params : List Ident) (body : Block) (span : Span)
  | call (callee : Expr) (args : List Expr) (span : Span)
  | array (items : List Expr) (span : Span)
  | hash (pairs : List (Expr × Expr)) (span : Span)
  | index (target index : Expr) (span : Span)
  | assign (target value : Expr) (span : Span)

inductive Block where
  | mk (statements : List Stmt) (span : Span)

inductive Stmt where
  | bind (name : Ident) (value : Expr) (span : Span)
  | ret (value : Option Expr) (span : Span)
  /-- An expression for its effect. -/
  | expr (value : Expr) (span : Span)
  | whileLoop (condition : Expr) (body : Block) (span : Span)
  | forLoop (init : Option Stmt) (condition update : Option Expr) (body : Block) (span : Span)
  | breakLoop (span : Span)
  | continueLoop (span : Span)

end

namespace Expr

def span : Expr → Span
  | int _ s | decimal _ s | str _ s | bool _ s | null s | ident _ s | unary _ _ s
  | binary _ _ _ s | cond _ _ _ s | function _ _ _ s | call _ _ s | array _ s | hash _ s
  | index _ _ s | assign _ _ s => s

/-- The same expression with another span, such as that of the parentheses around it. -/
def withSpan (s : Span) : Expr → Expr
  | int n _ => int n s
  | decimal x _ => decimal x s
  | str t _ => str t s
  | bool b _ => bool b s
  | null _ => null s
  | ident name _ => ident name s
  | unary op e _ => unary op e s
  | binary op l r _ => binary op l r s
  | cond c t e _ => cond c t e s
  | function name ps b _ => function name ps b s
  | call f as _ => call f as s
  | array es _ => array es s
  | hash ps _ => hash ps s
  | index t i _ => index t i s
  | assign t v _ => assign t v s

end Expr

namespace Block

def statements : Block → List Stmt
  | mk body _ => body

def span : Block → Span
  | mk _ s => s

end Block

def Stmt.span : Stmt → Span
  | bind _ _ s | ret _ s | expr _ s | whileLoop _ _ s | forLoop _ _ _ _ s | breakLoop s
  | continueLoop s => s

/-- The same statement with another span, such as one that covers its semicolon. -/
def Stmt.withSpan (s : Span) : Stmt → Stmt
  | bind name v _ => bind name v s
  | ret v _ => ret v s
  | expr e _ => expr e s
  | whileLoop c b _ => whileLoop c b s
  | forLoop i c u b _ => forLoop i c u b s
  | breakLoop _ => breakLoop s
  | continueLoop _ => continueLoop s

structure Program where
  statements : List Stmt

end StackScript
