import StackScript.Text.Quoted
import StackScript.Decimal.Notation
import StackScript.Tree.Basic

/-! # Tree listings

The indented text that shows a parsed statement with every field and span.
-/

namespace StackScript

/-- A nested listing: a text, named fields, or items between two brackets. -/
inductive Outline where
  | leaf (text : String)
  | fields (name : String) (fields : List (String × Outline))
  | items (first last : String) (items : List Outline)

namespace Outline

def indent (depth : Nat) : String := String.ofList (List.replicate (4 * depth) ' ')

mutual

def text (depth : Nat) : Outline → String
  | leaf s => s
  | fields name fs => name ++ " \x7b\n" ++ fieldsText (depth + 1) fs ++ indent depth ++ "\x7d"
  | items first last [] => first ++ last
  | items first last (i :: is) =>
    first ++ "\n" ++ itemsText (depth + 1) (i :: is) ++ indent depth ++ last

def fieldsText (depth : Nat) : List (String × Outline) → String
  | [] => ""
  | (name, o) :: fs => indent depth ++ name ++ ": " ++ text depth o ++ ",\n" ++ fieldsText depth fs

def itemsText (depth : Nat) : List Outline → String
  | [] => ""
  | o :: os => indent depth ++ text depth o ++ ",\n" ++ itemsText depth os

end

/-- A name applied to items in parentheses. -/
def apply (name : String) (os : List Outline) : Outline := items (name ++ "(") ")" os

def list (os : List Outline) : Outline := items "[" "]" os

def option : Option Outline → Outline
  | none => leaf "None"
  | some o => apply "Some" [o]

def quoted (s : String) : Outline := leaf (Quoted.quote s)

def spanned (name : String) (kind : Outline) (span : Span) : Outline :=
  fields name [("kind", kind), ("span", leaf span.text)]

end Outline

def Ident.outline (i : Ident) : Outline :=
  .fields "Ident" [("name", .quoted i.name), ("span", .leaf i.span.text)]

mutual

def Expr.outline : Expr → Outline
  | .int n s => .spanned "Expr" (.apply "Int" [.leaf (toString n.toInt)]) s
  | .decimal x s => .spanned "Expr" (.apply "Decimal" [.leaf (Decimal.text x)]) s
  | .str t s => .spanned "Expr" (.apply "Str" [.quoted t]) s
  | .bool b s => .spanned "Expr" (.apply "Bool" [.leaf (toString b)]) s
  | .null s => .spanned "Expr" (.leaf "Null") s
  | .ident name s => .spanned "Expr" (.apply "Ident" [.quoted name]) s
  | .unary op e s =>
    .spanned "Expr" (.fields "Unary" [("op", .leaf op.name), ("operand", e.outline)]) s
  | .binary op l r s =>
    .spanned "Expr"
      (.fields "Binary" [("op", .leaf op.name), ("left", l.outline), ("right", r.outline)]) s
  | .cond c t e s =>
    .spanned "Expr" (.fields "If" [("condition", c.outline), ("consequence", t.outline),
      ("alternative", .option (match e with | none => none | some b => some b.outline))]) s
  | .function name ps b s =>
    .spanned "Expr" (.apply "Function" [.fields "FunctionLit"
      [("name", .option (name.map .quoted)), ("params", .list (ps.map Ident.outline)),
        ("body", b.outline)]]) s
  | .call f as s =>
    .spanned "Expr" (.fields "Call" [("callee", f.outline), ("args", .list (exprOutlines as))]) s
  | .array es s => .spanned "Expr" (.apply "Array" [.list (exprOutlines es)]) s
  | .hash ps s => .spanned "Expr" (.apply "Hash" [.list (pairOutlines ps)]) s
  | .index t i s =>
    .spanned "Expr" (.fields "Index" [("target", t.outline), ("index", i.outline)]) s
  | .assign t v s =>
    .spanned "Expr" (.fields "Assign" [("target", t.outline), ("value", v.outline)]) s

def exprOutlines : List Expr → List Outline
  | [] => []
  | e :: es => e.outline :: exprOutlines es

def pairOutlines : List (Expr × Expr) → List Outline
  | [] => []
  | (k, v) :: ps => .apply "" [k.outline, v.outline] :: pairOutlines ps

def Block.outline : Block → Outline
  | .mk body s =>
    .fields "Block" [("statements", .list (stmtOutlines body)), ("span", .leaf s.text)]

def Stmt.outline : Stmt → Outline
  | .bind name v s =>
    .spanned "Stmt" (.fields "Let" [("name", name.outline), ("value", v.outline)]) s
  | .ret v s =>
    .spanned "Stmt"
      (.apply "Return" [.option (match v with | none => none | some e => some e.outline)]) s
  | .expr e s => .spanned "Stmt" (.apply "Expr" [e.outline]) s
  | .whileLoop c b s =>
    .spanned "Stmt" (.fields "While" [("condition", c.outline), ("body", b.outline)]) s
  | .forLoop i c u b s =>
    .spanned "Stmt" (.fields "For"
      [("init", .option (match i with | none => none | some i => some i.outline)),
        ("condition", .option (match c with | none => none | some c => some c.outline)),
        ("update", .option (match u with | none => none | some u => some u.outline)),
        ("body", b.outline)]) s
  | .breakLoop s => .spanned "Stmt" (.leaf "Break") s
  | .continueLoop s => .spanned "Stmt" (.leaf "Continue") s

def stmtOutlines : List Stmt → List Outline
  | [] => []
  | s :: ss => s.outline :: stmtOutlines ss

end

def Stmt.listing (s : Stmt) : String := s.outline.text 0

end StackScript
