import StackScript.Source.Span
import StackScript.Text.Quoted
import StackScript.Decimal.Notation

/-! # Tokens

What the lexer makes of the source: literals with their values, names, keywords and marks.
-/

namespace StackScript

inductive Keyword
  | letBinding | function | cond | otherwise | ret | whileLoop | forLoop | breakLoop | continueLoop
  | true | false | null
deriving DecidableEq, Repr

namespace Keyword

def text : Keyword → String
  | letBinding => "let"
  | function => "fn"
  | cond => "if"
  | otherwise => "else"
  | ret => "return"
  | whileLoop => "while"
  | forLoop => "for"
  | breakLoop => "break"
  | continueLoop => "continue"
  | true => "true"
  | false => "false"
  | null => "null"

def name : Keyword → String
  | letBinding => "Let"
  | function => "Fn"
  | cond => "If"
  | otherwise => "Else"
  | ret => "Return"
  | whileLoop => "While"
  | forLoop => "For"
  | breakLoop => "Break"
  | continueLoop => "Continue"
  | true => "True"
  | false => "False"
  | null => "Null"

def all : List Keyword :=
  [letBinding, function, cond, otherwise, ret, whileLoop, forLoop, breakLoop, continueLoop,
    true, false, null]

def ofText? (s : String) : Option Keyword := all.find? (·.text == s)

end Keyword

inductive Mark
  | plus | minus | star | starStar | slash | percent
  | amp | ampAmp | pipe | pipePipe | caret | tilde | shiftLeft | shiftRight
  | bang | assign | equal | notEqual | less | lessEqual | greater | greaterEqual
  | comma | semicolon | colon | openParen | closeParen | openBrace | closeBrace
  | openBracket | closeBracket
deriving DecidableEq, Repr

namespace Mark

def text : Mark → String
  | plus => "+"
  | minus => "-"
  | star => "*"
  | starStar => "**"
  | slash => "/"
  | percent => "%"
  | amp => "&"
  | ampAmp => "&&"
  | pipe => "|"
  | pipePipe => "||"
  | caret => "^"
  | tilde => "~"
  | shiftLeft => "<<"
  | shiftRight => ">>"
  | bang => "!"
  | assign => "="
  | equal => "=="
  | notEqual => "!="
  | less => "<"
  | lessEqual => "<="
  | greater => ">"
  | greaterEqual => ">="
  | comma => ","
  | semicolon => ";"
  | colon => ":"
  | openParen => "("
  | closeParen => ")"
  | openBrace => "\x7b"
  | closeBrace => "\x7d"
  | openBracket => "["
  | closeBracket => "]"

def name : Mark → String
  | plus => "Plus"
  | minus => "Minus"
  | star => "Star"
  | starStar => "StarStar"
  | slash => "Slash"
  | percent => "Percent"
  | amp => "Amp"
  | ampAmp => "AmpAmp"
  | pipe => "Pipe"
  | pipePipe => "PipePipe"
  | caret => "Caret"
  | tilde => "Tilde"
  | shiftLeft => "Shl"
  | shiftRight => "Shr"
  | bang => "Bang"
  | assign => "Eq"
  | equal => "EqEq"
  | notEqual => "NotEq"
  | less => "Lt"
  | lessEqual => "LtEq"
  | greater => "Gt"
  | greaterEqual => "GtEq"
  | comma => "Comma"
  | semicolon => "Semicolon"
  | colon => "Colon"
  | openParen => "LParen"
  | closeParen => "RParen"
  | openBrace => "LBrace"
  | closeBrace => "RBrace"
  | openBracket => "LBracket"
  | closeBracket => "RBracket"

end Mark

namespace Token

inductive Kind
  | int (value : Int64)
  | decimal (value : Float)
  | str (value : String)
  | ident (name : String)
  | keyword (word : Keyword)
  | mark (sign : Mark)
  | error
  | eof
deriving DecidableEq, Repr

namespace Kind

def text : Kind → String
  | int n => toString n.toInt
  | decimal x => Decimal.tokenText x
  | str s => Quoted.quote s
  | ident name => name
  | keyword word => word.text
  | mark m => m.text
  | error => "<error>"
  | eof => "<eof>"

/-- How parse errors speak of a token. -/
def describe : Kind → String
  | int n => s!"integer `{n.toInt}`"
  | decimal x => s!"decimal `{Decimal.tokenText x}`"
  | str _ => "string literal"
  | ident name => s!"identifier `{name}`"
  | error => "invalid token"
  | eof => "end of file"
  | kind => s!"`{kind.text}`"

def name : Kind → String
  | int _ => "Int"
  | decimal _ => "Decimal"
  | str _ => "Str"
  | ident _ => "Ident"
  | keyword word => word.name
  | mark m => m.name
  | error => "Error"
  | eof => "Eof"

/-- A kind with its payload, as token listings show it. -/
def listing (kind : Kind) : String :=
  match kind with
  | int n => s!"Int({n.toInt})"
  | decimal x => s!"Decimal({Decimal.text x})"
  | str s => s!"Str({Quoted.quote s})"
  | ident name => s!"Ident({Quoted.quote name})"
  | kind => kind.name

end Kind

end Token

structure Token where
  kind : Token.Kind
  span : Span
deriving DecidableEq, Repr

end StackScript
