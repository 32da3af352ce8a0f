import StackScript.Token.Basic
import StackScript.Token.Escape
import StackScript.Token.Error
import StackScript.Decimal.Reader

/-! # Lexing

The source is cut into the longest lexemes from left to right, with blanks and comments between
them. A character that starts no lexeme is an error of its own, and lexing goes on behind it.
-/

namespace StackScript.Token

def isLetter (c : Char) : Bool := c.isAlpha || c == '_'

def isWordChar (c : Char) : Bool := c.isAlphanum || c == '_'

/-- Blanks between tokens: space, tab, carriage return, line feed and form feed. -/
def isSpace (c : Char) : Bool :=
  c == ' ' || c == '\t' || c == '\r' || c == '\n' || c == '\x0c'

def byteLength (cs : List Char) : Nat := cs.foldl (fun n c => n + c.utf8Size) 0

/-- Skip blanks and comments; counts the bytes skipped. A comment runs to the end of its line. -/
def skipSpace (comment : Bool) (skipped : Nat) : List Char → Nat × List Char
  | [] => (skipped, [])
  | c :: cs =>
    if comment then skipSpace (c != '\n') (skipped + c.utf8Size) cs
    else if isSpace c then skipSpace false (skipped + c.utf8Size) cs
    else if c == '/' && cs.head? == some '/' then skipSpace true (skipped + c.utf8Size) cs
    else (skipped, c :: cs)

/-- A lexeme: its text, what it means, and the source behind it. -/
structure Lexeme where
  text : List Char
  meaning : Except LexError.Cause Kind
  rest : List Char

/-- The longest mark at the start of a text. -/
def readMark? : List Char → Option Mark
  | [] => none
  | c :: cs =>
    let next := cs.head?
    match c with
    | '+' => some .plus
    | '-' => some .minus
    | '*' => some (if next = some '*' then .starStar else .star)
    | '/' => some .slash
    | '%' => some .percent
    | '&' => some (if next = some '&' then .ampAmp else .amp)
    | '|' => some (if next = some '|' then .pipePipe else .pipe)
    | '^' => some .caret
    | '~' => some .tilde
    | '!' => some (if next = some '=' then .notEqual else .bang)
    | '=' => some (if next = some '=' then .equal else .assign)
    | '<' =>
      some (if next = some '<' then .shiftLeft else if next = some '=' then .lessEqual else .less)
    | '>' =>
      some (if next = some '>' then .shiftRight
        else if next = some '=' then .greaterEqual else .greater)
    | ',' => some .comma
    | ';' => some .semicolon
    | ':' => some .colon
    | '(' => some .openParen
    | ')' => some .closeParen
    | '\x7b' => some .openBrace
    | '\x7d' => some .closeBrace
    | '[' => some .openBracket
    | ']' => some .closeBracket
    | _ => none

/-- A name or a keyword. -/
def readWord (cs : List Char) : Lexeme :=
  let text := cs.takeWhile isWordChar
  let name := String.ofList text
  let kind := match Keyword.ofText? name with
    | some word => Kind.keyword word
    | none => .ident name
  ⟨text, .ok kind, cs.dropWhile isWordChar⟩

/-- The meaning of a run of digits. -/
def integer (digits : List Char) : Except LexError.Cause Kind :=
  let n := Decimal.digitsValue 0 digits
  if n < 1 <<< 63 then .ok (.int (Int64.ofNat n))
  else .error (.integerTooLarge (String.ofList digits))

/-- An integer, or a decimal when a point and a digit follow the first digits. -/
def readNumber (cs : List Char) : Lexeme :=
  let whole := cs.takeWhile Char.isDigit
  match cs.dropWhile Char.isDigit with
  | '.' :: d :: rest =>
    if d.isDigit then
      let fraction := (d :: rest).takeWhile Char.isDigit
      let digits := Decimal.digitsValue (Decimal.digitsValue 0 whole) fraction
      ⟨whole ++ '.' :: fraction, .ok (.decimal (Decimal.ofDigits ⟨digits, -fraction.length⟩)),
        (d :: rest).dropWhile Char.isDigit⟩
    else ⟨whole, integer whole, '.' :: d :: rest⟩
  | rest => ⟨whole, integer whole, rest⟩

/-- The body of a string literal behind its opening quote, onto the characters read so far, last
first. It ends at the closing quote, or without one at the end of the line. -/
def readBody (body : List Char) : List Char → Lexeme
  | '"' :: cs =>
    let body := body.reverse
    ⟨'"' :: body ++ ['"'], .ok (.str (String.ofList (unescape body))), cs⟩
  | '\\' :: c :: cs =>
    if c == '\n' then ⟨'"' :: body.reverse, .error .unterminatedString, '\\' :: c :: cs⟩
    else readBody (c :: '\\' :: body) cs
  | ['\\'] => ⟨'"' :: body.reverse, .error .unterminatedString, ['\\']⟩
  | c :: cs =>
    if c == '\n' then ⟨'"' :: body.reverse, .error .unterminatedString, c :: cs⟩
    else readBody (c :: body) cs
  | [] => ⟨'"' :: body.reverse, .error .unterminatedString, []⟩

def readLexeme (c : Char) (cs : List Char) : Lexeme :=
  if isLetter c then readWord (c :: cs)
  else if c.isDigit then readNumber (c :: cs)
  else if c == '"' then readBody [] cs
  else match readMark? (c :: cs) with
    | some mark =>
      let length := mark.text.length
      ⟨(c :: cs).take length, .ok (.mark mark), (c :: cs).drop length⟩
    | none => ⟨[c], .error (.invalidToken c.toString), cs⟩

/-- The tokens of a source, and the errors in the order in which they were met. -/
structure Lexed where
  tokens : Array Token := #[]
  errors : Array LexError := #[]

namespace Lexed

def hasErrors (l : Lexed) : Bool := !l.errors.isEmpty

def add (l : Lexed) (meaning : Except LexError.Cause Kind) (span : Span) : Lexed :=
  match meaning with
  | .ok kind => { l with tokens := l.tokens.push ⟨kind, span⟩ }
  | .error cause => ⟨l.tokens.push ⟨.error, span⟩, l.errors.push ⟨cause, span⟩⟩

end Lexed

/-- Lex `cs`, the source from `offset` on. Every lexeme takes at least one character, so `fuel` need
only be as large as the number of characters. -/
def scan : (fuel offset : Nat) → Lexed → List Char → Lexed
  | fuel, offset, l, cs =>
    let (skipped, cs) := skipSpace false 0 cs
    let start := offset + skipped
    match fuel, cs with
    | fuel + 1, c :: cs =>
      let lexeme := readLexeme c cs
      let stop := start + byteLength lexeme.text
      scan fuel stop (l.add lexeme.meaning (Span.ofRange start stop)) lexeme.rest
    | _, _ => { l with tokens := l.tokens.push ⟨.eof, Span.point (min start Span.maxOffset)⟩ }

end StackScript.Token

namespace StackScript

/-- Lex a source text. The tokens end with one at the end of the source. -/
def lex (source : String) : Token.Lexed :=
  let cs := source.toList
  Token.scan cs.length 0 {} cs

end StackScript
