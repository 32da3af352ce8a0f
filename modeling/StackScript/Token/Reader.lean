import StackScript.Token.Basic

/-! # Reading tokens

A position in a list of tokens. The token at the end of the source is never passed.
-/

namespace StackScript

/-- The unread tokens, the span of the last token read and how many have been read. -/
structure TokenReader where
  rest : List Token
  previous : Span := Span.nowhere
  position : Nat := 0

namespace TokenReader

def current (r : TokenReader) : Token :=
  match r.rest with
  | t :: _ => t
  | [] => ⟨.eof, Span.nowhere⟩

def atEnd (r : TokenReader) : Bool :=
  match r.current.kind with
  | .eof => true
  | _ => false

def atMark (r : TokenReader) (m : Mark) : Bool :=
  match r.current.kind with
  | .mark n => n == m
  | _ => false

def atKeyword (r : TokenReader) (w : Keyword) : Bool :=
  match r.current.kind with
  | .keyword v => v == w
  | _ => false

/-- Pass the current token, unless it is the end. -/
def advance (r : TokenReader) : TokenReader :=
  match r.rest with
  | t :: ts =>
    match t.kind with
    | .eof => r
    | _ => ⟨ts, t.span, r.position + 1⟩
  | [] => r

/-- From the start of `start` to the end of the last token read. -/
def spanFrom (r : TokenReader) (start : Span) : Span := start.merge r.previous

/-- Whether a token ends the recovery from an error. -/
def isBoundary : Token.Kind → Bool
  | .eof | .mark .closeBrace | .keyword .letBinding | .keyword .ret | .keyword .whileLoop
  | .keyword .forLoop => true
  | _ => false

/-- Skip to the next statement: in front of a boundary, or behind a semicolon. -/
def skipStatement : List Token → Span → Nat → TokenReader
  | [], previous, position => ⟨[], previous, position⟩
  | t :: ts, previous, position =>
    if isBoundary t.kind then ⟨t :: ts, previous, position⟩
    else if t.kind = .mark .semicolon then ⟨ts, t.span, position + 1⟩
    else skipStatement ts t.span (position + 1)

/-- Recover from an error in a statement that began at position `start`. A reader that is still there
passes a token first; one that is past it stays in front of a boundary. -/
def recover (r : TokenReader) (start : Nat) : TokenReader :=
  let r := if r.position = start then r.advance else r
  skipStatement r.rest r.previous r.position

end TokenReader

end StackScript
