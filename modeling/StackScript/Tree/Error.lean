import StackScript.Token.Basic
import StackScript.Diagnostic.Basic

/-! # Parse errors -/

namespace StackScript

namespace ParseError

inductive Cause
  /-- A certain mark was required. -/
  | unexpectedToken (expected : Mark) (found : Token.Kind)
  | expectedExpression (found : Token.Kind)
  /-- The source ended with a delimiter still open. -/
  | unclosedDelimiter (delimiter : Mark) (openedAt : Span)
  | expectedIdentifier (found : Token.Kind)
deriving DecidableEq, Repr

end ParseError

/-- What went wrong, and the span of the token at which it did. -/
structure ParseError where
  cause : ParseError.Cause
  span : Span
deriving DecidableEq, Repr

namespace ParseError

def Cause.code : Cause → ErrorCode
  | unexpectedToken _ _ => .unexpectedToken
  | expectedExpression _ => .expectedExpression
  | unclosedDelimiter _ _ => .unclosedDelimiter
  | expectedIdentifier _ => .expectedIdentifier

def Cause.message : Cause → String
  | unexpectedToken expected found => s!"expected `{expected.text}`, found {found.describe}"
  | expectedExpression found => s!"expected expression, found {found.describe}"
  | unclosedDelimiter delimiter _ => s!"unclosed delimiter `{delimiter.text}`"
  | expectedIdentifier found => s!"expected identifier, found {found.describe}"

def message (e : ParseError) : String := e.cause.message

def diagnostic (e : ParseError) : Diagnostic :=
  let d : Diagnostic := ⟨e.cause.code, e.message, [], []⟩
  match e.cause with
  | .unclosedDelimiter delimiter openedAt =>
    (d.mark openedAt s!"unclosed `{delimiter.text}`").relate e.span "input ends here"
  | .unexpectedToken expected _ => d.mark e.span s!"expected `{expected.text}`"
  | .expectedExpression _ => d.mark e.span "expected an expression"
  | .expectedIdentifier _ => d.mark e.span "expected a name"

end ParseError

end StackScript
