import StackScript.Diagnostic.Basic

/-! # Lexical errors -/

namespace StackScript

namespace LexError

inductive Cause
  /-- A character that starts no token. -/
  | invalidToken (text : String)
  /-- A string literal without a closing quote on its line. -/
  | unterminatedString
  /-- An integer literal past the largest 64-bit integer. -/
  | integerTooLarge (text : String)
deriving DecidableEq, Repr

end LexError

structure LexError where
  cause : LexError.Cause
  span : Span
deriving DecidableEq, Repr

namespace LexError

def Cause.code : Cause → ErrorCode
  | invalidToken _ => .invalidToken
  | unterminatedString => .unterminatedString
  | integerTooLarge _ => .integerTooLarge

def Cause.message : Cause → String
  | invalidToken text => s!"invalid token `{text}`"
  | unterminatedString => "unterminated string literal"
  | integerTooLarge text => s!"integer literal `{text}` is too large"

/-- The text under the underlined source. -/
def Cause.hint : Cause → String
  | invalidToken _ => "not a valid token"
  | unterminatedString => "string starts here"
  | integerTooLarge _ => "exceeds 9223372036854775807"

def message (e : LexError) : String := e.cause.message

def diagnostic (e : LexError) : Diagnostic :=
  Diagnostic.mark ⟨e.cause.code, e.message, [], []⟩ e.span e.cause.hint

end LexError

end StackScript
