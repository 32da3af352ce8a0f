/-! # Escapes in string literals

A backslash and the character after it stand for one character. A pair that is no known escape
stands for itself.
-/

namespace StackScript.Token

/-- The character that a backslash and `c` stand for. -/
def escaped? : Char → Option Char
  | 'n' => some '\n'
  | 'r' => some '\r'
  | 't' => some '\t'
  | '\\' => some '\\'
  | '"' => some '"'
  | '0' => some '\x00'
  | _ => none

/-- Decode the body of a literal, onto the characters decoded so far, last first. -/
def unescapeOnto (decoded : List Char) : List Char → List Char
  | [] => decoded.reverse
  | '\\' :: c :: cs =>
    match escaped? c with
    | some d => unescapeOnto (d :: decoded) cs
    | none => unescapeOnto (c :: '\\' :: decoded) cs
  | c :: cs => unescapeOnto (c :: decoded) cs

def unescape (body : List Char) : List Char := unescapeOnto [] body

end StackScript.Token
