import StackScript.Source.Span
import StackScript.Diagnostic.Code

/-! # Diagnostics

The record in which every phase reports a failure: a code, a message, labelled spans and notes.
-/

namespace StackScript

/-- A span and the text under it. A primary label marks the failure, any other related source. -/
structure Label where
  span : Span
  message : String
  primary : Bool
deriving DecidableEq, Repr

structure Diagnostic where
  code : ErrorCode
  message : String
  labels : List Label := []
  notes : List String := []
deriving DecidableEq, Repr

namespace Diagnostic

def mark (d : Diagnostic) (span : Span) (message : String) : Diagnostic :=
  { d with labels := d.labels ++ [⟨span, message, true⟩] }

def relate (d : Diagnostic) (span : Span) (message : String) : Diagnostic :=
  { d with labels := d.labels ++ [⟨span, message, false⟩] }

def note (d : Diagnostic) (text : String) : Diagnostic :=
  { d with notes := d.notes ++ [text] }

def primary? (d : Diagnostic) : Option Span := (d.labels.find? (·.primary)).map (·.span)

def header (d : Diagnostic) : String := s!"error[{d.code.text}]: {d.message}"

end Diagnostic

end StackScript
