import StackScript.Source.Lines
import StackScript.Diagnostic.Basic

/-! # Rendering diagnostics

With a source attached every label becomes a position, the line it falls on and an underline.
Without one it becomes its byte range.
-/

namespace StackScript

inductive ColorMode
  | auto | always | never
deriving DecidableEq, Repr

def ColorMode.enabled (terminal : Bool) : ColorMode → Bool
  | auto => terminal
  | always => true
  | never => false

inductive Style
  | error | strong | related
deriving DecidableEq, Repr

def Style.escape : Style → String
  | error => "\x1b[1;31m"
  | strong => "\x1b[1m"
  | related => "\x1b[1;34m"

def Label.style (label : Label) : Style := if label.primary then .error else .related

structure AttachedSource where
  path : String
  lines : Lines

structure Renderer where
  colored : Bool
  source : Option AttachedSource := none

namespace Renderer

/-- A renderer without colour for one source text. -/
def plain (path text : String) : Renderer := ⟨false, some ⟨path, Lines.ofText text⟩⟩

def styled (r : Renderer) (style : Style) (text : String) : String :=
  if r.colored then style.escape ++ text ++ "\x1b[0m" else text

def repeated (c : Char) (n : Nat) : String := String.ofList (List.replicate n c)

/-- How many marks underline `span` in a line of `length` characters, from `column` on: one for
each covered character of the line, and at least one. -/
def underlineWidth (lines : Lines) (span : Span) (column length : Nat) : Nat :=
  max 1 (min ((lines.covered? span).getD 1) (max (length - column) 1))

def label (r : Renderer) (l : Label) : String :=
  let arrow := if l.primary then "-->" else "   "
  match r.source with
  | none => s!"  {arrow} {l.span.text}: " ++ r.styled l.style l.message ++ "\n"
  | some source =>
    let (line, number) := source.lines.position l.span.start
    let column := number.toNat - 1
    let chars := (source.lines.chars? line).getD []
    let width := underlineWidth source.lines l.span column chars.length
    let gutter := toString line
    let blank := repeated ' ' gutter.length
    let indent := repeated ' ' column
    let text := String.ofList chars
    let marks := r.styled l.style (repeated (if l.primary then '^' else '-') width)
    let message := if l.message.isEmpty then "" else " " ++ r.styled l.style l.message
    s!"  {arrow} {source.path}:{line}:{number}\n" ++
      s!"  {blank} |\n" ++
      s!"  {gutter} | {text}\n" ++
      s!"  {blank} | {indent}{marks}{message}\n"

def note (r : Renderer) (text : String) : String :=
  "  = " ++ r.styled .strong "note" ++ s!": {text}\n"

def diagnostic (r : Renderer) (d : Diagnostic) : String :=
  r.styled .error "error" ++ r.styled .strong s!"[{d.code.text}]" ++ s!": {d.message}\n" ++
    String.join (d.labels.map r.label) ++ String.join (d.notes.map r.note) ++ "\n"

/-- The closing line of a failed run; nothing when there was no error. -/
def summary (r : Renderer) : Nat → String
  | 0 => ""
  | 1 => r.styled .error "error" ++ ": aborting due to previous error\n"
  | n => r.styled .error "error" ++ s!": aborting due to {n} previous errors\n"

def report (r : Renderer) (ds : List Diagnostic) (count : Nat) : String :=
  String.join (ds.map r.diagnostic) ++ r.summary count

end Renderer

end StackScript
