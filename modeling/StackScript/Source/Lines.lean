import StackScript.Source.Span

/-! # Lines and columns

A table of the line starts of one text. Offsets count bytes, columns count characters, and both
lines and columns are numbers of 32 bits that start at one.
-/

namespace StackScript

/-- The number of what has `n` of its kind in front of it. A count that 32 bits cannot hold is taken for
the largest number but one. -/
def oneBased (n : Nat) : UInt32 := .ofNat (if n < UInt32.size then n else UInt32.size - 2) + 1

/-- Where a line starts, and the text from there to the end of the source. -/
structure Line where
  start : Nat
  rest : List Char

/-- A line without its line feed and the carriage returns before it. -/
def Line.chars (line : Line) : List Char :=
  ((line.rest.takeWhile (· != '\n')).reverse.dropWhile (· == '\r')).reverse

/-- The line starts of a text of `size` bytes. -/
structure Lines where
  starts : Array Line
  size : Nat

namespace Lines

/-- Collect the starts of the lines of `cs`, the text from `offset` on. -/
def scan (offset : Nat) (found : Array Line) : List Char → Lines
  | [] => ⟨found, offset⟩
  | c :: cs =>
    let next := offset + c.utf8Size
    scan next (if c = '\n' then found.push ⟨next, cs⟩ else found) cs

def ofText (text : String) : Lines :=
  let cs := text.toList
  scan 0 #[⟨0, cs⟩] cs

def count (t : Lines) : Nat := t.starts.size

/-- The greatest index from `lo` and below `hi` whose line starts at or before `offset`, given that
the line at `lo` does. -/
def search (starts : Array Line) (offset lo hi : Nat) : Nat :=
  if _h : lo + 1 < hi then
    let mid := (lo + hi) / 2
    match starts[mid]? with
    | some line => if line.start ≤ offset then search starts offset mid hi
        else search starts offset lo mid
    | none => search starts offset lo mid
  else lo
termination_by hi - lo

/-- The index of the line that holds `offset`; offsets past the end are on the last line. -/
def indexOf (t : Lines) (offset : Nat) : Nat := search t.starts offset 0 t.starts.size

def lineOf (t : Lines) (offset : Nat) : UInt32 := oneBased (t.indexOf offset)

def entry? (t : Lines) (line : UInt32) : Option Line := t.starts[(line - 1).toNat]?

/-- The text after the first `bytes` bytes of `cs`, unless they end inside a character. -/
def dropBytes : List Char → Nat → Option (List Char)
  | cs, 0 => some cs
  | [], _ + 1 => none
  | c :: cs, n + 1 => if c.utf8Size ≤ n + 1 then dropBytes cs (n + 1 - c.utf8Size) else none

/-- How many characters the first `bytes` bytes of `cs` hold, on top of `seen`, unless they end
inside a character. -/
def charsWithin (seen : Nat) : List Char → Nat → Option Nat
  | _, 0 => some seen
  | [], _ + 1 => none
  | c :: cs, n + 1 =>
    if c.utf8Size ≤ n + 1 then charsWithin (seen + 1) cs (n + 1 - c.utf8Size) else none

/-- Line and column of `offset`. An offset inside a character is at column one. -/
def position (t : Lines) (offset : Nat) : UInt32 × UInt32 :=
  let line := t.lineOf offset
  let before := match t.entry? line with
    | some entry => (charsWithin 0 entry.rest (min offset t.size - entry.start)).getD 0
    | none => 0
  (line, oneBased before)

/-- The offset at which a line starts. -/
def start? (t : Lines) (line : UInt32) : Option Nat :=
  if line = 0 then none else (t.entry? line).map (·.start)

def chars? (t : Lines) (line : UInt32) : Option (List Char) :=
  if line = 0 then none else (t.entry? line).map Line.chars

def text? (t : Lines) (line : UInt32) : Option String := (t.chars? line).map String.ofList

/-- How many characters a span covers, if it lies in the text and cuts no character. -/
def covered? (t : Lines) (span : Span) : Option Nat :=
  if span.start ≤ span.stop ∧ span.stop ≤ t.size then do
    let line ← t.starts[t.indexOf span.start]?
    let rest ← dropBytes line.rest (span.start - line.start)
    charsWithin 0 rest (span.stop - span.start)
  else none

end Lines

/-- The line on which `offset` lies, by counting the line feeds before it. -/
def lineNumber (offset : Nat) (cs : List Char) : UInt32 := oneBased (go 0 0 cs)
where
  go (pos count : Nat) : List Char → Nat
    | [] => count
    | c :: cs =>
      if pos < offset then go (pos + c.utf8Size) (if c = '\n' then count + 1 else count) cs else count

end StackScript
