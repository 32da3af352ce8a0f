import StackScript.Source.Span

/-! # Spans of instructions

From the offset of an instruction to the source it was compiled from. An entry holds from its
offset up to that of the next entry.
-/

namespace StackScript

/-- Entries of offset and span, the last one first. -/
structure SpanMap where
  latestFirst : List (Nat × Span) := []
deriving DecidableEq, Repr, Inhabited

namespace SpanMap

def entries (m : SpanMap) : List (Nat × Span) := m.latestFirst.reverse

def isEmpty (m : SpanMap) : Bool := m.latestFirst.isEmpty

/-- Record that the instruction at `offset` came from `span`. Neighbours with one span share an
entry, and a second entry at one offset replaces the first. -/
def push (m : SpanMap) (offset : Nat) (span : Span) : SpanMap :=
  let offset := min offset Span.maxOffset
  match m.latestFirst with
  | [] => ⟨[(offset, span)]⟩
  | (last, s) :: earlier =>
    if s = span then m
    else if last = offset then ⟨(offset, span) :: earlier⟩
    else ⟨(offset, span) :: (last, s) :: earlier⟩

/-- The span of the instruction that covers `offset`. -/
def spanAt? (m : SpanMap) (offset : Nat) : Option Span :=
  if offset ≤ Span.maxOffset then (m.latestFirst.find? (·.1 ≤ offset)).map (·.2) else none

/-- Drop the entries at or past `offset`. -/
def truncate (m : SpanMap) (offset : Nat) : SpanMap :=
  ⟨m.latestFirst.filter (·.1 < min offset Span.maxOffset)⟩

end SpanMap

end StackScript
