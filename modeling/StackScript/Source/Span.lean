/-! # Spans

Half-open byte ranges of a source text. Every node, instruction and diagnostic carries one.
-/

namespace StackScript

/-- The bytes from `start` up to, and without, `stop`. -/
structure Span where
  start : Nat
  stop : Nat
deriving DecidableEq, Repr, Inhabited

namespace Span

/-- The largest offset a span can hold. -/
def maxOffset : Nat := 1 <<< 32 - 1

def point (offset : Nat) : Span := ⟨offset, offset⟩

/-- The span of things that have no source text. -/
def nowhere : Span := point 0

/-- Offsets past `maxOffset` clamp to it. -/
def ofRange (start stop : Nat) : Span := ⟨min start maxOffset, min stop maxOffset⟩

def merge (a b : Span) : Span := ⟨min a.start b.start, max a.stop b.stop⟩

def text (s : Span) : String := s!"{s.start}..{s.stop}"

end Span

end StackScript
