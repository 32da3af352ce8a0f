import StackScript.Proofs.Tree.Placement

/-! # Nested spans

Every node of a parsed program runs from the start of a token to the end of one, around its parts,
which stand one behind the other, also where errors were recorded on the way.
-/

namespace StackScript

section Tokens

variable {ts : List Token} {n m : Node} {ns : List Node} {i j : Nat}

/-- What is placed between two positions is in the order of the tokens. -/
theorem Lined.ordered (hts : Token.Stream ts) (h : Lined ts ns i j) (hj : j < ts.length) :
    ns.Pairwise (·.span.stop ≤ ·.span.start) := by
  induction ns generalizing i with
  | nil => exact .nil
  | cons n ns ih =>
    obtain ⟨⟩ | ⟨-, head, tail⟩ := h
    refine List.pairwise_cons.mpr ⟨fun m hm => ?_, ih tail⟩
    obtain ⟨a, b, ha, hb, hm⟩ := tail.mem hm
    have hlt := head.lt
    have hlt' := hm.lt
    rw [head.span, hm.span]
    exact hts.tokenSpan_ordered (by omega) (by omega)

end Tokens

inductive Program.Has (program : Program) : Node → Prop
  | statement {s : Stmt} (h : s ∈ program.statements) : program.Has (.stmt s)
  | child {n m : Node} (h : program.Has n) (hm : m ∈ n.children) : program.Has m

/-- The node runs from the start of a token to the end of one, around its parts one by one. -/
structure Node.Nested (tokens : List Token) (n : Node) : Prop where
  starts : ∃ t ∈ tokens, t.kind ≠ .eof ∧ n.span.start = t.span.start
  stops : ∃ t ∈ tokens, t.kind ≠ .eof ∧ n.span.stop = t.span.stop
  filled : n.span.start < n.span.stop
  around : ∀ m ∈ n.children, n.span.start ≤ m.span.start ∧ m.span.stop ≤ n.span.stop
  ordered : n.children.Pairwise (·.span.stop ≤ ·.span.start)

section Parse

/-- What is placed is nested, as long as no token is empty. -/
theorem Node.Stands.nested {ts : List Token} {n : Node} {i j : Nat} (hts : Token.Stream ts)
    (hfilled : ∀ t ∈ ts, t.kind ≠ .eof → t.span.start < t.span.stop) (h : Node.Stands ts n i j) :
    n.Nested ts := by
  have hlt := h.lt
  have hinside := h.inside
  obtain ⟨first, hfirst, heof, hstart⟩ := hts.token (show i + 1 < ts.length by omega)
  obtain ⟨last, hlast, heof', hstop⟩ := hts.token (show j - 1 + 1 < ts.length by omega)
  have hmono := hts.tokenSpan_mono (show i ≤ j - 1 by omega) (by omega)
  refine ⟨⟨first, hfirst, heof, ?_⟩, ⟨last, hlast, heof', ?_⟩, ?_, fun m hm => ?_,
    h.children.ordered hts hinside⟩
  · rw [h.span, ← hstart]
    rfl
  · rw [h.span, ← hstop]
    rfl
  · have hfilled := hfilled first hfirst heof
    rw [h.span]
    rw [← hstart] at hfilled
    exact Nat.lt_of_lt_of_le hfilled hmono.2
  · obtain ⟨a, b, ha, hb, hm⟩ := h.children.mem hm
    have hlt' := hm.lt
    rw [h.span, hm.span]
    exact ⟨(hts.tokenSpan_mono ha (by omega)).1,
      (hts.tokenSpan_mono (show b - 1 ≤ j - 1 by omega) (by omega)).2⟩

/-- Spans nest, and the spans of what stands side by side are in the order of the source. -/
theorem parse_nested (source : String) (h : source.utf8ByteSize < 1 <<< 32) :
    (∀ n, (parse (lex source).tokens.toList).program.Has n → n.Nested (lex source).tokens.toList) ∧
      (parse (lex source).tokens.toList).program.statements.Pairwise
        (·.span.stop ≤ ·.span.start) := by
  have hts := Token.lex_stream source
  obtain ⟨p, -, -, hmoves, -, hlined⟩ := parse_run hts
  have hstands : ∀ n, (parse (lex source).tokens.toList).program.Has n →
      ∃ i j, Node.Stands (lex source).tokens.toList n i j := by
    intro n hn
    induction hn with
    | statement hs =>
      obtain ⟨i, j, -, -, hs⟩ := hlined.mem (List.mem_map_of_mem hs)
      exact ⟨i, j, hs⟩
    | child _ hm ih =>
      obtain ⟨i, j, hn⟩ := ih
      obtain ⟨a, b, -, -, hm⟩ := hn.children.mem hm
      exact ⟨a, b, hm⟩
  refine ⟨fun n hn => ?_, ?_⟩
  · obtain ⟨i, j, hn⟩ := hstands n hn
    exact hn.nested hts (Token.lex_filled h)
  · exact List.pairwise_map.mp (hlined.ordered hts hmoves.placed.lt)

/-- A program that is parsed with two errors, one of them in a block behind an `else if`. -/
theorem parse_nested_recovering :
    let source := "let = 1; if (x) \x7b\x7d else if (y) \x7b (a + b)[0] ) \x7d"
    let tokens := (lex source).tokens.toList
    (parse tokens).errors.size = 2 ∧ source.utf8ByteSize < 1 <<< 32 ∧
      (∀ n, (parse tokens).program.Has n → n.Nested tokens) ∧
      (parse tokens).program.statements.Pairwise (·.span.stop ≤ ·.span.start) :=
  ⟨by decide +kernel, by decide +kernel, parse_nested _ (by decide +kernel)⟩

end Parse

end StackScript
