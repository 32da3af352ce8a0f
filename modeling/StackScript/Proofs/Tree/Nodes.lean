import StackScript.Proofs.Tree.Progress

/-! # Nodes between tokens

A node stands between two positions when its span runs from the first token behind the one to the
last token in front of the other, and its children stand between them one behind the other.
-/

namespace StackScript

/-- The parts of a program that have a span. -/
inductive Node where
  | ident (i : Ident)
  | expr (e : Expr)
  | block (b : Block)
  | stmt (s : Stmt)

/-- The parts of an expression in the order of the source. -/
def Expr.children : Expr → List Node
  | .int _ _ | .decimal _ _ | .str _ _ | .bool _ _ | .null _ | .ident _ _ => []
  | .unary _ e _ => [.expr e]
  | .binary _ left right _ => [.expr left, .expr right]
  | .cond condition consequence alternative _ =>
    .expr condition :: .block consequence :: alternative.toList.map .block
  | .function _ params body _ => params.map .ident ++ [.block body]
  | .call callee args _ => .expr callee :: args.map .expr
  | .array items _ => items.map .expr
  | .hash pairs _ => pairs.flatMap fun p => [.expr p.1, .expr p.2]
  | .index target key _ => [.expr target, .expr key]
  | .assign target value _ => [.expr target, .expr value]

def Stmt.children : Stmt → List Node
  | .bind name value _ => [.ident name, .expr value]
  | .ret value _ => value.toList.map .expr
  | .expr e _ => [.expr e]
  | .whileLoop condition body _ => [.expr condition, .block body]
  | .forLoop init condition update body _ =>
    init.toList.map .stmt ++ condition.toList.map .expr ++ update.toList.map .expr ++ [.block body]
  | .breakLoop _ | .continueLoop _ => []

namespace Node

def span : Node → Span
  | ident i => i.span
  | expr e => e.span
  | block b => b.span
  | stmt s => s.span

def children : Node → List Node
  | ident _ => []
  | expr e => e.children
  | block b => b.statements.map stmt
  | stmt s => s.children

end Node

mutual

/-- The node covers the tokens from position `i` up to, and without, `j`, and so do the nodes in it. -/
inductive Node.Stands (ts : List Token) : Node → (i j : Nat) → Prop
  | mk {n : Node} {i j : Nat} (lt : i < j) (inside : j < ts.length)
      (span : n.span = tokensSpan ts i j) (children : Lined ts n.children i j) : Node.Stands ts n i j

/-- Nodes that stand one behind the other between the positions `i` and `j`. -/
inductive Lined (ts : List Token) : List Node → (i j : Nat) → Prop
  | nil {i j : Nat} (le : i ≤ j) : Lined ts [] i j
  | cons {n : Node} {ns : List Node} {i a b j : Nat} (le : i ≤ a) (head : Node.Stands ts n a b)
      (tail : Lined ts ns b j) : Lined ts (n :: ns) i j

end

variable {ts : List Token} {n : Node} {ns ms : List Node} {i j a b : Nat}

namespace Node.Stands

theorem lt (h : Node.Stands ts n i j) : i < j := by
  cases h
  assumption

theorem inside (h : Node.Stands ts n i j) : j < ts.length := by
  cases h
  assumption

theorem span (h : Node.Stands ts n i j) : n.span = tokensSpan ts i j := by
  cases h
  assumption

theorem children (h : Node.Stands ts n i j) : Lined ts n.children i j := by
  cases h
  assumption

theorem lined (h : Node.Stands ts n a b) (hi : i ≤ a) (hj : b ≤ j) : Lined ts [n] i j :=
  .cons hi h (.nil hj)

theorem join {m k : Node} (hts : Token.Stream ts) (h : Node.Stands ts n i a) (h' : Node.Stands ts m b j)
    (hab : a ≤ b) (hspan : k.span = n.span.merge m.span) (hchildren : k.children = [n, m]) :
    Node.Stands ts k i j := by
  have hlt := h.lt
  have hlt' := h'.lt
  refine .mk (by omega) h'.inside ?_ ?_
  · rw [hspan, h.span, h'.span]
    exact hts.merge_tokensSpan (by omega) hlt' (by omega) h'.inside.le
  · rw [hchildren]
    exact .cons (Nat.le_refl _) h (h'.lined hab (Nat.le_refl _))

end Node.Stands

namespace Lined

theorem le (h : Lined ts ns i j) : i ≤ j := by
  induction ns generalizing i with
  | nil =>
    cases h
    assumption
  | cons n ns ih =>
    obtain ⟨⟩ | ⟨le, head, tail⟩ := h
    exact Nat.le_trans le (Nat.le_trans head.lt.le (ih tail))

theorem mono (h : Lined ts ns a b) (hi : i ≤ a) (hj : b ≤ j) : Lined ts ns i j := by
  induction ns generalizing i a with
  | nil => exact .nil (Nat.le_trans hi (Nat.le_trans h.le hj))
  | cons n ns ih =>
    obtain ⟨⟩ | ⟨le, head, tail⟩ := h
    exact .cons (Nat.le_trans hi le) head (ih tail (Nat.le_refl _))

theorem append (h : Lined ts ns i a) (h' : Lined ts ms a j) : Lined ts (ns ++ ms) i j := by
  induction ns generalizing i with
  | nil => exact h'.mono h.le (Nat.le_refl j)
  | cons n ns ih =>
    obtain ⟨⟩ | ⟨le, head, tail⟩ := h
    exact .cons le head (ih tail)

theorem mem (h : Lined ts ns i j) (hn : n ∈ ns) : ∃ a b, i ≤ a ∧ b ≤ j ∧ Node.Stands ts n a b := by
  induction ns generalizing i with
  | nil => cases hn
  | cons m ns ih =>
    obtain ⟨⟩ | ⟨le, head, tail⟩ := h
    rcases List.mem_cons.mp hn with rfl | hn
    · exact ⟨_, _, le, tail.le, head⟩
    · obtain ⟨a, b, ha, hb, hstands⟩ := ih tail hn
      exact ⟨a, b, Nat.le_trans le (Nat.le_trans head.lt.le ha), hb, hstands⟩

end Lined

end StackScript
