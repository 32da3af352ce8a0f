import StackScript.Proofs.Effect
import StackScript.Tree.Parser

/-! # The small steps of the parser

The marks of the operators, and what each step does to the reader, as equations about a step with
another one behind it.
-/

namespace StackScript

def BinaryOp.mark : BinaryOp → Mark
  | .add => .plus
  | .sub => .minus
  | .mul => .star
  | .div => .slash
  | .mod => .percent
  | .pow => .starStar
  | .equal => .equal
  | .notEqual => .notEqual
  | .less => .less
  | .lessEqual => .lessEqual
  | .greater => .greater
  | .greaterEqual => .greaterEqual
  | .and => .ampAmp
  | .or => .pipePipe
  | .bitAnd => .amp
  | .bitOr => .pipe
  | .bitXor => .caret
  | .shiftLeft => .shiftLeft
  | .shiftRight => .shiftRight

def UnaryOp.mark : UnaryOp → Mark
  | .neg => .minus
  | .not => .bang
  | .bitNot => .tilde

theorem Token.Kind.binaryOp?_eq_some {k : Token.Kind} {op : BinaryOp} :
    k.binaryOp? = some op ↔ k = .mark op.mark := by
  constructor
  · intro h
    unfold binaryOp? at h
    split at h
    · split at h <;> cases h <;> rfl
    · cases h
  · rintro rfl
    cases op <;> rfl

theorem Token.Kind.unaryOp?_eq_some {k : Token.Kind} {op : UnaryOp} :
    k.unaryOp? = some op ↔ k = .mark op.mark := by
  constructor
  · intro h
    unfold unaryOp? at h
    split at h <;> cases h <;> rfl
  · rintro rfl
    cases op <;> rfl

def Parser.kind (p : Parser) : Token.Kind := p.reader.current.kind

def Parser.next (p : Parser) : Parser := { p with reader := p.reader.advance }

theorem TokenReader.atMark_iff {r : TokenReader} {m : Mark} :
    r.atMark m = true ↔ r.current.kind = .mark m := by
  unfold atMark
  split <;> simp_all

theorem TokenReader.atKeyword_iff {r : TokenReader} {w : Keyword} :
    r.atKeyword w = true ↔ r.current.kind = .keyword w := by
  unfold atKeyword
  split <;> simp_all

theorem TokenReader.atEnd_iff {r : TokenReader} : r.atEnd = true ↔ r.current.kind = .eof := by
  unfold atEnd
  split <;> simp_all

theorem TokenReader.advance_cons {r : TokenReader} {t : Token} {ts : List Token}
    (h : r.rest = t :: ts) (ht : t.kind ≠ .eof) :
    r.advance = ⟨ts, t.span, r.position + 1⟩ := by
  rcases r with ⟨rest, previous, position⟩
  cases h
  unfold advance
  split
  · next u us hu =>
    cases hu
    split
    · contradiction
    · rfl
  · contradiction

namespace Parse

variable {α β : Type} {p : Parser}

theorem reader_bind (f : TokenReader → Parse β) : (reader >>= f) p = f p.reader p := rfl

theorem spanFrom_bind (start : Span) (f : Span → Parse β) :
    (spanFrom start >>= f) p = f (p.reader.spanFrom start) p := rfl

theorem advance_bind (f : Token → Parse β) : (advance >>= f) p = f p.reader.current p.next := rfl

theorem discard_advance_bind (f : Unit → Parse β) :
    ((discard advance : Parse Unit) >>= f) p = f () p.next := rfl

theorem eat_bind (m : Mark) (f : Bool → Parse β) :
    (eat m >>= f) p = if p.reader.atMark m = true then f true p.next else f false p := by
  unfold eat
  rw [bind_assoc, reader_bind]
  split <;> rfl

theorem discard_eat_bind (m : Mark) (f : Unit → Parse β) :
    ((discard (eat m) : Parse Unit) >>= f) p = f () (if p.reader.atMark m = true then p.next else p) := by
  have h : (discard (eat m) : Parse Unit) = eat m >>= fun _ => pure () := rfl
  rw [h, bind_assoc, eat_bind]
  split <;> rfl

theorem eatKeyword_bind (w : Keyword) (f : Bool → Parse β) :
    (eatKeyword w >>= f) p = if p.reader.atKeyword w = true then f true p.next else f false p := by
  unfold eatKeyword
  rw [bind_assoc, reader_bind]
  split <;> rfl

theorem observing_bind (x : Parse α) (f : Except ParseError α → Parse β) :
    (observing x >>= f) p = f (x p).1 (x p).2 := rfl

end Parse

end StackScript
