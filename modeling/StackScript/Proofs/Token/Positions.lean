import StackScript.Token.Lexer

/-! # Positions of tokens

The lexer cuts the source into the texts of its lexemes and what it skips between them. So every token
and every lexical error covers whole characters of the source, as long as the source is not too long
for a span.
-/

namespace StackScript

/-- The span covers whole characters of the source. -/
structure Span.Within (s : Span) (source : String) : Prop where
  ordered : s.start ≤ s.stop
  stop_le : s.stop ≤ source.utf8ByteSize
  start_valid : String.Pos.Raw.IsValid source ⟨s.start⟩
  stop_valid : String.Pos.Raw.IsValid source ⟨s.stop⟩

namespace Span.Within

variable {source : String} {a b : Span}

theorem of_valid (h : a.start ≤ a.stop) (hstart : String.Pos.Raw.IsValid source ⟨a.start⟩)
    (hstop : String.Pos.Raw.IsValid source ⟨a.stop⟩) : a.Within source :=
  ⟨h, hstop.le_rawEndPos, hstart, hstop⟩

theorem merge (ha : a.Within source) (hb : b.Within source) : (a.merge b).Within source := by
  refine .of_valid ?_ ?_ ?_
  · exact Nat.le_trans (Nat.min_le_left ..) (Nat.le_trans ha.ordered (Nat.le_max_left ..))
  · change String.Pos.Raw.IsValid source ⟨min a.start b.start⟩
    rcases Nat.le_total a.start b.start with h | h
    · rw [Nat.min_eq_left h]
      exact ha.start_valid
    · rw [Nat.min_eq_right h]
      exact hb.start_valid
  · change String.Pos.Raw.IsValid source ⟨max a.stop b.stop⟩
    rcases Nat.le_total a.stop b.stop with h | h
    · rw [Nat.max_eq_right h]
      exact hb.stop_valid
    · rw [Nat.max_eq_left h]
      exact ha.stop_valid

end Span.Within

namespace Token

/-- The characters `cs` are what the source has from `offset` on. -/
def Behind (source : String) (offset : Nat) (cs : List Char) : Prop :=
  ∃ before, source = before ++ String.ofList cs ∧ offset = before.utf8ByteSize

section Texts

theorem byteLength_eq (cs : List Char) : byteLength cs = (String.ofList cs).utf8ByteSize := by
  have hfold (n : Nat) : cs.foldl (fun n c => n + c.utf8Size) n =
      n + (String.ofList cs).utf8ByteSize := by
    induction cs generalizing n with
    | nil => simp
    | cons c cs ih =>
      rw [List.foldl_cons, ih, String.ofList_cons, String.utf8ByteSize_append,
        String.utf8ByteSize_singleton, Nat.add_assoc]
  simpa [byteLength] using hfold 0

theorem byteLength_cons (c : Char) (cs : List Char) :
    byteLength (c :: cs) = c.utf8Size + byteLength cs := by
  rw [byteLength_eq, byteLength_eq, String.ofList_cons, String.utf8ByteSize_append,
    String.utf8ByteSize_singleton]

theorem byteLength_append (cs ds : List Char) :
    byteLength (cs ++ ds) = byteLength cs + byteLength ds := by
  simp [byteLength_eq, String.ofList_append]

theorem length_le_byteLength (cs : List Char) : cs.length ≤ byteLength cs := by
  induction cs with
  | nil => exact Nat.le_refl _
  | cons c cs ih =>
    have hsize := c.utf8Size_pos
    rw [List.length_cons, byteLength_cons]
    omega

/-- Blanks and comments in front of `rest`. A comment runs to the end of its line. -/
inductive Skipped (rest : List Char) : List Char → Prop
  | none : Skipped rest []
  | blank {c : Char} {cs : List Char} (hc : c ∈ [' ', '\t', '\r', '\n', '\x0c'])
      (hcs : Skipped rest cs) : Skipped rest (c :: cs)
  | comment {line cs : List Char} (hline : '\n' ∉ line)
      (hend : cs ++ rest = [] ∨ (cs ++ rest).head? = some '\n') (hcs : Skipped rest cs) :
      Skipped rest ('/' :: '/' :: line ++ cs)

/-- The rest of a comment, and what is skipped behind it. -/
def Commented (rest text : List Char) : Prop :=
  ∃ line cs, text = line ++ cs ∧ '\n' ∉ line ∧
    (cs ++ rest = [] ∨ (cs ++ rest).head? = some '\n') ∧ Skipped rest cs

theorem isSpace_iff {c : Char} : isSpace c ↔ c ∈ [' ', '\t', '\r', '\n', '\x0c'] := by
  simp [isSpace, or_assoc]

theorem Commented.start {rest text cs : List Char} (h : Commented rest text)
    (hcs : text ++ rest = '/' :: cs) : Skipped rest ('/' :: text) := by
  obtain ⟨line, tail, rfl, hline, hend, htail⟩ := h
  rw [List.append_assoc] at hcs
  cases line with
  | nil =>
    rw [List.nil_append] at hcs
    simp [hcs] at hend
  | cons c line =>
    cases hcs
    exact .comment (List.not_mem_of_not_mem_cons hline) hend htail

/-- What is skipped is counted, and it is blanks and comments. -/
theorem skipSpace_text (comment : Bool) (skipped : Nat) (cs : List Char) :
    ∃ text, cs = text ++ (skipSpace comment skipped cs).2 ∧
      (skipSpace comment skipped cs).1 = skipped + byteLength text ∧
      (if comment then Commented (skipSpace comment skipped cs).2 text
        else Skipped (skipSpace comment skipped cs).2 text) := by
  have hcount (skipped : Nat) (c : Char) (text : List Char) :
      skipped + c.utf8Size + byteLength text = skipped + byteLength (c :: text) := by
    rw [byteLength_cons, Nat.add_assoc]
  fun_induction skipSpace comment skipped cs with
  | case1 comment skipped =>
    refine ⟨[], rfl, rfl, ?_⟩
    cases comment with
    | true => exact ⟨[], [], rfl, by simp, .inl rfl, .none⟩
    | false => exact .none
  | case2 skipped c cs ih =>
    obtain ⟨text, hcs, hskipped, htext⟩ := ih
    refine ⟨c :: text, congrArg (c :: ·) hcs, hskipped.trans (hcount ..), ?_⟩
    rw [if_pos rfl]
    by_cases hc : c = '\n'
    · subst hc
      exact ⟨[], '\n' :: text, rfl, by simp, .inr rfl, .blank (by simp) htext⟩
    · rw [if_pos (by simpa using hc)] at htext
      obtain ⟨line, tail, rfl, hline, hend, htail⟩ := htext
      exact ⟨c :: line, tail, rfl, by simp [hline, Ne.symm hc], hend, htail⟩
  | case3 comment skipped c cs hcomment hc ih =>
    obtain ⟨text, hcs, hskipped, htext⟩ := ih
    refine ⟨c :: text, congrArg (c :: ·) hcs, hskipped.trans (hcount ..), ?_⟩
    rw [if_neg hcomment]
    exact .blank (isSpace_iff.mp hc) htext
  | case4 comment skipped c cs hcomment _ hc ih =>
    obtain ⟨text, hcs, hskipped, htext⟩ := ih
    obtain ⟨rfl, hnext⟩ : c = '/' ∧ cs.head? = some '/' := by simpa using hc
    obtain ⟨ds, hds⟩ := List.head?_eq_some_iff.mp hnext
    refine ⟨'/' :: text, congrArg ('/' :: ·) hcs, hskipped.trans (hcount ..), ?_⟩
    rw [if_neg hcomment]
    exact htext.start (hcs.symm.trans hds)
  | case5 comment skipped c cs hcomment =>
    refine ⟨[], rfl, rfl, ?_⟩
    rw [if_neg hcomment]
    exact .none

theorem readBody_text (body cs : List Char) :
    (readBody body cs).text ++ (readBody body cs).rest = '"' :: body.reverse ++ cs := by
  fun_induction readBody body cs with
  | case1 body cs body' => simp [body']
  | _ => simp_all

theorem readNumber_text (cs : List Char) : (readNumber cs).text ++ (readNumber cs).rest = cs := by
  unfold readNumber
  dsimp only
  split
  · next d rest h =>
    split
    · rw [List.append_assoc, List.cons_append, List.takeWhile_append_dropWhile, ← h,
        List.takeWhile_append_dropWhile]
    · rw [← h, List.takeWhile_append_dropWhile]
  · exact List.takeWhile_append_dropWhile

theorem readLexeme_text (c : Char) (cs : List Char) :
    (readLexeme c cs).text ++ (readLexeme c cs).rest = c :: cs := by
  unfold readLexeme
  split
  · exact List.takeWhile_append_dropWhile
  · split
    · exact readNumber_text _
    · split
      · next hquote =>
        rw [readBody_text, eq_of_beq hquote]
        rfl
      · split
        · exact List.take_append_drop _ _
        · rfl

end Texts

namespace Behind

variable {source : String} {offset : Nat} {text cs : List Char}

theorem start (source : String) : Behind source 0 source.toList :=
  ⟨"", by simp, rfl⟩

theorem advance (h : Behind source offset (text ++ cs)) :
    Behind source (offset + byteLength text) cs := by
  obtain ⟨before, rfl, rfl⟩ := h
  refine ⟨before ++ String.ofList text, ?_, ?_⟩
  · rw [String.ofList_append, String.append_assoc]
  · rw [byteLength_eq, String.utf8ByteSize_append]

theorem valid (h : Behind source offset cs) : String.Pos.Raw.IsValid source ⟨offset⟩ := by
  obtain ⟨before, rfl, rfl⟩ := h
  exact String.Pos.Raw.isValid_iff_exists_append.mpr ⟨before, _, rfl, rfl⟩

theorem offset_le (h : Behind source offset cs) : offset ≤ source.utf8ByteSize := h.valid.le_rawEndPos

theorem skip (h : Behind source offset cs) :
    Behind source (offset + (skipSpace false 0 cs).1) (skipSpace false 0 cs).2 := by
  obtain ⟨text, htext, hskipped, -⟩ := skipSpace_text false 0 cs
  rw [hskipped, Nat.zero_add]
  exact advance (htext ▸ h)

end Behind

structure Lexed.Spans (P : Span → Prop) (l : Lexed) : Prop where
  tokens : ∀ t ∈ l.tokens, P t.span
  errors : ∀ e ∈ l.errors, P e.span

theorem Lexed.Spans.add {P : Span → Prop} {l : Lexed} (h : l.Spans P) {span : Span} (hspan : P span)
    (meaning : Except LexError.Cause Kind) : (l.add meaning span).Spans P := by
  have htoken (kind : Kind) : ∀ t ∈ l.tokens.push ⟨kind, span⟩, P t.span := by
    intro t ht
    rcases Array.mem_push.mp ht with ht | rfl
    · exact h.tokens t ht
    · exact hspan
  cases meaning with
  | ok kind => exact ⟨htoken kind, h.errors⟩
  | error cause =>
    refine ⟨htoken .error, fun e he => ?_⟩
    rcases Array.mem_push.mp he with he | rfl
    · exact h.errors e he
    · exact hspan

theorem Lexed.Spans.close {P : Span → Prop} {l : Lexed} (h : l.Spans P) {span : Span}
    (hspan : P span) : Lexed.Spans P { l with tokens := l.tokens.push ⟨.eof, span⟩ } :=
  h.add hspan (.ok .eof)

section Scan

variable {source : String}

theorem scan_within (hsize : source.utf8ByteSize ≤ Span.maxOffset) {fuel offset : Nat} {l : Lexed}
    {cs : List Char} (hl : l.Spans (·.Within source)) (hcs : Behind source offset cs) :
    (scan fuel offset l cs).Spans (·.Within source) := by
  have hpoint {start : Nat} {cs : List Char} (h : Behind source start cs) :
      (Span.point (min start Span.maxOffset)).Within source := by
    rw [Nat.min_eq_left (Nat.le_trans h.offset_le hsize)]
    exact .of_valid (Nat.le_refl _) h.valid h.valid
  induction fuel generalizing offset l cs with
  | zero => exact hl.close (hpoint hcs.skip)
  | succ fuel ih =>
    rw [scan]
    have hskip := hcs.skip
    rcases hs : skipSpace false 0 cs with ⟨skipped, _ | ⟨c, rest⟩⟩ <;> rw [hs] at hskip
    · exact hl.close (hpoint hskip)
    · have hstop : Behind source (offset + skipped + byteLength (readLexeme c rest).text)
          (readLexeme c rest).rest := Behind.advance (readLexeme_text c rest ▸ hskip)
      refine ih (hl.add ?_ _) hstop
      have hmin {n : Nat} (hn : n ≤ source.utf8ByteSize) : min n Span.maxOffset = n :=
        Nat.min_eq_left (Nat.le_trans hn hsize)
      rw [Span.ofRange, hmin hskip.offset_le, hmin hstop.offset_le]
      exact .of_valid (Nat.le_add_right ..) hskip.valid hstop.valid

/-- Tokens and lexical errors cover whole characters of the source. -/
theorem lex_within (hsize : source.utf8ByteSize ≤ Span.maxOffset) :
    (lex source).Spans (·.Within source) :=
  scan_within hsize ⟨by simp, by simp⟩ (.start source)

end Scan

end Token

end StackScript
