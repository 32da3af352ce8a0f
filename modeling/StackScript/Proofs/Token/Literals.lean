import StackScript.Proofs.Token.Longest
import StackScript.Proofs.Token.Tiling

/-! # Literals of texts

Every text has a literal: between quotes, the characters that cannot stand there by themselves are
escaped. Where a literal ends and what its escapes stand for is found out apart, from one reading of
backslashes: each takes the character behind it along.
-/

namespace StackScript.Token

/-- A text of whole pieces: a backslash has the character behind it in the text. -/
inductive Pieces : List Char → Prop
  | nil : Pieces []
  | plain {c : Char} {cs : List Char} (hc : c ≠ '\\') (hcs : Pieces cs) : Pieces (c :: cs)
  | pair {c : Char} {cs : List Char} (hcs : Pieces cs) : Pieces ('\\' :: c :: cs)

/-- The characters that have a meaning of their own behind a backslash. -/
def escapes : List Char := ['n', 'r', 't', '\\', '"', '0']

/-- How a character is written in a literal. -/
def written : Char → List Char
  | '\n' => ['\\', 'n']
  | '\r' => ['\\', 'r']
  | '\t' => ['\\', 't']
  | '\\' => ['\\', '\\']
  | '"' => ['\\', '"']
  | '\x00' => ['\\', '0']
  | c => [c]

def literal (text : String) : String := String.ofList ('"' :: text.toList.flatMap written ++ ['"'])

section Unescape

variable {c d : Char} {cs ds : List Char}

theorem unescapeOnto_append (decoded before cs : List Char) :
    unescapeOnto (decoded ++ before) cs = before.reverse ++ unescapeOnto decoded cs := by
  fun_induction unescapeOnto decoded cs with
  | case1 => simp [unescapeOnto]
  | case2 decoded c cs d hd ih => rw [← ih, unescapeOnto, hd, List.cons_append]
  | case3 decoded c cs hc ih => rw [← ih, unescapeOnto, hc, List.cons_append, List.cons_append]
  | case4 decoded c cs hpair ih =>
    rw [← ih, unescapeOnto, List.cons_append]
    assumption

theorem unescapeOnto_eq (decoded cs : List Char) :
    unescapeOnto decoded cs = decoded.reverse ++ unescape cs :=
  unescapeOnto_append [] decoded cs

theorem unescape_plain (hc : c ≠ '\\') : unescape (c :: cs) = c :: unescape cs := by
  rw [unescape, unescapeOnto, unescapeOnto_eq]
  · rfl
  · exact fun _ _ h _ => hc h

theorem unescape_known (hd : escaped? c = some d) :
    unescape ('\\' :: c :: cs) = d :: unescape cs := by
  rw [unescape, unescapeOnto, hd]
  exact unescapeOnto_eq ..

theorem unescape_unknown (hc : escaped? c = none) :
    unescape ('\\' :: c :: cs) = '\\' :: c :: unescape cs := by
  rw [unescape, unescapeOnto, hc]
  exact unescapeOnto_eq ..

theorem escaped?_eq_none (hc : c ∉ escapes) : escaped? c = none := by
  unfold escaped?
  split <;> simp_all [escapes]

theorem Pieces.unescape_append (h : Pieces cs) (ds : List Char) :
    unescape (cs ++ ds) = unescape cs ++ unescape ds := by
  induction h with
  | nil => rfl
  | plain hc _ ih => rw [List.cons_append, unescape_plain hc, unescape_plain hc, ih, List.cons_append]
  | @pair c cs _ ih =>
    rw [List.cons_append, List.cons_append]
    cases hc : escaped? c with
    | some d => rw [unescape_known hc, unescape_known hc, ih, List.cons_append]
    | none => rw [unescape_unknown hc, unescape_unknown hc, ih, List.cons_append, List.cons_append]

end Unescape

section Written

/-- A character is written as itself, or as an escape that stands for it. -/
theorem written_cases (c : Char) :
    (written c = [c] ∧ c ∉ ['"', '\\', '\n']) ∨
      ∃ d, written c = ['\\', d] ∧ d ≠ '\n' ∧ escaped? d = some c := by
  unfold written
  split
  case h_7 => exact .inl ⟨rfl, by simp_all⟩
  all_goals exact .inr ⟨_, rfl, by decide, rfl⟩

theorem written_body (cs : List Char) : Body (cs.flatMap written) := by
  induction cs with
  | nil => exact .nil
  | cons c cs ih =>
    rw [List.flatMap_cons]
    rcases written_cases c with ⟨hc, hplain⟩ | ⟨d, hc, hd, -⟩
    · rw [hc]
      exact .plain hplain ih
    · rw [hc]
      exact .escape hd ih

theorem unescape_written (cs : List Char) : unescape (cs.flatMap written) = cs := by
  induction cs with
  | nil => rfl
  | cons c cs ih =>
    rw [List.flatMap_cons]
    rcases written_cases c with ⟨hc, hplain⟩ | ⟨d, hc, -, hd⟩
    · have hslash : c ≠ '\\' := fun h => hplain (by simp [h])
      rw [hc, List.singleton_append, unescape_plain hslash, ih]
    · rw [hc, List.cons_append, List.singleton_append, unescape_known hd, ih]

end Written

section Lex

variable {body : List Char} {text : String}

theorem readLexeme_quoted (h : Body body) (rest : List Char) :
    readLexeme '"' (body ++ '"' :: rest) =
      ⟨'"' :: body ++ ['"'], .ok (.str (String.ofList (unescape body))), rest⟩ := by
  rw [readLexeme_quote, readBody_append h, readBody, List.append_nil, List.reverse_reverse]

/-- A body between quotes lexes to one token, and nothing else. -/
theorem lex_quoted (h : Body body) :
    lex (String.ofList ('"' :: body ++ ['"'])) =
      ⟨#[⟨.str (String.ofList (unescape body)), .ofRange 0 (byteLength ('"' :: body ++ ['"']))⟩,
        ⟨.eof, .point (min (byteLength ('"' :: body ++ ['"'])) Span.maxOffset)⟩], #[]⟩ := by
  have hskip : skipSpace false 0 ('"' :: body ++ ['"']) = (0, '"' :: (body ++ ['"'])) := rfl
  rw [lex, String.toList_ofList]
  change scan ((body ++ ['"']).length + 1) 0 {} _ = _
  rw [scan_lexeme hskip, readLexeme_quoted h, scan_stop rfl]
  simp [Lexed.add]

theorem lex_literal (text : String) :
    lex (literal text) =
      ⟨#[⟨.str text, ⟨0, min (literal text).utf8ByteSize Span.maxOffset⟩⟩,
        ⟨.eof, .point (min (literal text).utf8ByteSize Span.maxOffset)⟩], #[]⟩ := by
  have hlex := lex_quoted (written_body text.toList)
  rwa [unescape_written, String.ofList_toList, byteLength_eq] at hlex

theorem length_le_written (cs : List Char) : cs.length ≤ (cs.flatMap written).length := by
  induction cs with
  | nil => exact Nat.le_refl _
  | cons c cs ih =>
    rw [List.flatMap_cons, List.length_append, List.length_cons]
    rcases written_cases c with ⟨hc, -⟩ | ⟨d, hc, -⟩
    · simp only [hc, List.length_singleton]
      omega
    · simp only [hc, List.length_cons]
      omega

theorem length_lt_literal (text : String) : text.length < (literal text).utf8ByteSize :=
  calc text.length
    _ = text.toList.length := String.length_toList.symm
    _ ≤ (text.toList.flatMap written).length := length_le_written _
    _ < ('"' :: text.toList.flatMap written ++ ['"']).length := by
      simp only [List.length_append, List.length_cons]
      omega
    _ ≤ byteLength ('"' :: text.toList.flatMap written ++ ['"']) := length_le_byteLength _
    _ = (literal text).utf8ByteSize := byteLength_eq _

end Lex

/-- A text is what its literal means. The literal is one token, which ends where the literal does, or at
the largest offset there is. Whole pieces of a body are decoded by themselves, and a pair that is no
known escape stands for itself. -/
theorem literal_faithful (text : String) {u : List Char} (hu : Pieces u) (w : List Char) :
    lex (literal text) =
        ⟨#[⟨.str text, ⟨0, min (literal text).utf8ByteSize Span.maxOffset⟩⟩,
          ⟨.eof, .point (min (literal text).utf8ByteSize Span.maxOffset)⟩], #[]⟩ ∧
      unescape (u ++ w) = unescape u ++ unescape w ∧
      ∀ c ∉ escapes, unescape ['\\', c] = ['\\', c] :=
  ⟨lex_literal text, hu.unescape_append w, fun _ hc => unescape_unknown (escaped?_eq_none hc)⟩

/-- A text of escapes, and pieces that end with an escaped backslash in front of what looks like an
escape. -/
theorem literal_faithful_backslashes :
    Pieces ['\\', 'q', '\\', '\\'] ∧
      lex (literal "\\\"\n") =
        ⟨#[⟨.str "\\\"\n", ⟨0, min (literal "\\\"\n").utf8ByteSize Span.maxOffset⟩⟩,
          ⟨.eof, .point (min (literal "\\\"\n").utf8ByteSize Span.maxOffset)⟩], #[]⟩ ∧
      unescape (['\\', 'q', '\\', '\\'] ++ ['n', '\\']) =
        unescape ['\\', 'q', '\\', '\\'] ++ unescape ['n', '\\'] ∧
      ∀ c ∉ escapes, unescape ['\\', c] = ['\\', c] :=
  ⟨.pair (.pair .nil), literal_faithful _ (.pair (.pair .nil)) _⟩

/-- A literal can be longer than a span can tell. -/
theorem literal_past_span :
    (lex (literal (String.ofList (List.replicate Span.maxOffset 'a')))).tokens[0]?.map (·.span) ≠
      some ⟨0, (literal (String.ofList (List.replicate Span.maxOffset 'a'))).utf8ByteSize⟩ := by
  have hlength : (String.ofList (List.replicate Span.maxOffset 'a')).length = Span.maxOffset := by
    rw [String.length_ofList, List.length_replicate]
  generalize String.ofList (List.replicate Span.maxOffset 'a') = text at hlength ⊢
  have hlong := length_lt_literal text
  rw [lex_literal]
  intro hspan
  have hstop : min (literal text).utf8ByteSize Span.maxOffset = (literal text).utf8ByteSize :=
    congrArg Span.stop (Option.some.inj hspan)
  omega

end StackScript.Token
