import StackScript.Proofs.Token.Lexemes

/-! # The longest lexemes

Lexemes have patterns: keywords and names, integers and decimals, string literals with and without
their closing quote, and marks. Where the patterns compete, the lexer reads the longest text that one
of them matches, and what it reads means what that pattern says. It reads nothing in front of a blank
or a comment.
-/

namespace StackScript

namespace Keyword

theorem ofText?_text (word : Keyword) : ofText? word.text = some word := by
  cases word <;> decide

theorem text_of_ofText? {name : String} {word : Keyword} (h : ofText? name = some word) :
    word.text = name := by
  simpa using List.find?_some h

theorem ofText?_eq_none {name : String} :
    ofText? name = none ↔ ∀ word : Keyword, word.text ≠ name := by
  refine ⟨fun h word hword => ?_, fun h => List.find?_eq_none.mpr fun word _ => by simpa using h word⟩
  rw [← hword, ofText?_text] at h
  cases h

theorem text_toList (word : Keyword) : ∃ c cs, word.text.toList = c :: cs ∧ Token.isLetter c ∧
    ∀ d ∈ c :: cs, Token.isWordChar d := by
  cases word <;> exact ⟨_, _, rfl, by decide, List.all_eq_true.mp (by decide)⟩

end Keyword

namespace Token

/-- The body of a string literal. A backslash takes the character behind it along. -/
inductive Body : List Char → Prop
  | nil : Body []
  | plain {c : Char} {body : List Char} (hc : c ∉ ['"', '\\', '\n']) (hbody : Body body) :
      Body (c :: body)
  | escape {c : Char} {body : List Char} (hc : c ≠ '\n') (hbody : Body body) :
      Body ('\\' :: c :: body)

/-- A pattern matches the text and gives it a meaning. -/
inductive Matches : List Char → Except LexError.Cause Kind → Prop
  | keyword (word : Keyword) : Matches word.text.toList (.ok (.keyword word))
  | ident {c : Char} {cs : List Char} (hc : isLetter c) (hcs : ∀ d ∈ cs, isWordChar d)
      (hname : ∀ word : Keyword, word.text ≠ String.ofList (c :: cs)) :
      Matches (c :: cs) (.ok (.ident (String.ofList (c :: cs))))
  | int {digits : List Char} (hne : digits ≠ []) (hdigits : ∀ d ∈ digits, d.isDigit) :
      Matches digits (integer digits)
  | decimal {whole fraction : List Char} (hne : whole ≠ []) (hwhole : ∀ d ∈ whole, d.isDigit)
      (hne' : fraction ≠ []) (hfraction : ∀ d ∈ fraction, d.isDigit) :
      Matches (whole ++ '.' :: fraction) (.ok (.decimal (Decimal.ofDigits
        ⟨Decimal.digitsValue 0 (whole ++ fraction), -fraction.length⟩)))
  | str {body : List Char} (hbody : Body body) :
      Matches ('"' :: body ++ ['"']) (.ok (.str (String.ofList (unescape body))))
  | unterminated {body : List Char} (hbody : Body body) :
      Matches ('"' :: body) (.error .unterminatedString)
  | mark (sign : Mark) : Matches sign.text.toList (.ok (.mark sign))

/-- No pattern matches a longer text at the start of `cs`, and none gives this one another meaning. -/
structure Lexeme.Longest (l : Lexeme) (cs : List Char) : Prop where
  cuts : l.text ++ l.rest = cs
  matched : Matches l.text l.meaning
  longest : ∀ text meaning, text <+: cs → Matches text meaning → text.length ≤ l.text.length
  unique : ∀ meaning, Matches l.text meaning → meaning = l.meaning

/-- The lexeme goes on where the text ends, or has its meaning. -/
def Lexeme.Covers (l : Lexeme) (text : List Char) (meaning : Except LexError.Cause Kind) : Prop :=
  ∃ more, l.text = text ++ more ∧ (more = [] → l.meaning = meaning)

section Words

variable {c : Char} {cs text rest : List Char}

theorem readWord_matches (hc : isLetter c) :
    Matches (readWord (c :: cs)).text (readWord (c :: cs)).meaning := by
  unfold readWord
  rw [List.takeWhile_cons_of_pos (isWordChar_of_isLetter hc)]
  dsimp only
  split
  · next word hword =>
    have hmatch := Matches.keyword word
    rwa [Keyword.text_of_ofText? hword, String.toList_ofList] at hmatch
  · next hname =>
    exact .ident hc (fun _ => List.mem_takeWhile_imp) (Keyword.ofText?_eq_none.mp hname)

theorem readWord_covers (h : ∀ d ∈ text, isWordChar d) :
    (readWord (text ++ rest)).Covers text (readWord text).meaning := by
  refine ⟨rest.takeWhile isWordChar, List.takeWhile_append_of_pos h, fun hmore => ?_⟩
  simp only [readWord, List.takeWhile_append_of_pos h, hmore, List.append_nil,
    List.takeWhile_eq_self_iff.mpr h]

end Words

section Numbers

variable {c : Char} {cs digits whole fraction rest : List Char}

theorem digitsValue_append (n : Nat) (cs ds : List Char) :
    Decimal.digitsValue n (cs ++ ds) = Decimal.digitsValue (Decimal.digitsValue n cs) ds :=
  List.foldl_append ..

theorem readNumber_matches (hc : c.isDigit) :
    Matches (readNumber (c :: cs)).text (readNumber (c :: cs)).meaning := by
  have hne : (c :: cs).takeWhile Char.isDigit ≠ [] := by
    rw [List.takeWhile_cons_of_pos hc]
    exact List.cons_ne_nil _ _
  have hdigits (ds : List Char) : ∀ d ∈ ds.takeWhile Char.isDigit, d.isDigit := fun _ =>
    List.mem_takeWhile_imp
  unfold readNumber
  dsimp only
  split
  · next d rest hrest =>
    split
    · next hd =>
      rw [← digitsValue_append]
      refine .decimal hne (hdigits _) ?_ (hdigits _)
      rw [List.takeWhile_cons_of_pos hd]
      exact List.cons_ne_nil _ _
    · exact .int hne (hdigits _)
  · exact .int hne (hdigits _)

theorem readNumber_covers_int (h : ∀ d ∈ digits, d.isDigit) :
    (readNumber (digits ++ rest)).Covers digits (integer digits) := by
  unfold readNumber
  rw [List.takeWhile_append_of_pos h, List.dropWhile_append_of_pos h]
  dsimp only
  split
  · split
    · exact ⟨_, List.append_assoc .., by simp⟩
    · exact ⟨_, rfl, fun hmore => by rw [hmore, List.append_nil]⟩
  · exact ⟨_, rfl, fun hmore => by rw [hmore, List.append_nil]⟩

theorem readNumber_covers_decimal (hwhole : ∀ d ∈ whole, d.isDigit) (hne : fraction ≠ [])
    (hfraction : ∀ d ∈ fraction, d.isDigit) (rest : List Char) :
    (readNumber (whole ++ '.' :: fraction ++ rest)).Covers (whole ++ '.' :: fraction)
      (.ok (.decimal (Decimal.ofDigits
        ⟨Decimal.digitsValue 0 (whole ++ fraction), -fraction.length⟩))) := by
  obtain ⟨d, ds, rfl⟩ := List.exists_cons_of_ne_nil hne
  have hnumber := readNumber_decimal hwhole (hfraction d (by simp)) (ds ++ rest)
  rw [← List.cons_append, List.takeWhile_append_of_pos hfraction] at hnumber
  rw [List.append_assoc, List.cons_append, hnumber]
  refine ⟨rest.takeWhile Char.isDigit, ?_, fun hmore => ?_⟩
  · simp only [List.append_assoc, List.cons_append]
  · rw [hmore, List.append_nil, ← digitsValue_append]

end Numbers

section Literals

variable {body : List Char}

theorem Body.append {cs ds : List Char} (hcs : Body cs) (hds : Body ds) : Body (cs ++ ds) := by
  induction hcs with
  | nil => exact hds
  | plain hc _ ih => exact .plain hc ih
  | escape hc _ ih => exact .escape hc ih

theorem readBody_append (h : Body body) (before rest : List Char) :
    readBody before (body ++ rest) = readBody (body.reverse ++ before) rest := by
  induction h generalizing before with
  | nil => rfl
  | @plain c body hc hbody ih =>
    simp only [List.mem_cons, List.not_mem_nil, or_false, not_or] at hc
    obtain ⟨hquote, hslash, hline⟩ := hc
    rw [List.cons_append, readBody_other hquote hslash (by simpa using hline), ih]
    simp
  | @escape c body hc hbody ih =>
    rw [List.cons_append, List.cons_append, readBody, if_neg (by simpa using hc), ih]
    simp

theorem readBody_covers (body cs : List Char) :
    (readBody body cs).Covers ('"' :: body.reverse) (.error .unterminatedString) := by
  fun_induction readBody body cs with
  | case1 => exact ⟨['"'], rfl, by simp⟩
  | case3 body c cs hline ih =>
    obtain ⟨more, hmore, -⟩ := ih
    exact ⟨'\\' :: c :: more, by simpa using hmore, by simp⟩
  | case6 body c cs hquote hescape hlone hline ih =>
    obtain ⟨more, hmore, -⟩ := ih
    exact ⟨c :: more, by simpa using hmore, by simp⟩
  | _ => exact ⟨[], (List.append_nil _).symm, fun _ => rfl⟩

theorem readBody_matches (h : Body body.reverse) (cs : List Char) :
    Matches (readBody body cs).text (readBody body cs).meaning := by
  fun_induction readBody body cs with
  | case1 => exact .str h
  | case3 body c cs hline ih =>
    refine ih ?_
    simpa using h.append (.escape (by simpa using hline) .nil)
  | case6 body c cs hquote hescape hlone hline ih =>
    refine ih ?_
    have hplain : c ∉ ['"', '\\', '\n'] := by
      simp only [List.mem_cons, List.not_mem_nil, or_false, not_or]
      exact ⟨hquote, ne_backslash hescape hlone, by simpa using hline⟩
    simpa using h.append (.plain hplain .nil)
  | _ => exact .unterminated h

end Literals

section Marks

variable {c : Char} {cs : List Char} {sign : Mark}

/-- A mark of one character goes on with a second one where the two make another mark. -/
theorem readMark?_covers (sign : Mark) (rest : List Char) :
    ∃ longer, readMark? (sign.text.toList ++ rest) = some longer ∧
      ∃ more, longer.text.toList = sign.text.toList ++ more ∧ (more = [] → longer = sign) := by
  cases sign
  case star | amp | pipe | bang | assign | less | greater =>
    refine ⟨_, rfl, ?_⟩
    repeat' split
    all_goals
      first
        | exact ⟨[], rfl, fun _ => rfl⟩
        | exact ⟨[_], rfl, fun h => nomatch h⟩
  all_goals
    exact ⟨_, by simp [Mark.text, readMark?], [], (List.append_nil _).symm, fun _ => rfl⟩

theorem readLexeme_mark (h : readMark? (c :: cs) = some sign) :
    readLexeme c cs = ⟨sign.text.toList, .ok (.mark sign), (c :: cs).drop sign.text.length⟩ := by
  have hc : ¬isLetter c ∧ ¬c.isDigit ∧ ¬c == '"' := by
    unfold readMark? at h
    dsimp only at h
    split at h
    case h_23 => cases h
    all_goals exact ⟨by decide, by decide, by decide⟩
  unfold readLexeme
  rw [if_neg hc.1, if_neg hc.2.1, if_neg hc.2.2, h]
  dsimp only
  rw [readMark?_take h]

end Marks

section Longest

variable {c : Char} {cs text rest : List Char} {meaning : Except LexError.Cause Kind}

theorem readLexeme_letter (h : isLetter c) (cs : List Char) :
    readLexeme c cs = readWord (c :: cs) :=
  if_pos h

theorem not_isLetter_of_isDigit (h : c.isDigit) : ¬isLetter c := by
  intro hletter
  have hdigit : 48 ≤ c.val ∧ c.val ≤ 57 := by simpa [Char.isDigit] using h
  rcases Bool.or_eq_true_iff.mp hletter with halpha | hunderscore
  · rcases Bool.or_eq_true_iff.mp halpha with hupper | hlower
    · have hupper : 65 ≤ c.val ∧ c.val ≤ 90 := of_decide_eq_true hupper
      grind
    · obtain ⟨hlow, -⟩ := Bool.and_eq_true_iff.mp hlower
      have hlow : 97 ≤ c.val := of_decide_eq_true hlow
      grind
  · rw [eq_of_beq hunderscore] at h
    revert h
    decide

theorem readLexeme_digit (h : c.isDigit) (cs : List Char) :
    readLexeme c cs = readNumber (c :: cs) := by
  rw [readLexeme, if_neg (not_isLetter_of_isDigit h), if_pos h]

theorem readLexeme_quote (cs : List Char) : readLexeme '"' cs = readBody [] cs := rfl

/-- What a pattern matches is read, and perhaps more. -/
theorem Matches.covered (h : Matches text meaning) (hcs : text ++ rest = c :: cs) :
    (readLexeme c cs).Covers text meaning := by
  cases h with
  | keyword word =>
    obtain ⟨d, ds, htext, hletter, hword⟩ := word.text_toList
    have hmeaning : (readWord word.text.toList).meaning = .ok (.keyword word) := by
      rw [← htext] at hword
      simp only [readWord, List.takeWhile_eq_self_iff.mpr hword, String.ofList_toList,
        Keyword.ofText?_text]
    rw [htext] at hcs hmeaning ⊢
    cases hcs
    rw [readLexeme_letter hletter, ← hmeaning]
    exact readWord_covers hword
  | @ident d ds hd hds hname =>
    cases hcs
    have hword : ∀ e ∈ c :: ds, isWordChar e :=
      List.forall_mem_cons.mpr ⟨isWordChar_of_isLetter hd, hds⟩
    have hmeaning : (readWord (c :: ds)).meaning = .ok (.ident (String.ofList (c :: ds))) := by
      simp only [readWord, List.takeWhile_eq_self_iff.mpr hword, Keyword.ofText?_eq_none.mpr hname]
    rw [readLexeme_letter hd, ← hmeaning]
    exact readWord_covers hword
  | int hne hdigits =>
    obtain ⟨d, ds, rfl⟩ := List.exists_cons_of_ne_nil hne
    cases hcs
    rw [readLexeme_digit (hdigits c (by simp))]
    exact readNumber_covers_int hdigits
  | @decimal whole fraction hne hwhole hne' hfraction =>
    obtain ⟨d, ds, rfl⟩ := List.exists_cons_of_ne_nil hne
    have hcovers := readNumber_covers_decimal hwhole hne' hfraction rest
    cases hcs
    rwa [readLexeme_digit (hwhole c (by simp))]
  | @str body hbody =>
    rw [List.append_assoc, List.cons_append] at hcs
    obtain ⟨rfl, rfl⟩ := List.cons.inj hcs
    rw [readLexeme_quote, readBody_append hbody]
    exact ⟨[], by simp [readBody], by simp [readBody]⟩
  | @unterminated ds hbody =>
    rw [List.cons_append] at hcs
    obtain ⟨rfl, rfl⟩ := List.cons.inj hcs
    rw [readLexeme_quote, readBody_append hbody, List.append_nil]
    have hcovers := readBody_covers ds.reverse rest
    rwa [List.reverse_reverse] at hcovers
  | mark sign =>
    obtain ⟨longer, hlonger, more, hmore, hself⟩ := readMark?_covers sign rest
    rw [hcs] at hlonger
    rw [readLexeme_mark hlonger]
    exact ⟨more, hmore, fun h => by rw [hself h]⟩

theorem Matches.ne_nil (h : Matches text meaning) : text ≠ [] := by
  cases h with
  | keyword word =>
    obtain ⟨d, ds, htext, -⟩ := word.text_toList
    simp [htext]
  | int hne => exact hne
  | mark sign => cases sign <;> decide
  | _ => simp

theorem Matches.ne_invalidToken (h : Matches text meaning) (name : String) :
    meaning ≠ .error (.invalidToken name) := by
  cases h with
  | int =>
    unfold integer
    dsimp only
    split <;> simp
  | _ => simp

/-- A lexeme matches a pattern, or it is a character that starts no lexeme. -/
theorem readLexeme_matches (c : Char) (cs : List Char) :
    Matches (readLexeme c cs).text (readLexeme c cs).meaning ∨
      readLexeme c cs = ⟨[c], .error (.invalidToken c.toString), cs⟩ := by
  by_cases hletter : isLetter c
  · rw [readLexeme_letter hletter]
    exact .inl (readWord_matches hletter)
  by_cases hdigit : c.isDigit
  · rw [readLexeme_digit hdigit]
    exact .inl (readNumber_matches hdigit)
  by_cases hquote : c = '"'
  · subst hquote
    have hbody : Body (List.reverse []) := .nil
    exact .inl (readBody_matches hbody cs)
  cases hmark : readMark? (c :: cs) with
  | some sign =>
    rw [readLexeme_mark hmark]
    exact .inl (.mark sign)
  | none =>
    right
    rw [readLexeme, if_neg hletter, if_neg hdigit, if_neg (by simpa using hquote), hmark]

/-- Skipping goes on up to a character that is no blank and starts no comment. -/
theorem skipSpace_stops {comment : Bool} {start skipped : Nat}
    (h : skipSpace comment start text = (skipped, c :: cs)) :
    ¬isSpace c ∧ ¬(c = '/' ∧ cs.head? = some '/') := by
  fun_induction skipSpace comment start text with
  | case1 => cases h
  | case2 _ _ _ ih => exact ih h
  | case3 _ _ _ _ _ _ ih => exact ih h
  | case4 _ _ _ _ _ _ _ ih => exact ih h
  | case5 _ _ _ _ _ hspace hcomment =>
    cases h
    exact ⟨hspace, by simpa using hcomment⟩

/-- The lexer reads the longest lexeme there is, and a character that starts none by itself. -/
theorem readLexeme_longest (c : Char) (cs : List Char) :
    (readLexeme c cs).Longest (c :: cs) ∨
      readLexeme c cs = ⟨[c], .error (.invalidToken c.toString), cs⟩ ∧
        ∀ text meaning, text <+: c :: cs → ¬Matches text meaning := by
  rcases readLexeme_matches c cs with hmatch | hinvalid
  · refine .inl ⟨readLexeme_text c cs, hmatch, fun text meaning htext h => ?_, fun meaning h => ?_⟩
    · obtain ⟨rest, hrest⟩ := htext
      obtain ⟨more, hmore, -⟩ := h.covered hrest
      rw [hmore, List.length_append]
      exact Nat.le_add_right ..
    · obtain ⟨more, hmore, hself⟩ := h.covered (readLexeme_text c cs)
      exact (hself (List.self_eq_append_right.mp hmore)).symm
  · refine .inr ⟨hinvalid, fun text meaning htext h => ?_⟩
    obtain ⟨rest, hrest⟩ := htext
    obtain ⟨more, hmore, hself⟩ := h.covered hrest
    rw [hinvalid] at hmore hself
    rcases List.singleton_eq_append_iff.mp hmore with ⟨rfl, -⟩ | ⟨-, rfl⟩
    · exact h.ne_nil rfl
    · exact h.ne_invalidToken _ (hself rfl).symm

end Longest

end Token

end StackScript
