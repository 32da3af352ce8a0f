import Mathlib.Data.List.TakeWhile
import Mathlib.Tactic.Tauto
import StackScript.Proofs.Token.Positions

/-! # Lexemes by themselves

A lexeme that is no error means the same where nothing follows it, so that its text lexes to the one
token.
-/

namespace StackScript.Token

section Readers

theorem dropWhile_takeWhile_self {α : Type} (p : α → Bool) (xs : List α) :
    (xs.takeWhile p).dropWhile p = [] :=
  List.dropWhile_eq_nil_iff.mpr fun _ => List.mem_takeWhile_imp

theorem readWord_self (cs : List Char) :
    readWord (readWord cs).text = ⟨(readWord cs).text, (readWord cs).meaning, []⟩ := by
  simp only [readWord, List.takeWhile_idem, dropWhile_takeWhile_self]

theorem readNumber_whole {cs : List Char} (h : ∀ c ∈ cs, c.isDigit) :
    readNumber cs = ⟨cs, integer cs, []⟩ := by
  rw [readNumber, List.takeWhile_eq_self_iff.mpr h, List.dropWhile_eq_nil_iff.mpr h]

theorem readNumber_decimal {whole : List Char} {d : Char} (h : ∀ c ∈ whole, c.isDigit)
    (hd : d.isDigit) (rest : List Char) :
    readNumber (whole ++ '.' :: d :: rest) =
      ⟨whole ++ '.' :: (d :: rest).takeWhile Char.isDigit,
        .ok (.decimal (Decimal.ofDigits ⟨Decimal.digitsValue (Decimal.digitsValue 0 whole)
          ((d :: rest).takeWhile Char.isDigit), -((d :: rest).takeWhile Char.isDigit).length⟩)),
        (d :: rest).dropWhile Char.isDigit⟩ := by
  have hpoint : ¬ '.'.isDigit := by decide
  simp only [readNumber, List.takeWhile_append_of_pos h, List.dropWhile_append_of_pos h,
    List.takeWhile_cons_of_neg hpoint, List.dropWhile_cons_of_neg hpoint, List.append_nil,
    if_pos hd]

theorem readNumber_self (cs : List Char) :
    readNumber (readNumber cs).text = ⟨(readNumber cs).text, (readNumber cs).meaning, []⟩ := by
  have hdigits : ∀ c ∈ cs.takeWhile Char.isDigit, c.isDigit := fun _ => List.mem_takeWhile_imp
  have hwhole := readNumber_whole hdigits
  generalize hnumber : readNumber cs = number
  rw [readNumber] at hnumber
  split at hnumber
  · next d rest hrest =>
    split at hnumber
    · next hd =>
      subst hnumber
      have hdecimal := readNumber_decimal hdigits hd (rest.takeWhile Char.isDigit)
      simp only [List.takeWhile_cons_of_pos hd, List.takeWhile_idem, List.dropWhile_cons_of_pos hd,
        dropWhile_takeWhile_self] at hdecimal ⊢
      exact hdecimal
    · subst hnumber
      exact hwhole
  · subst hnumber
    exact hwhole

/-- A backslash stands in front of another character, or at the end. -/
theorem ne_backslash {c : Char} {cs : List Char} (hescape : ∀ d ds, c = '\\' → cs = d :: ds → False)
    (hlone : c = '\\' → cs = [] → False) : c ≠ '\\' := by
  intro hc
  cases cs with
  | nil => exact hlone hc rfl
  | cons d ds => exact hescape d ds hc rfl

theorem readBody_other {body cs : List Char} {c : Char} (hquote : c ≠ '"') (hslash : c ≠ '\\')
    (hline : ¬c == '\n') : readBody body (c :: cs) = readBody (c :: body) cs := by
  rw [readBody, if_neg hline]
  · exact hquote
  · exact fun _ _ h _ => hslash h
  · exact fun h _ => hslash h

theorem readBody_self {body cs : List Char} {k : Kind} (h : (readBody body cs).meaning = .ok k) :
    ∃ used, cs = used ++ (readBody body cs).rest ∧
      readBody body used = ⟨(readBody body cs).text, (readBody body cs).meaning, []⟩ := by
  fun_induction readBody body cs with
  | case1 body cs body' => exact ⟨['"'], rfl, by simp [readBody, body']⟩
  | case3 body c cs hline ih =>
    obtain ⟨used, hcs, hused⟩ := ih h
    refine ⟨'\\' :: c :: used, congrArg ('\\' :: c :: ·) hcs, ?_⟩
    rw [readBody, if_neg hline, hused]
  | case6 body c cs hquote hescape hlone hline ih =>
    obtain ⟨used, hcs, hused⟩ := ih h
    refine ⟨c :: used, congrArg (c :: ·) hcs, ?_⟩
    rw [readBody_other hquote (ne_backslash hescape hlone) hline, hused]
  | _ => simp at h

theorem readMark?_text (m : Mark) : readMark? m.text.toList = some m := by
  cases m <;> rfl

theorem readMark?_take {cs : List Char} {m : Mark} (h : readMark? cs = some m) :
    cs.take m.text.length = m.text.toList := by
  cases cs with
  | nil => cases h
  | cons c cs =>
    unfold readMark? at h
    dsimp only at h
    split at h
    case h_23 => cases h
    all_goals
      -- A mark of two characters is read because of the second one.
      repeat' split at h
      all_goals
        cases h
        first
          | rfl
          | obtain ⟨ds, rfl⟩ := List.head?_eq_some_iff.mp ‹cs.head? = _›
            rfl

theorem readMark?_self {c : Char} {cs : List Char} {m : Mark} (h : readMark? (c :: cs) = some m) :
    ∃ ds, (c :: cs).take m.text.length = c :: ds ∧ readMark? (c :: ds) = some m ∧
      (c :: ds).length = m.text.length := by
  have htake := readMark?_take h
  obtain ⟨n, hn⟩ : ∃ n, m.text.length = n + 1 := ⟨m.text.length - 1, by cases m <;> rfl⟩
  have hself : m.text.toList = c :: cs.take n := by rw [← htake, hn, List.take_succ_cons]
  exact ⟨cs.take n, htake.trans hself, hself ▸ readMark?_text m, hself ▸ String.length_toList⟩

end Readers

section Lexemes

variable {c : Char} {cs ds : List Char} {k : Kind}

theorem isWordChar_of_isLetter (h : isLetter c) : isWordChar c := by
  simp only [isLetter, isWordChar, Char.isAlphanum, Bool.or_eq_true] at h ⊢
  tauto

theorem readLexeme_cons (c : Char) (cs : List Char) : ∃ ds, (readLexeme c cs).text = c :: ds := by
  unfold readLexeme
  split
  · next hletter => exact ⟨_, List.takeWhile_cons_of_pos (isWordChar_of_isLetter hletter)⟩
  · split
    · next hdigit =>
      unfold readNumber
      simp only [List.takeWhile_cons_of_pos hdigit]
      split
      · split <;> exact ⟨_, rfl⟩
      · exact ⟨_, rfl⟩
    · split
      · next hquote =>
        obtain rfl := eq_of_beq hquote
        have hbody (body : List Char) : ∃ ds, (readBody body cs).text = '"' :: ds := by
          fun_induction readBody body cs with
          | case3 _ _ _ _ ih => exact ih
          | case6 _ _ _ _ _ _ _ ih => exact ih
          | _ => exact ⟨_, rfl⟩
        exact hbody []
      · split
        · next hmark =>
          obtain ⟨ds, htake, -⟩ := readMark?_self hmark
          exact ⟨ds, htake⟩
        · exact ⟨[], rfl⟩

theorem readLexeme_self (h : (readLexeme c cs).meaning = .ok k)
    (hds : (readLexeme c cs).text = c :: ds) : readLexeme c ds = ⟨c :: ds, .ok k, []⟩ := by
  unfold readLexeme at h hds ⊢
  split
  · next hletter =>
    rw [if_pos hletter] at h hds
    have hself := readWord_self (c :: cs)
    rwa [hds, h] at hself
  · next hletter =>
    rw [if_neg hletter] at h hds
    split
    · next hdigit =>
      rw [if_pos hdigit] at h hds
      have hself := readNumber_self (c :: cs)
      rwa [hds, h] at hself
    · next hdigit =>
      rw [if_neg hdigit] at h hds
      split
      · next hquote =>
        rw [if_pos hquote] at h hds
        obtain ⟨used, hcs, hused⟩ := readBody_self h
        have htext := readBody_text [] cs
        rw [hds, eq_of_beq hquote] at htext
        obtain rfl : ds = used :=
          List.append_cancel_right ((List.cons.inj htext).2.trans hcs)
        rwa [hds, h] at hused
      · next hquote =>
        rw [if_neg hquote] at h hds
        split at h
        · next mark hmark =>
          obtain ⟨es, htake, hes, hlength⟩ := readMark?_self hmark
          rw [hmark] at hds
          obtain rfl : es = ds := (List.cons.inj (htake.symm.trans hds)).2
          cases h
          rw [hes]
          dsimp only
          rw [List.take_of_length_le hlength.le, List.drop_of_length_le hlength.le]
        · cases h

/-- A lexeme that is no error starts neither with a blank nor with a comment. -/
theorem skipSpace_lexeme (h : (readLexeme c cs).meaning = .ok k)
    (hds : (readLexeme c cs).text = c :: ds) (skipped : Nat) :
    skipSpace false skipped (c :: ds) = (skipped, c :: ds) := by
  have hspace : ¬isSpace c := by
    intro hc
    have hc := isSpace_iff.mp hc
    simp only [List.mem_cons, List.not_mem_nil, or_false] at hc
    rcases hc with rfl | rfl | rfl | rfl | rfl <;> cases h
  have hcomment : ¬(c == '/' && ds.head? == some '/') := by
    intro hc
    obtain ⟨rfl, hnext⟩ : c = '/' ∧ ds.head? = some '/' := by simpa using hc
    cases hds
    cases hnext
  rw [skipSpace, if_neg Bool.false_ne_true, if_neg hspace, if_neg hcomment]

theorem integer_plain {digits : List Char} (h : integer digits = .ok k) : k ≠ .eof ∧ k ≠ .error := by
  unfold integer at h
  dsimp only at h
  split at h <;> cases h
  exact ⟨by simp, by simp⟩

theorem readBody_plain {body : List Char} (h : (readBody body cs).meaning = .ok k) :
    k ≠ .eof ∧ k ≠ .error := by
  fun_induction readBody body cs with
  | case1 =>
    cases h
    exact ⟨by simp, by simp⟩
  | case3 _ _ _ _ ih => exact ih h
  | case6 _ _ _ _ _ _ _ ih => exact ih h
  | _ => cases h

/-- No lexeme means the end of the source, and what is no token is an error. -/
theorem readLexeme_plain (h : (readLexeme c cs).meaning = .ok k) : k ≠ .eof ∧ k ≠ .error := by
  unfold readLexeme at h
  split at h
  · unfold readWord at h
    dsimp only at h
    split at h <;> cases h <;> exact ⟨by simp, by simp⟩
  · split at h
    · unfold readNumber at h
      dsimp only at h
      split at h
      · split at h
        · cases h
          exact ⟨by simp, by simp⟩
        · exact integer_plain h
      · exact integer_plain h
    · split at h
      · exact readBody_plain h
      · split at h <;> cases h
        exact ⟨by simp, by simp⟩

theorem lex_lexeme (h : (readLexeme c cs).meaning = .ok k) :
    (lex (String.ofList (readLexeme c cs).text)).tokens.toList.map (·.kind) = [k, .eof] := by
  obtain ⟨ds, hds⟩ := readLexeme_cons c cs
  rw [hds, lex, String.toList_ofList]
  dsimp only [List.length_cons]
  rw [scan, skipSpace_lexeme h hds]
  dsimp only
  rw [readLexeme_self h hds]
  cases ds.length <;> rfl

end Lexemes

end StackScript.Token
