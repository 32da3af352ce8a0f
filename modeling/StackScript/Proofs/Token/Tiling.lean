import Mathlib.Data.List.Chain
import StackScript.Proofs.Token.Lexemes

/-! # Tokens tile the source

The texts of the tokens stand in the source one behind the other, and what stands between them is
blanks and comments. A token that is no error is what its text alone lexes to.
-/

namespace StackScript

/-- The text that the span covers in the source. -/
def Span.Cuts (s : Span) (source text : String) : Prop :=
  ∃ before after, source = before ++ text ++ after ∧
    s = ⟨before.utf8ByteSize, (before ++ text).utf8ByteSize⟩

theorem Span.Cuts.within {s : Span} {source text : String} (h : s.Cuts source text) :
    s.Within source := by
  obtain ⟨before, after, rfl, rfl⟩ := h
  refine .of_valid ?_ ?_ ?_
  · simp
  · exact String.Pos.Raw.isValid_iff_exists_append.mpr
      ⟨before, text ++ after, String.append_assoc .., rfl⟩
  · exact String.Pos.Raw.isValid_iff_exists_append.mpr ⟨before ++ text, after, rfl, rfl⟩

theorem Span.Cuts.start_lt {s : Span} {source text : String} (h : s.Cuts source text)
    (hne : text ≠ "") : s.start < s.stop := by
  obtain ⟨before, after, rfl, rfl⟩ := h
  have hpos : 0 < text.utf8ByteSize := Nat.pos_of_ne_zero (mt String.utf8ByteSize_eq_zero_iff.mp hne)
  simp [String.utf8ByteSize_append, hpos]

namespace Token

/-- The source between two offsets is blanks and comments. -/
def Blank (source : String) (start stop : Nat) : Prop :=
  ∃ before gap after, source = before ++ gap ++ after ∧ start = before.utf8ByteSize ∧
    stop = (before ++ gap).utf8ByteSize ∧ Skipped after.toList gap.toList

theorem Blank.stop_le {source : String} {start stop : Nat} (h : Blank source start stop) :
    stop ≤ source.utf8ByteSize := by
  obtain ⟨before, gap, after, rfl, -, rfl, -⟩ := h
  simp [String.utf8ByteSize_append]

/-- The tokens of `cs`, the source from `offset` on. -/
inductive Tiled : (offset : Nat) → List Char → List Token → Prop
  | stop {offset : Nat} {gap : List Char} (hgap : Skipped [] gap) :
      Tiled offset gap [⟨.eof, Span.point (min (offset + byteLength gap) Span.maxOffset)⟩]
  | token {offset start stop : Nat} {gap text rest : List Char} {kind : Kind} {ts : List Token}
      (hgap : Skipped (text ++ rest) gap) (hstart : start = offset + byteLength gap)
      (htext : text ≠ []) (hstop : stop = start + byteLength text) (heof : kind ≠ .eof)
      (halone : kind ≠ .error →
        (lex (String.ofList text)).tokens.toList.map (·.kind) = [kind, .eof])
      (hts : Tiled stop rest ts) :
      Tiled offset (gap ++ (text ++ rest)) (⟨kind, Span.ofRange start stop⟩ :: ts)

/-- The errors of a list of tokens stand where its error tokens do. -/
def errorSpans (ts : List Token) : List Span := (ts.filter (·.kind = .error)).map (·.span)

theorem ofRange_eq {start stop : Nat} (h : start ≤ stop) (hstop : stop ≤ Span.maxOffset) :
    Span.ofRange start stop = ⟨start, stop⟩ := by
  rw [Span.ofRange, Nat.min_eq_left hstop, Nat.min_eq_left (Nat.le_trans h hstop)]

section Scan

variable {fuel offset skipped : Nat} {l : Lexed} {cs rest : List Char} {c : Char}

theorem scan_stop (h : skipSpace false 0 cs = (skipped, [])) :
    scan fuel offset l cs =
      { l with
        tokens := l.tokens.push ⟨.eof, Span.point (min (offset + skipped) Span.maxOffset)⟩ } := by
  cases fuel <;> rw [scan, h]

theorem scan_lexeme (h : skipSpace false 0 cs = (skipped, c :: rest)) :
    scan (fuel + 1) offset l cs =
      scan fuel (offset + skipped + byteLength (readLexeme c rest).text)
        (l.add (readLexeme c rest).meaning (Span.ofRange (offset + skipped)
          (offset + skipped + byteLength (readLexeme c rest).text)))
        (readLexeme c rest).rest := by
  rw [scan, h]

theorem Lexed.add_spans (l : Lexed) (c : Char) (cs : List Char) (span : Span) :
    ∃ kind, (l.add (readLexeme c cs).meaning span).tokens.toList = l.tokens.toList ++ [⟨kind, span⟩] ∧
      (l.add (readLexeme c cs).meaning span).errors.toList.map (·.span) =
        l.errors.toList.map (·.span) ++ errorSpans [⟨kind, span⟩] ∧
      kind ≠ .eof ∧ (kind ≠ .error → (readLexeme c cs).meaning = .ok kind) := by
  cases h : (readLexeme c cs).meaning with
  | ok kind =>
    obtain ⟨heof, herror⟩ := readLexeme_plain h
    exact ⟨kind, by simp [add], by simp [add, errorSpans, herror], heof, fun _ => rfl⟩
  | error cause => exact ⟨.error, by simp [add], by simp [add, errorSpans], nofun, fun h => (h rfl).elim⟩

theorem errorSpans_append (ts us : List Token) :
    errorSpans (ts ++ us) = errorSpans ts ++ errorSpans us := by
  simp [errorSpans]

/-- Lexing `cs` adds the tokens that tile it, and the errors among them. -/
def Adds (offset : Nat) (cs : List Char) (l l' : Lexed) : Prop :=
  ∃ ts, l'.tokens.toList = l.tokens.toList ++ ts ∧ Tiled offset cs ts ∧
    l'.errors.toList.map (·.span) = l.errors.toList.map (·.span) ++ errorSpans ts

theorem skipSpace_gap (hskip : skipSpace false 0 cs = (skipped, rest)) :
    ∃ gap, cs = gap ++ rest ∧ skipped = byteLength gap ∧ Skipped rest gap := by
  have h := skipSpace_text false 0 cs
  simpa only [hskip, Nat.zero_add, Bool.false_eq_true, if_false] using h

theorem adds_stop (hskip : skipSpace false 0 cs = (skipped, [])) :
    Adds offset cs l (scan fuel offset l cs) := by
  obtain ⟨gap, hcs, rfl, hgap⟩ := skipSpace_gap hskip
  rw [List.append_nil] at hcs
  subst hcs
  refine ⟨_, ?_, .stop hgap, ?_⟩
  · rw [scan_stop hskip, Array.toList_push]
  · rw [scan_stop hskip]
    simp [errorSpans]

theorem adds_lexeme (hskip : skipSpace false 0 cs = (skipped, c :: rest))
    (h : ∀ stop l, Adds stop (readLexeme c rest).rest l
      (scan fuel stop l (readLexeme c rest).rest)) :
    Adds offset cs l (scan (fuel + 1) offset l cs) := by
  obtain ⟨gap, rfl, rfl, hgap⟩ := skipSpace_gap hskip
  obtain ⟨ds, hds⟩ := readLexeme_cons c rest
  rw [scan_lexeme hskip]
  obtain ⟨kind, htokens, herrors, heof, hmeaning⟩ := l.add_spans c rest
    (Span.ofRange (offset + byteLength gap)
      (offset + byteLength gap + byteLength (readLexeme c rest).text))
  obtain ⟨ts, htokens', hts, herrors'⟩ := h _ (l.add (readLexeme c rest).meaning _)
  rw [← readLexeme_text] at hgap ⊢
  refine ⟨⟨kind, _⟩ :: ts, ?_, .token hgap rfl (by simp [hds]) rfl heof
    (fun hkind => lex_lexeme (hmeaning hkind)) hts, ?_⟩
  · rw [htokens', htokens, List.append_assoc, List.singleton_append]
  · rw [herrors', herrors, List.append_assoc, ← errorSpans_append, List.singleton_append]

theorem scan_adds (hfuel : cs.length ≤ fuel) : Adds offset cs l (scan fuel offset l cs) := by
  induction fuel generalizing offset l cs with
  | zero =>
    obtain rfl := List.length_eq_zero_iff.mp (Nat.le_zero.mp hfuel)
    exact adds_stop rfl
  | succ fuel ih =>
    rcases hskip : skipSpace false 0 cs with ⟨skipped, _ | ⟨c, rest⟩⟩
    · exact adds_stop hskip
    · refine adds_lexeme hskip fun stop l => ih ?_
      -- A lexeme takes at least one character.
      obtain ⟨gap, rfl, -⟩ := skipSpace_gap hskip
      obtain ⟨ds, hds⟩ := readLexeme_cons c rest
      rw [← readLexeme_text, hds] at hfuel
      simp only [List.length_append, List.length_cons] at hfuel
      omega

theorem lex_tiled (source : String) :
    Tiled 0 source.toList (lex source).tokens.toList ∧
      (lex source).errors.toList.map (·.span) = errorSpans (lex source).tokens.toList := by
  have hadds : Adds 0 source.toList {} (lex source) := scan_adds (Nat.le_refl _)
  obtain ⟨ts, htokens, hts, herrors⟩ := hadds
  simp only [List.nil_append, List.map_nil] at htokens herrors
  subst htokens
  exact ⟨hts, herrors⟩

end Scan

namespace Behind

variable {source : String} {offset : Nat} {text gap cs : List Char}

theorem cuts (h : Behind source offset (text ++ cs)) :
    Span.Cuts ⟨offset, offset + byteLength text⟩ source (String.ofList text) := by
  obtain ⟨before, rfl, rfl⟩ := h
  refine ⟨before, String.ofList cs, ?_, ?_⟩
  · rw [String.ofList_append, String.append_assoc]
  · rw [byteLength_eq, String.utf8ByteSize_append]

theorem blank (h : Behind source offset (gap ++ cs)) (hgap : Skipped cs gap) :
    Blank source offset (offset + byteLength gap) := by
  obtain ⟨before, rfl, rfl⟩ := h
  refine ⟨before, String.ofList gap, String.ofList cs, ?_, rfl, ?_, ?_⟩
  · rw [String.ofList_append, String.append_assoc]
  · rw [byteLength_eq, String.utf8ByteSize_append]
  · rwa [String.toList_ofList, String.toList_ofList]

end Behind

section Tiled

variable {source : String} {offset : Nat} {cs : List Char} {ts : List Token}

theorem Tiled.body (h : Tiled offset cs ts) :
    ∃ body, ts = body ++ [⟨.eof, Span.point (min (offset + byteLength cs) Span.maxOffset)⟩] ∧
      ∀ t ∈ body, t.kind ≠ .eof := by
  induction h with
  | stop hgap => exact ⟨[], rfl, nofun⟩
  | @token offset start stop gap text rest kind ts hgap hstart htext hstop heof halone hts ih =>
    obtain ⟨body, rfl, hbody⟩ := ih
    refine ⟨⟨kind, Span.ofRange start stop⟩ :: body, ?_, List.forall_mem_cons.mpr ⟨heof, hbody⟩⟩
    simp only [hstart, hstop, byteLength_append, Nat.add_assoc, List.cons_append]

theorem Tiled.ordered (h : Tiled offset cs ts) :
    ts.Pairwise (·.span.stop ≤ ·.span.start) ∧
      ∀ t ∈ ts, min offset Span.maxOffset ≤ t.span.start ∧ t.span.start ≤ t.span.stop := by
  induction h with
  | stop hgap =>
    refine ⟨List.pairwise_singleton .., List.forall_mem_singleton.mpr ⟨?_, Nat.le_refl _⟩⟩
    change min _ _ ≤ min _ _
    omega
  | @token offset start stop gap text rest kind ts hgap hstart htext hstop heof halone hts ih =>
    obtain ⟨hpairwise, hts⟩ := ih
    have hspan : (Span.ofRange start stop).start ≤ (Span.ofRange start stop).stop := by
      change min _ _ ≤ min _ _
      omega
    have hfirst : min offset Span.maxOffset ≤ (Span.ofRange start stop).start := by
      change min _ _ ≤ min _ _
      omega
    refine ⟨List.pairwise_cons.mpr ⟨fun t ht => (hts t ht).1, hpairwise⟩,
      List.forall_mem_cons.mpr ⟨⟨hfirst, hspan⟩, fun t ht => ⟨?_, (hts t ht).2⟩⟩⟩
    exact Nat.le_trans hfirst (Nat.le_trans hspan (hts t ht).1)

/-- Every token but the last covers a text of its own, which if it is no error lexes to its kind. -/
theorem Tiled.texts (h : Tiled offset cs ts) (hcs : Behind source offset cs)
    (hsize : source.utf8ByteSize ≤ Span.maxOffset) :
    ∀ t ∈ ts, t.kind ≠ .eof → ∃ text, t.span.Cuts source text ∧ text ≠ "" ∧
      (t.kind ≠ .error → (lex text).tokens.toList.map (·.kind) = [t.kind, .eof]) := by
  induction h with
  | stop hgap => exact List.forall_mem_singleton.mpr fun h => (h rfl).elim
  | @token offset start stop gap text rest kind ts hgap hstart htext hstop heof halone hts ih =>
    obtain rfl := hstart
    obtain rfl := hstop
    have htext' := hcs.advance
    have hrest := htext'.advance
    refine List.forall_mem_cons.mpr ⟨fun _ => ⟨String.ofList text, ?_, ?_, halone⟩, ih hrest⟩
    · change (Span.ofRange _ _).Cuts source _
      rw [ofRange_eq (Nat.le_add_right ..) (Nat.le_trans hrest.offset_le hsize)]
      exact htext'.cuts
    · simpa using htext

/-- Between the tokens, in front of the first one and behind the last one stand blanks and comments. -/
theorem Tiled.gaps (h : Tiled offset cs ts) (hcs : Behind source offset cs)
    (hsize : source.utf8ByteSize ≤ Span.maxOffset) {s : Span} (hs : s.stop = offset) :
    (s :: ts.map (·.span)).IsChain fun a b => Blank source a.stop b.start := by
  induction h generalizing s with
  | @stop offset gap hgap =>
    have hgap' : Behind source offset (gap ++ []) := by rwa [List.append_nil]
    have hblank := hgap'.blank hgap
    refine List.isChain_pair.mpr ?_
    change Blank source s.stop (min _ _)
    rwa [hs, Nat.min_eq_left (Nat.le_trans hblank.stop_le hsize)]
  | @token offset start stop gap text rest kind ts hgap hstart htext hstop heof halone hts ih =>
    obtain rfl := hstart
    obtain rfl := hstop
    have htext' := hcs.advance
    have hrest := htext'.advance
    have hspan := ofRange_eq (Nat.le_add_right (offset + byteLength gap) (byteLength text))
      (Nat.le_trans hrest.offset_le hsize)
    refine List.isChain_cons_cons.mpr ⟨?_, ih hrest (congrArg Span.stop hspan)⟩
    rw [hs, hspan]
    exact hcs.blank hgap

end Tiled

/-- The token at the end of the source is the last one, and the only one of its kind. -/
def Ended (ts : List Token) : Prop :=
  ∃ body stop, ts = body ++ [stop] ∧ stop.kind = .eof ∧ ∀ t ∈ body, t.kind ≠ .eof

theorem lex_ended (source : String) : Ended (lex source).tokens.toList := by
  obtain ⟨body, htokens, hbody⟩ := (lex_tiled source).1.body
  exact ⟨body, _, htokens, rfl, hbody⟩

/-- Also where offsets clamp, tokens stand in order. -/
theorem lex_ordered (source : String) :
    (lex source).tokens.toList.Pairwise (·.span.stop ≤ ·.span.start) ∧
      ∀ t ∈ (lex source).tokens.toList, t.span.start ≤ t.span.stop := by
  obtain ⟨hpairwise, hts⟩ := (lex_tiled source).1.ordered
  exact ⟨hpairwise, fun t ht => (hts t ht).2⟩

theorem lex_texts {source : String} (h : source.utf8ByteSize < 1 <<< 32) :
    ∀ t ∈ (lex source).tokens.toList, t.kind ≠ .eof → ∃ text, t.span.Cuts source text ∧ text ≠ "" ∧
      (t.kind ≠ .error → (lex text).tokens.toList.map (·.kind) = [t.kind, .eof]) :=
  (lex_tiled source).1.texts (.start source) (Nat.le_of_lt_succ h)

theorem lex_filled {source : String} (h : source.utf8ByteSize < 1 <<< 32) :
    ∀ t ∈ (lex source).tokens.toList, t.kind ≠ .eof → t.span.start < t.span.stop := by
  intro t ht heof
  obtain ⟨text, hcuts, hne, -⟩ := lex_texts h t ht heof
  exact hcuts.start_lt hne

/-- The tokens cover the source from left to right, but for blanks and comments. -/
structure Lexed.Tiles (l : Lexed) (source : String) : Prop where
  ended : ∃ body, l.tokens.toList = body ++ [⟨.eof, Span.point source.utf8ByteSize⟩] ∧
    ∀ t ∈ body, t.kind ≠ .eof
  filled : ∀ t ∈ l.tokens, t.kind ≠ .eof → t.span.start < t.span.stop ∧ t.span.Within source
  ordered : l.tokens.toList.Pairwise (·.span.stop ≤ ·.span.start)
  gaps : (Span.point 0 :: l.tokens.toList.map (·.span)).IsChain
    fun a b => Blank source a.stop b.start
  alone : ∀ t ∈ l.tokens, t.kind ≠ .eof → t.kind ≠ .error → ∃ text, t.span.Cuts source text ∧
    (lex text).tokens.toList.map (·.kind) = [t.kind, .eof]
  errors : l.errors.toList.map (·.span) =
    (l.tokens.toList.filter (·.kind = .error)).map (·.span)

/-- Tokens tile the source. -/
theorem lex_tiles (source : String) (h : source.utf8ByteSize < 1 <<< 32) :
    (lex source).Tiles source := by
  have hsize : source.utf8ByteSize ≤ Span.maxOffset := Nat.le_of_lt_succ h
  obtain ⟨htiled, herrors⟩ := lex_tiled source
  refine ⟨?_, fun t ht heof => ?_, htiled.ordered.1, htiled.gaps (.start source) hsize rfl,
    fun t ht heof herror => ?_, herrors⟩
  · have hlast : min (0 + byteLength source.toList) Span.maxOffset = source.utf8ByteSize := by
      rw [byteLength_eq, String.ofList_toList, Nat.zero_add, Nat.min_eq_left hsize]
    exact hlast ▸ htiled.body
  · obtain ⟨text, hcuts, -⟩ := lex_texts h t ht.val heof
    exact ⟨lex_filled h t ht.val heof, hcuts.within⟩
  · obtain ⟨text, hcuts, -, halone⟩ := lex_texts h t ht.val heof
    exact ⟨text, hcuts, halone herror⟩

/-- A decimal, a comment, a string with an escaped quote, and two errors. -/
theorem lex_tiles_mixed :
    ("x = 1.5 // half\n\"a\\\"\" @ \"b").utf8ByteSize < 1 <<< 32 ∧
      (lex "x = 1.5 // half\n\"a\\\"\" @ \"b").Tiles "x = 1.5 // half\n\"a\\\"\" @ \"b" :=
  ⟨by decide +kernel, lex_tiles _ (by decide +kernel)⟩

end Token

end StackScript
