import StackScript.Proofs.Token.Tiling
import StackScript.Proofs.Tree.Steps

/-! # The way of the parser through the tokens

The parser stands in front of the token at its position, and only goes on from there. What it records
on the way are the spans of tokens it passes, in their order, and fewer than there are such tokens.
-/

namespace StackScript

/-- Tokens in the order of the source, its end the last of them. -/
structure Token.Stream (ts : List Token) : Prop where
  ended : Token.Ended ts
  ordered : ts.Pairwise (·.span.stop ≤ ·.span.start)
  filled : ∀ t ∈ ts, t.span.start ≤ t.span.stop

theorem Token.lex_stream (source : String) : Token.Stream (lex source).tokens.toList :=
  ⟨lex_ended source, (lex_ordered source).1, (lex_ordered source).2⟩

def tokenSpan (ts : List Token) (i : Nat) : Span := (ts[i]?.map (·.span)).getD Span.nowhere

/-- The span from the token at `i` up to, and without, the one at `j`. -/
def tokensSpan (ts : List Token) (i j : Nat) : Span :=
  ⟨(tokenSpan ts i).start, (tokenSpan ts (j - 1)).stop⟩

/-- The reader that has passed the first `i` tokens. -/
def TokenReader.passed (ts : List Token) : Nat → TokenReader
  | 0 => ⟨ts, Span.nowhere, 0⟩
  | i + 1 => ⟨ts.drop (i + 1), tokenSpan ts i, i + 1⟩

namespace Token.Stream

variable {ts : List Token} {i j a b : Nat}

theorem eof_iff (h : Token.Stream ts) {t : Token} (ht : ts[i]? = some t) :
    t.kind = .eof ↔ i + 1 = ts.length := by
  obtain ⟨body, stop, rfl, hstop, hbody⟩ := h.ended
  rw [List.length_append, List.length_singleton]
  rcases Nat.lt_or_ge i body.length with hi | hi
  · rw [List.getElem?_append_left hi] at ht
    simp only [hbody t (List.mem_of_getElem? ht), false_iff]
    omega
  · rw [List.getElem?_append_right hi, List.getElem?_singleton] at ht
    split at ht
    · cases ht
      simp only [hstop, true_iff]
      omega
    · cases ht

theorem tokenSpan_eq (hi : i < ts.length) : tokenSpan ts i = ts[i].span := by
  simp [tokenSpan, hi]

theorem token (h : Token.Stream ts) (hi : i + 1 < ts.length) :
    ∃ t ∈ ts, t.kind ≠ .eof ∧ tokenSpan ts i = t.span := by
  have hlt : i < ts.length := by omega
  refine ⟨ts[i], List.getElem_mem hlt, ?_, tokenSpan_eq hlt⟩
  exact mt (h.eof_iff (List.getElem?_eq_getElem hlt)).mp hi.ne

theorem tokenSpan_ordered (h : Token.Stream ts) (hij : i < j) (hj : j < ts.length) :
    (tokenSpan ts i).stop ≤ (tokenSpan ts j).start := by
  have hi := Nat.lt_trans hij hj
  rw [tokenSpan_eq hi, tokenSpan_eq hj]
  exact List.pairwise_iff_getElem.mp h.ordered i j hi hj hij

theorem tokenSpan_mono (h : Token.Stream ts) (hij : i ≤ j) (hj : j < ts.length) :
    (tokenSpan ts i).start ≤ (tokenSpan ts j).start ∧
      (tokenSpan ts i).stop ≤ (tokenSpan ts j).stop := by
  have hspan {k : Nat} (hk : k < ts.length) : (tokenSpan ts k).start ≤ (tokenSpan ts k).stop :=
    tokenSpan_eq hk ▸ h.filled _ (List.getElem_mem hk)
  rcases Nat.eq_or_lt_of_le hij with rfl | hlt
  · exact ⟨Nat.le_refl _, Nat.le_refl _⟩
  · have hnext := h.tokenSpan_ordered hlt hj
    exact ⟨Nat.le_trans (hspan (Nat.lt_trans hlt hj)) hnext, Nat.le_trans hnext (hspan hj)⟩

theorem merge_tokensSpan (h : Token.Stream ts) (hib : i ≤ b) (hbj : b < j) (haj : a ≤ j)
    (hj : j ≤ ts.length) :
    (tokensSpan ts i a).merge (tokensSpan ts b j) = tokensSpan ts i j := by
  have hstart := (h.tokenSpan_mono hib (by omega)).1
  have hstop := (h.tokenSpan_mono (i := a - 1) (j := j - 1) (by omega) (by omega)).2
  rw [Span.merge, tokensSpan, tokensSpan, tokensSpan, Nat.min_eq_left hstart,
    Nat.max_eq_right hstop]

end Token.Stream

def Parser.position (p : Parser) : Nat := p.reader.position

/-- The parser stands in front of the token at its position. -/
structure Parser.Placed (ts : List Token) (p : Parser) : Prop where
  reader : p.reader = .passed ts p.position
  lt : p.position < ts.length

/-- Errors at tokens between the positions `i` and `j`, in their order. -/
def Noted (ts : List Token) (i j : Nat) (es : List ParseError) : Prop :=
  ∃ js : List Nat, es.map (·.span) = js.map (tokenSpan ts) ∧ js.Pairwise (· ≤ ·) ∧
    ∀ k ∈ js, i ≤ k ∧ k ≤ j

/-- From `p` on to `p'`, with at least `spare` more tokens passed than errors recorded if there are
any. -/
structure Parser.Moves (ts : List Token) (spare : Nat) (p p' : Parser) : Prop where
  placed : p'.Placed ts
  le : p.position ≤ p'.position
  errors : ∃ es, p'.errors.toList = p.errors.toList ++ es ∧
    Noted ts p.position p'.position es ∧ es.length ≤ p'.position - p.position - spare

namespace Noted

variable {ts : List Token} {i j k : Nat} {es fs : List ParseError}

theorem nil : Noted ts i j [] := ⟨[], rfl, .nil, nofun⟩

theorem append (he : Noted ts i j es) (hf : Noted ts j k fs) (hij : i ≤ j) (hjk : j ≤ k) :
    Noted ts i k (es ++ fs) := by
  obtain ⟨is, his, hsorted, hbounds⟩ := he
  obtain ⟨js, hjs, hsorted', hbounds'⟩ := hf
  refine ⟨is ++ js, by simp [his, hjs], List.pairwise_append.mpr ⟨hsorted, hsorted', ?_⟩, ?_⟩
  · exact fun a ha b hb => Nat.le_trans (hbounds a ha).2 (hbounds' b hb).1
  · intro a ha
    rcases List.mem_append.mp ha with ha | ha
    · exact ⟨(hbounds a ha).1, Nat.le_trans (hbounds a ha).2 hjk⟩
    · exact ⟨Nat.le_trans hij (hbounds' a ha).1, (hbounds' a ha).2⟩

theorem mono {i' j' : Nat} (h : Noted ts i j es) (hi : i' ≤ i) (hj : j ≤ j') : Noted ts i' j' es := by
  obtain ⟨js, hjs, hsorted, hbounds⟩ := h
  exact ⟨js, hjs, hsorted, fun k hk =>
    ⟨Nat.le_trans hi (hbounds k hk).1, Nat.le_trans (hbounds k hk).2 hj⟩⟩

theorem singleton {e : ParseError} (he : e.span = tokenSpan ts i) : Noted ts i i [e] :=
  ⟨[i], by simp [he], by simp, by simp⟩

end Noted

section Placed

variable {ts : List Token} {p q r : Parser} {spare : Nat}

theorem TokenReader.passed_rest (ts : List Token) (i : Nat) : (passed ts i).rest = ts.drop i := by
  cases i <;> rfl

theorem TokenReader.passed_position (ts : List Token) (i : Nat) : (passed ts i).position = i := by
  cases i <;> rfl

theorem TokenReader.passed_current {i : Nat} (hi : i < ts.length) :
    ts[i]? = some (passed ts i).current := by
  rw [current, passed_rest, List.drop_eq_getElem_cons hi, List.getElem?_eq_getElem hi]

theorem TokenReader.passed_advance {i : Nat} {t : Token} (ht : ts[i]? = some t)
    (hk : t.kind ≠ .eof) : (passed ts i).advance = passed ts (i + 1) := by
  obtain ⟨hi, rfl⟩ := List.getElem?_eq_some_iff.mp ht
  have hrest := (passed_rest ts i).trans (List.drop_eq_getElem_cons hi)
  rw [advance_cons hrest hk, passed_position, passed, tokenSpan, ht]
  rfl

namespace Parser.Placed

theorem current (h : p.Placed ts) : ts[p.position]? = some p.reader.current := by
  rw [h.reader]
  exact TokenReader.passed_current h.lt

theorem span (h : p.Placed ts) : p.reader.current.span = tokenSpan ts p.position := by
  simp [tokenSpan, h.current]

theorem previous (h : p.Placed ts) (hpos : 0 < p.position) :
    p.reader.previous = tokenSpan ts (p.position - 1) := by
  rw [h.reader]
  obtain ⟨i, hi⟩ := Nat.exists_eq_add_of_lt hpos
  rw [hi]
  simp [TokenReader.passed]

theorem eof_iff (hts : Token.Stream ts) (h : p.Placed ts) :
    p.kind = .eof ↔ p.position + 1 = ts.length := hts.eof_iff h.current

theorem next (hts : Token.Stream ts) (h : p.Placed ts) (hk : p.kind ≠ .eof) :
    p.next.Placed ts ∧ p.next.position = p.position + 1 := by
  have hlt := h.lt
  have hlast := mt (h.eof_iff hts).mpr hk
  have hadvance : p.reader.advance = .passed ts (p.position + 1) := by
    conv_lhs => rw [h.reader]
    exact TokenReader.passed_advance h.current hk
  have hposition : p.next.position = p.position + 1 :=
    (congrArg TokenReader.position hadvance).trans (TokenReader.passed_position ..)
  exact ⟨⟨hposition ▸ hadvance, by omega⟩, hposition⟩

end Parser.Placed

section Recovery

/-- The end is never passed. -/
theorem TokenReader.advance_eof {r : TokenReader} (h : r.current.kind = .eof) : r.advance = r := by
  unfold current at h
  rcases r with ⟨_ | ⟨t, ts⟩, previous, position⟩
  · rfl
  · simp only at h
    simp [advance, h]

theorem TokenReader.skipStatement_boundary {r : TokenReader} (h : isBoundary r.current.kind = true) :
    skipStatement r.rest r.previous r.position = r := by
  unfold current at h
  rcases r with ⟨_ | ⟨t, ts⟩, previous, position⟩
  · rfl
  · rw [skipStatement, if_pos h]

variable {i : Nat} (hts : Token.Stream ts) (hi : i < ts.length)
include hts hi

theorem TokenReader.passed_lt (h : (passed ts i).current.kind ≠ .eof) : i + 1 < ts.length := by
  have := mt (hts.eof_iff (passed_current hi)).mpr h
  omega

theorem TokenReader.skipStatement_passed :
    ∃ j, i ≤ j ∧ j < ts.length ∧
      skipStatement (passed ts i).rest (passed ts i).previous (passed ts i).position = passed ts j ∧
      (j = i → isBoundary (passed ts i).current.kind = true) := by
  obtain ⟨n, hn⟩ := Nat.exists_eq_add_of_lt hi
  induction n generalizing i with
  | zero =>
    have hboundary : isBoundary (passed ts i).current.kind = true := by
      rw [(hts.eof_iff (passed_current hi)).mpr hn.symm]
      rfl
    exact ⟨i, Nat.le_refl i, hi, skipStatement_boundary hboundary, fun _ => hboundary⟩
  | succ n ih =>
    have hcurrent := passed_current hi
    have hrest : (passed ts i).rest = (passed ts i).current :: (passed ts (i + 1)).rest := by
      obtain ⟨_, hget⟩ := List.getElem?_eq_some_iff.mp hcurrent
      rw [passed_rest, passed_rest, ← hget, List.drop_eq_getElem_cons hi]
    have hprevious : (passed ts (i + 1)).previous = (passed ts i).current.span := by
      simp [passed, tokenSpan, hcurrent]
    by_cases hboundary : isBoundary (passed ts i).current.kind = true
    · exact ⟨i, Nat.le_refl i, hi, skipStatement_boundary hboundary, fun _ => hboundary⟩
    · rw [hrest, skipStatement, if_neg hboundary, passed_position, ← hprevious]
      split
      · exact ⟨i + 1, Nat.le_succ i, by omega, rfl, by omega⟩
      · obtain ⟨j, hle, hj, hskip, -⟩ := ih (show i + 1 < ts.length by omega) (by omega)
        rw [passed_position] at hskip
        exact ⟨j, by omega, hj, hskip, by omega⟩

/-- Recovery goes on, unless the reader is at the end, or in front of a boundary and a token of the
statement has been passed before. -/
theorem TokenReader.recover_passed (start : Nat) :
    ∃ j, j < ts.length ∧ (passed ts i).recover start = passed ts j ∧
      (i < j ∨ i = j ∧ ((passed ts i).current.kind = .eof ∨
        i ≠ start ∧ isBoundary (passed ts i).current.kind = true)) := by
  unfold recover
  rw [passed_position]
  dsimp only
  split
  · by_cases heof : (passed ts i).current.kind = .eof
    · refine ⟨i, hi, ?_, .inr ⟨rfl, .inl heof⟩⟩
      rw [advance_eof heof]
      exact skipStatement_boundary (heof ▸ rfl)
    · rw [passed_advance (passed_current hi) heof]
      obtain ⟨j, hle, hj, hskip, -⟩ := skipStatement_passed hts (passed_lt hts hi heof)
      exact ⟨j, hj, hskip, .inl (by omega)⟩
  · next hstart =>
    obtain ⟨j, hle, hj, hskip, hboundary⟩ := skipStatement_passed hts hi
    refine ⟨j, hj, hskip, ?_⟩
    rcases Nat.eq_or_lt_of_le hle with heq | hlt
    · exact .inr ⟨heq, .inr ⟨hstart, hboundary heq.symm⟩⟩
    · exact .inl hlt

end Recovery

namespace Parser.Moves

theorem refl (h : p.Placed ts) : p.Moves ts spare p :=
  ⟨h, Nat.le_refl _, [], (List.append_nil _).symm, .nil, Nat.zero_le _⟩

theorem trans (h : p.Moves ts spare q) (h' : q.Moves ts spare r) : p.Moves ts spare r := by
  obtain ⟨-, hle, es, herrors, hnoted, hcount⟩ := h
  obtain ⟨hr, hle', fs, herrors', hnoted', hcount'⟩ := h'
  refine ⟨hr, Nat.le_trans hle hle', es ++ fs, ?_, hnoted.append hnoted' hle hle', ?_⟩
  · rw [herrors', herrors, List.append_assoc]
  · rw [List.length_append]
    omega

theorem next (hts : Token.Stream ts) (hp : p.Placed ts) (hk : p.kind ≠ .eof)
    (h : p.next.Moves ts spare q) : p.Moves ts (spare + 1) q := by
  obtain ⟨-, hposition⟩ := hp.next hts hk
  obtain ⟨hq, hle, es, herrors, hnoted, hcount⟩ := h
  have hfirst : Noted ts p.position p.next.position [] := .nil
  rw [hposition] at hle hnoted hcount hfirst
  exact ⟨hq, by omega, es, herrors, hfirst.append hnoted (by omega) hle, by omega⟩

theorem weaken {spare' : Nat} (h : p.Moves ts spare' q) (hle : spare ≤ spare') :
    p.Moves ts spare q := by
  obtain ⟨es, herrors, hnoted, hcount⟩ := h.errors
  exact ⟨h.placed, h.le, es, herrors, hnoted, by omega⟩

theorem recover {e : ParseError} (hts : Token.Stream ts) (hp : p.Placed ts) (hk : p.kind ≠ .eof)
    (h : p.Moves ts 1 q) (he : e.span = tokenSpan ts q.position) :
    p.Moves ts 0 ⟨q.reader.recover p.position, q.errors.push e⟩ ∧
      p.position < (q.reader.recover p.position).position := by
  obtain ⟨hq, hle, es, herrors, hnoted, hcount⟩ := h
  obtain ⟨j, hj, hrecover, hprogress⟩ := TokenReader.recover_passed hts hq.lt p.position
  rw [← hq.reader] at hrecover hprogress
  obtain ⟨hqj, hlt⟩ : q.position ≤ j ∧ p.position < j := by
    rcases hprogress with hlt | ⟨rfl, heof | ⟨hne, -⟩⟩
    · omega
    · have := (hq.eof_iff hts).mp heof
      have := mt (hp.eof_iff hts).mpr hk
      have := hp.lt
      omega
    · omega
  have hposition : Parser.position ⟨.passed ts j, q.errors.push e⟩ = j :=
    TokenReader.passed_position ts j
  have herror : Noted ts p.position j (es ++ [e]) :=
    (hnoted.append (.singleton he) hle (Nat.le_refl _)).mono (Nat.le_refl _) hqj
  rw [hrecover]
  refine ⟨⟨⟨?_, ?_⟩, ?_, es ++ [e], ?_, ?_, ?_⟩, ?_⟩
  · rw [hposition]
  · rwa [hposition]
  · rw [hposition]
    exact hlt.le
  · rw [Array.toList_push, herrors, List.append_assoc]
  · rwa [hposition]
  · rw [hposition, List.length_append, List.length_singleton]
    omega
  · rwa [TokenReader.passed_position]

end Parser.Moves

end Placed

namespace Parse

variable {ts : List Token} {spare : Nat} {p q : Parser} {α β : Type} {x y : Parse α}
  {f : α → Parse β} {Q Q' : α → Nat → Prop} {R : β → Nat → Prop}

theorem discard_bind (x : Parse α) (f : Unit → Parse β) :
    (discard x : Parse Unit) >>= f = x >>= fun _ => f () := by
  funext p
  rw [bind_apply, discard_apply, bind_apply]
  rcases x p with ⟨_ | _, _⟩ <;> rfl

/-- From `p` the step goes on to a position and a result in `Q`, or to the token of its error. -/
def Goes (ts : List Token) (spare : Nat) (x : Parse α) (p : Parser) (Q : α → Nat → Prop) : Prop :=
  Gives x p (fun a p' => p.Moves ts spare p' ∧ Q a p'.position)
    fun e p' => p.Moves ts spare p' ∧ e.span = tokenSpan ts p'.position

namespace Goes

theorem after (hp : p.Moves ts spare q) (h : Goes ts spare x q Q) (hx : y p = x q) :
    Goes ts spare y p Q := by
  unfold Goes Gives at h ⊢
  rw [hx]
  rcases hxq : x q with ⟨e | a, r⟩ <;> rw [hxq] at h <;> exact ⟨hp.trans h.1, h.2⟩

theorem bind (h : Goes ts spare x p Q)
    (hf : ∀ a q, q.Placed ts → p.position ≤ q.position → Q a q.position → Goes ts spare (f a) q R) :
    Goes ts spare (x >>= f) p R := by
  refine Gives.bind h (fun _ _ he => he) fun a q ⟨hmoves, ha⟩ => ?_
  exact (hf a q hmoves.placed hmoves.le ha).mono (fun _ _ ⟨hmoves', hb⟩ => ⟨hmoves.trans hmoves', hb⟩)
    fun _ _ ⟨hmoves', he⟩ => ⟨hmoves.trans hmoves', he⟩

theorem mono (h : Goes ts spare x p Q) (hQ : ∀ a j, Q a j → Q' a j) : Goes ts spare x p Q' :=
  Gives.mono h (fun _ _ ⟨hmoves, ha⟩ => ⟨hmoves, hQ _ _ ha⟩) fun _ _ he => he

theorem weaken {spare' : Nat} (h : Goes ts spare' x p Q) (hle : spare ≤ spare') :
    Goes ts spare x p Q :=
  Gives.mono h (fun _ _ ⟨hmoves, ha⟩ => ⟨hmoves.weaken hle, ha⟩)
    fun _ _ ⟨hmoves, he⟩ => ⟨hmoves.weaken hle, he⟩

theorem pure {a : α} (hp : p.Placed ts) (h : Q a p.position) : Goes ts spare (pure a) p Q :=
  ⟨.refl hp, h⟩

theorem fail {cause : ParseError.Cause} (hp : p.Placed ts) : Goes ts spare (fail cause) p Q :=
  ⟨.refl hp, hp.span⟩

theorem noExpression (hp : p.Placed ts) : Goes ts spare noExpression p Q :=
  ⟨.refl hp, hp.span⟩

theorem reading {f : TokenReader → Parse β} (h : Goes ts spare (f p.reader) p R) :
    Goes ts spare (reader >>= f) p R := h

theorem spanFrom {start : Span} {f : Span → Parse β}
    (h : Goes ts spare (f (p.reader.spanFrom start)) p R) :
    Goes ts spare (spanFrom start >>= f) p R := h

section Steps

variable (hts : Token.Stream ts) (hp : p.Placed ts)
include hts hp

theorem sparing (hk : p.kind ≠ .eof) (hx : y p = x p.next)
    (h : p.next.Placed ts → p.next.position = p.position + 1 → Goes ts spare x p.next Q) :
    Goes ts (spare + 1) y p Q := by
  obtain ⟨hnext, hposition⟩ := hp.next hts hk
  have hnext := h hnext hposition
  unfold Goes Gives at hnext ⊢
  rw [hx]
  rcases hxq : x p.next with ⟨e | a, r⟩ <;> rw [hxq] at hnext <;>
    exact ⟨.next hts hp hk hnext.1, hnext.2⟩

theorem passing (hk : p.kind ≠ .eof) (hx : y p = x p.next)
    (h : p.next.Placed ts → p.next.position = p.position + 1 → Goes ts spare x p.next Q) :
    Goes ts spare y p Q :=
  (sparing hts hp hk hx h).weaken (Nat.le_succ _)

theorem advance {f : Token → Parse β} (hk : p.kind ≠ .eof)
    (h : p.next.Placed ts → p.next.position = p.position + 1 →
      Goes ts spare (f p.reader.current) p.next R) :
    Goes ts spare (advance >>= f) p R :=
  passing hts hp hk (advance_bind f) h

theorem eat {m : Mark} {x y : Parse β}
    (hyes : p.next.Placed ts → p.next.position = p.position + 1 → Goes ts spare x p.next R)
    (hno : Goes ts spare y p R) :
    Goes ts spare (eat m >>= fun b => if b = true then x else y) p R := by
  by_cases hm : p.reader.atMark m = true
  · have hk : p.kind = .mark m := TokenReader.atMark_iff.mp hm
    exact passing hts hp (by simp [hk]) ((eat_bind m _).trans (if_pos hm)) hyes
  · exact hno.after (.refl hp) ((eat_bind m _).trans (if_neg hm))

theorem eatKeyword {w : Keyword} {x y : Parse β}
    (hyes : p.next.Placed ts → p.next.position = p.position + 1 → Goes ts spare x p.next R)
    (hno : Goes ts spare y p R) :
    Goes ts spare (eatKeyword w >>= fun b => if b = true then x else y) p R := by
  by_cases hw : p.reader.atKeyword w = true
  · have hk : p.kind = .keyword w := TokenReader.atKeyword_iff.mp hw
    exact passing hts hp (by simp [hk]) ((eatKeyword_bind w _).trans (if_pos hw)) hyes
  · exact hno.after (.refl hp) ((eatKeyword_bind w _).trans (if_neg hw))

theorem optional {m : Mark} {f : Unit → Parse β}
    (h : ∀ q : Parser, q.Placed ts → p.position ≤ q.position → Goes ts spare (f ()) q R) :
    Goes ts spare ((discard (Parse.eat m) : Parse Unit) >>= f) p R := by
  by_cases hm : p.reader.atMark m = true
  · have hk : p.kind = .mark m := TokenReader.atMark_iff.mp hm
    exact passing hts hp (by simp [hk]) ((discard_eat_bind m f).trans (by rw [if_pos hm]))
      fun hq hposition => h _ hq (hposition ▸ Nat.le_succ _)
  · exact (h p hp (Nat.le_refl _)).after (.refl hp) ((discard_eat_bind m f).trans (by rw [if_neg hm]))

theorem opening {m : Mark} {f : Span → Parse β}
    (h : p.next.Placed ts → p.next.position = p.position + 1 →
      Goes ts spare (f p.reader.current.span) p.next R) :
    Goes ts (spare + 1) (expect m >>= f) p R := by
  rw [Parse.expect, bind_assoc]
  refine reading ?_
  split
  · next hm =>
    have hk : p.kind = .mark m := TokenReader.atMark_iff.mp hm
    exact sparing hts hp (by simp [hk]) rfl h
  · exact fail hp

theorem expect {m : Mark} {f : Span → Parse β}
    (h : p.next.Placed ts → p.next.position = p.position + 1 →
      Goes ts spare (f p.reader.current.span) p.next R) :
    Goes ts spare (expect m >>= f) p R :=
  (opening hts hp h).weaken (Nat.le_succ _)

theorem expectClosing {close delimiter : Mark} {opened : Span} {f : Unit → Parse β}
    (h : p.next.Placed ts → p.next.position = p.position + 1 → Goes ts spare (f ()) p.next R) :
    Goes ts spare (expectClosing close delimiter opened >>= f) p R := by
  rw [Parse.expectClosing, bind_assoc]
  refine reading ?_
  split
  · exact fail hp
  · rw [discard_bind]
    exact expect hts hp h

theorem expectIdent {f : Ident → Parse β}
    (h : ∀ name, p.next.Placed ts → p.next.position = p.position + 1 →
      Goes ts spare (f ⟨name, p.reader.current.span⟩) p.next R) :
    Goes ts spare (expectIdent >>= f) p R := by
  rw [Parse.expectIdent, bind_assoc]
  refine reading ?_
  dsimp only
  split
  · next name hk =>
    rw [discard_bind, bind_assoc]
    exact advance hts hp (by simp [Parser.kind, hk]) (h name)
  · exact fail hp

end Steps

end Goes

end Parse

end StackScript
