import Mathlib.Data.List.DropRight
import StackScript.Proofs.Source.Lines

/-! # Positions in a text

An offset on a character boundary stands on one line behind some characters of that line. Its line and
column say how many lines and characters those are, so they determine the offset, and the text of a line
is what stands between two starts, without the line ends behind it. Line and column are one more than
these counts. That is more than 32 bits hold only where a count is 2 ^ 32 - 1, so at the last offset of
the longest source; there the number is zero, and one less than it is still the count.
-/

namespace StackScript

open Token (byteLength byteLength_eq byteLength_cons byteLength_append length_le_byteLength)

/-- A line starts behind `before`. -/
def LineStart (before : List Char) : Prop := before = [] ∨ ∃ lead, before = lead ++ ['\n']

/-- Every text is some lines and what the line behind them has. -/
theorem exists_lineStart (cs : List Char) : ∃ before indent,
    cs = before ++ indent ∧ LineStart before ∧ '\n' ∉ indent := by
  induction cs using List.reverseRecOn with
  | nil => exact ⟨[], [], rfl, .inl rfl, List.not_mem_nil⟩
  | append_singleton cs c ih =>
    by_cases hc : c = '\n'
    · exact ⟨cs ++ ['\n'], [], by rw [hc, List.append_nil], .inr ⟨cs, rfl⟩, List.not_mem_nil⟩
    · obtain ⟨before, indent, rfl, hbefore, hindent⟩ := ih
      refine ⟨before, indent ++ [c], List.append_assoc .., hbefore, ?_⟩
      simp [hindent, Ne.symm hc]

namespace Lines

variable {source : String} {before indent after text rest : List Char} {i : Nat} {line : Line}

section Reading

/-- What the readers of a number of bytes do at a character that these bytes begin with. -/
theorem exists_byteLength_cons (c : Char) (cs : List Char) : ∃ n,
    byteLength (c :: cs) = n + 1 ∧ c.utf8Size ≤ n + 1 ∧ n + 1 - c.utf8Size = byteLength cs := by
  have hpos := c.utf8Size_pos
  rw [byteLength_cons]
  exact ⟨c.utf8Size + byteLength cs - 1, by omega, by omega, by omega⟩

theorem charsWithin_append (seen : Nat) (cs rest : List Char) :
    charsWithin seen (cs ++ rest) (byteLength cs) = some (seen + cs.length) := by
  induction cs generalizing seen with
  | nil => cases rest <;> rfl
  | cons c cs ih =>
    obtain ⟨n, hn, hle, hrest⟩ := exists_byteLength_cons c cs
    rw [hn, List.cons_append, charsWithin, if_pos hle, hrest, ih, List.length_cons, Nat.add_assoc,
      Nat.add_comm 1]

theorem dropBytes_append (cs rest : List Char) :
    dropBytes (cs ++ rest) (byteLength cs) = some rest := by
  induction cs with
  | nil => cases rest <;> rfl
  | cons c cs ih =>
    obtain ⟨n, hn, hle, hrest⟩ := exists_byteLength_cons c cs
    rw [hn, List.cons_append, dropBytes, if_pos hle, hrest, ih]

end Reading

/-- The entries of the table are the starts of lines. -/
theorem getElem?_starts_iff : (ofText source).starts[i]? = some line ↔ ∃ before,
    source.toList = before ++ line.rest ∧ LineStart before ∧ line.start = byteLength before ∧
      before.count '\n' = i := by
  rw [starts_ofText, List.getElem?_toArray]
  cases i with
  | zero =>
    rw [List.getElem?_cons_zero, Option.some.injEq]
    constructor
    · rintro rfl
      exact ⟨[], rfl, .inl rfl, rfl, rfl⟩
    · rintro ⟨before, hrest, rfl | ⟨lead, rfl⟩, hstart, hcount⟩
      · cases line
        cases hrest
        cases hstart
        rfl
      · simp at hcount
  | succ i =>
    rw [List.getElem?_cons_succ, getElem?_breaks_iff]
    constructor
    · rintro ⟨lead, hrest, hstart, rfl⟩
      refine ⟨lead ++ ['\n'], ?_, .inr ⟨lead, rfl⟩, ?_, ?_⟩
      · rw [hrest, List.append_assoc, List.singleton_append]
      · rw [hstart, byteLength_append, Nat.zero_add]
        rfl
      · simp
    · rintro ⟨before, hrest, rfl | ⟨lead, rfl⟩, hstart, hcount⟩
      · cases hcount
      · refine ⟨lead, ?_, ?_, ?_⟩
        · rw [hrest, List.append_assoc, List.singleton_append]
        · rw [hstart, byteLength_append, Nat.zero_add]
          rfl
        · simpa using hcount

theorem start?_eq (t : Lines) {number : UInt32} (h : number ≠ 0) :
    t.start? number = t.starts[(number - 1).toNat]?.map (·.start) := if_neg h

theorem text?_eq (t : Lines) {number : UInt32} (h : number ≠ 0) :
    t.text? number = t.starts[(number - 1).toNat]?.map fun line => String.ofList line.chars := by
  rw [text?, chars?, if_neg h, entry?, Option.map_map]
  rfl

/-- The source is `before`, behind which a line starts, the first characters `indent` of that line and
what comes `after`. -/
structure Spot (source : String) (before indent after : List Char) : Prop where
  source_eq : source.toList = before ++ (indent ++ after)
  lineStart : LineStart before
  sameLine : '\n' ∉ indent

namespace Spot

theorem exists_of_valid {offset : Nat} (h : String.Pos.Raw.IsValid source ⟨offset⟩) :
    ∃ before indent after, Spot source before indent after ∧
      offset = byteLength before + byteLength indent := by
  obtain ⟨lead, rest, rfl, hsize⟩ := String.Pos.Raw.isValid_iff_exists_append.mp h
  obtain ⟨before, indent, hlead, hbefore, hindent⟩ := exists_lineStart lead.toList
  refine ⟨before, indent, rest.toList, ⟨?_, hbefore, hindent⟩, ?_⟩
  · rw [String.toList_append, hlead, List.append_assoc]
  · rw [← byteLength_append, ← hlead, byteLength_eq, String.ofList_toList]
    exact congrArg String.Pos.Raw.byteIdx hsize

variable (h : Spot source before indent after)
include h

theorem entry : (ofText source).starts[before.count '\n']? =
    some ⟨byteLength before, indent ++ after⟩ :=
  getElem?_starts_iff.mpr ⟨before, h.source_eq, h.lineStart, rfl, rfl⟩

theorem indexOf_eq :
    (ofText source).indexOf (byteLength before + byteLength indent) = before.count '\n' := by
  have hcount := upTo_breaks_eq 0 (before ++ indent) after
  rw [Nat.zero_add, byteLength_append, List.append_assoc, ← h.source_eq, List.count_append,
    List.count_eq_zero.mpr h.sameLine, Nat.add_zero] at hcount
  rw [Lines.indexOf_eq, hcount]

theorem size_eq : (ofText source).size =
    byteLength before + byteLength indent + byteLength after := by
  rw [size_ofText, ← String.ofList_toList (s := source), ← byteLength_eq, h.source_eq, byteLength_append,
    byteLength_append, Nat.add_assoc]

omit h in
/-- There are no more line feeds and no more characters in front of an offset than bytes. -/
theorem count_le {n : Nat} (hn : byteLength before + byteLength indent < n) :
    before.count '\n' < n ∧ indent.length < n := by
  have hfeeds : before.count '\n' ≤ before.length := List.count_le_length
  have hbefore := length_le_byteLength before
  have hindent := length_le_byteLength indent
  omega

theorem counts_lt (hsize : source.utf8ByteSize ≤ Span.maxOffset) :
    before.count '\n' < UInt32.size ∧ indent.length < UInt32.size := by
  have hbytes := h.size_eq
  rw [size_ofText] at hbytes
  exact count_le (Nat.lt_succ_of_le (by omega : _ ≤ Span.maxOffset))

theorem position_eq (hsize : source.utf8ByteSize ≤ Span.maxOffset) :
    (ofText source).position (byteLength before + byteLength indent) =
      (oneBased (before.count '\n'), oneBased indent.length) := by
  have hbytes : min (byteLength before + byteLength indent) (ofText source).size - byteLength before =
      byteLength indent := by
    rw [h.size_eq]
    omega
  simp only [position, lineOf, h.indexOf_eq, entry?, oneBased_sub_one (h.counts_lt hsize).1, h.entry,
    hbytes, charsWithin_append, Option.getD_some, Nat.zero_add]

theorem start?_eq (hn : before.count '\n' + 1 < UInt32.size) :
    (ofText source).start? (oneBased (before.count '\n')) = some (byteLength before) := by
  have hnumber : oneBased (before.count '\n') ≠ 0 := fun hzero => by
    simpa [hzero] using toNat_oneBased hn
  rw [Lines.start?_eq _ hnumber, oneBased_sub_one (Nat.lt_of_succ_lt hn), h.entry, Option.map_some]

end Spot

section Texts

/-- A text without the line feeds and carriage returns at its end. -/
def trimmed (text : List Char) : List Char := text.rdropWhile fun c => c == '\n' || c == '\r'

theorem trimmed_concat (text : List Char) : trimmed (text ++ ['\n']) = trimmed text :=
  List.rdropWhile_concat_pos _ _ _ rfl

theorem rdropWhile_eq_trimmed (h : '\n' ∉ text) : text.rdropWhile (· == '\r') = trimmed text := by
  induction text using List.reverseRecOn with
  | nil => rfl
  | append_singleton text c ih =>
    obtain ⟨htext, hc⟩ : '\n' ∉ text ∧ c ≠ '\n' := by simpa [eq_comm] using h
    rw [trimmed, List.rdropWhile_concat, List.rdropWhile_concat, ih htext, trimmed,
      beq_eq_false_iff_ne.mpr hc, Bool.false_or]

def firstLine (rest : List Char) : List Char := trimmed (rest.takeWhile (· != '\n'))

theorem firstLine_prefix (rest : List Char) : firstLine rest <+: rest :=
  (List.rdropWhile_prefix _ _).trans (List.takeWhile_prefix _)

theorem chars_eq (line : Line) : line.chars = firstLine line.rest := by
  have hline : '\n' ∉ line.rest.takeWhile (· != '\n') := fun h => by
    simpa using List.mem_takeWhile_imp h
  rw [firstLine, ← rdropWhile_eq_trimmed hline]
  rfl

theorem exists_body (rest : List Char) : ∃ body after, rest = body ++ after ∧ '\n' ∉ body ∧
    rest.takeWhile (· != '\n') = body ∧ (after = [] ∨ ∃ next, after = '\n' :: next) := by
  induction rest with
  | nil => exact ⟨[], [], rfl, List.not_mem_nil, rfl, .inl rfl⟩
  | cons c rest ih =>
    by_cases hc : c = '\n'
    · subst hc
      exact ⟨[], '\n' :: rest, rfl, List.not_mem_nil, rfl, .inr ⟨rest, rfl⟩⟩
    · obtain ⟨body, after, hrest, hbody, htake, hafter⟩ := ih
      refine ⟨c :: body, after, congrArg (c :: ·) hrest, by simp [hbody, Ne.symm hc], ?_, hafter⟩
      rw [List.takeWhile_cons_of_pos (by simpa using hc), htake]

theorem starts_eq_none (h : source.toList.count '\n' < i) : (ofText source).starts[i]? = none := by
  rw [Option.eq_none_iff_forall_ne_some]
  intro line hline
  obtain ⟨before, hsource, -, -, rfl⟩ := getElem?_starts_iff.mp hline
  rw [hsource, List.count_append] at h
  omega

/-- The line `i` is `text`, and it is shown without the line ends behind it. -/
theorem exists_text (hline : (ofText source).starts[i]? = some line) : ∃ before text after,
    source.toList = before ++ (text ++ after) ∧ line.start = byteLength before ∧
      (((ofText source).starts[i + 1]?).map (·.start)).getD source.utf8ByteSize =
        line.start + byteLength text ∧
      line.chars = trimmed text := by
  obtain ⟨before, hsource, hbefore, hstart, rfl⟩ := getElem?_starts_iff.mp hline
  obtain ⟨body, after, hrest, hbody, htake, hafter⟩ := exists_body line.rest
  have hchars : line.chars = trimmed body := by rw [chars_eq, firstLine, htake]
  have hnewlines : body.count '\n' = 0 := List.count_eq_zero.mpr hbody
  rw [hrest] at hsource
  rcases hafter with rfl | ⟨next, rfl⟩
  · refine ⟨before, body, [], hsource, hstart, ?_, hchars⟩
    rw [List.append_nil] at hsource
    rw [starts_eq_none (by rw [hsource, List.count_append]; omega), Option.map_none, Option.getD_none,
      ← String.ofList_toList (s := source), ← byteLength_eq, hsource, byteLength_append, hstart]
  · have hnext : source.toList = before ++ (body ++ ['\n']) ++ next := by simpa using hsource
    refine ⟨before, body ++ ['\n'], next, by rw [hnext, List.append_assoc], hstart, ?_, ?_⟩
    · have hentry : (ofText source).starts[before.count '\n' + 1]? =
          some ⟨byteLength (before ++ (body ++ ['\n'])), next⟩ :=
        getElem?_starts_iff.mpr ⟨_, hnext, .inr ⟨before ++ body, (List.append_assoc ..).symm⟩, rfl,
          by simp [hnewlines]⟩
      rw [hentry, Option.map_some, Option.getD_some, byteLength_append, hstart]
    · rw [hchars, trimmed_concat]

/-- Behind the largest line number comes no other: at most the end of the source starts a line there. -/
theorem start_last (hsize : source.utf8ByteSize ≤ Span.maxOffset)
    (hline : (ofText source).starts[Span.maxOffset]? = some line) :
    line.start = source.utf8ByteSize := by
  obtain ⟨before, hsource, -, hstart, hcount⟩ := getElem?_starts_iff.mp hline
  have hbytes : source.utf8ByteSize = byteLength before + byteLength line.rest := by
    rw [← String.ofList_toList (s := source), ← byteLength_eq, hsource, byteLength_append]
  have hfeeds : before.count '\n' ≤ before.length := List.count_le_length
  have hbefore := length_le_byteLength before
  omega

/-- The next line is the one with the next number, or the end of the source. -/
theorem start?_add_one (hsize : source.utf8ByteSize ≤ Span.maxOffset) {number : UInt32}
    (h : number ≠ 0) : ((ofText source).start? (number + 1)).getD source.utf8ByteSize =
      (((ofText source).starts[(number - 1).toNat + 1]?).map (·.start)).getD source.utf8ByteSize := by
  have hpred : (number - 1).toNat + 1 = number.toNat := by
    have hpos : 0 < number.toNat := Nat.pos_of_ne_zero fun hzero => h (UInt32.toNat_inj.mp hzero)
    rw [UInt32.toNat_sub_of_le _ _ hpos]
    exact Nat.succ_pred_eq_of_pos hpos
  rw [hpred]
  by_cases hlast : number + 1 = 0
  · have hmax : number.toNat = Span.maxOffset := by
      rw [← UInt32.add_sub_cancel number 1, hlast]
      rfl
    rw [start?, if_pos hlast, Option.getD_none, hmax]
    cases hline : (ofText source).starts[Span.maxOffset]? with
    | none => rfl
    | some line => exact (start_last hsize hline).symm
  · rw [start?_eq _ hlast, UInt32.add_sub_cancel]

end Texts

/-- The place of an offset: its line starts in front of as many characters as its column says, and as
many lines stand in front of that as there are line feeds. -/
structure Placed (source : String) (offset : Nat) (before indent after : List Char) : Prop where
  spot : Spot source before indent after
  offset_eq : offset = byteLength before + byteLength indent
  line : (((ofText source).position offset).1 - 1).toNat = before.count '\n'
  column : (((ofText source).position offset).2 - 1).toNat = indent.length
  numbered : offset < Span.maxOffset →
    ((ofText source).position offset).1.toNat = before.count '\n' + 1 ∧
      ((ofText source).position offset).2.toNat = indent.length + 1 ∧
      (ofText source).start? ((ofText source).position offset).1 = some (byteLength before)

/-- What the table of the lines of a text says of offsets and of lines. -/
structure Exact (source : String) : Prop where
  line : ∀ offset, (ofText source).lineOf offset = lineNumber offset source.toList
  position : ∀ offset, String.Pos.Raw.IsValid source ⟨offset⟩ →
    ∃ before indent after, Placed source offset before indent after
  distinct : ∀ m n, String.Pos.Raw.IsValid source ⟨m⟩ → String.Pos.Raw.IsValid source ⟨n⟩ →
    (ofText source).position m = (ofText source).position n → m = n
  text : ∀ line start, (ofText source).start? line = some start → ∃ before text after,
    source.toList = before ++ (text ++ after) ∧ start = byteLength before ∧
      ((ofText source).start? (line + 1)).getD source.utf8ByteSize = start + byteLength text ∧
      (ofText source).text? line = some (String.ofList (trimmed text))
  noText : ∀ line, (ofText source).start? line = none → (ofText source).text? line = none

theorem exists_placed (hsize : source.utf8ByteSize ≤ Span.maxOffset) {offset : Nat}
    (h : String.Pos.Raw.IsValid source ⟨offset⟩) :
    ∃ before indent after, Placed source offset before indent after := by
  obtain ⟨before, indent, after, hspot, rfl⟩ := Spot.exists_of_valid h
  obtain ⟨hline, hcolumn⟩ := hspot.counts_lt hsize
  refine ⟨before, indent, after, hspot, rfl, ?_, ?_, fun hlt => ?_⟩
  · rw [hspot.position_eq hsize, oneBased_sub_one hline]
  · rw [hspot.position_eq hsize, oneBased_sub_one hcolumn]
  · obtain ⟨hline, hcolumn⟩ := Spot.count_le hlt
    replace hline : before.count '\n' + 1 < UInt32.size := Nat.succ_lt_succ hline
    replace hcolumn : indent.length + 1 < UInt32.size := Nat.succ_lt_succ hcolumn
    rw [hspot.position_eq hsize]
    exact ⟨toNat_oneBased hline, toNat_oneBased hcolumn, hspot.start?_eq hline⟩

/-- Lines of one number have one start, and one text from there on. -/
theorem Placed.offset_inj {m n : Nat} {before' indent' after' : List Char}
    (hm : Placed source m before indent after) (hn : Placed source n before' indent' after')
    (h : (ofText source).position m = (ofText source).position n) : m = n := by
  have hline : before.count '\n' = before'.count '\n' := by rw [← hm.line, h, hn.line]
  have hcolumn : indent.length = indent'.length := by rw [← hm.column, h, hn.column]
  have hentry := hm.spot.entry
  rw [hline, hn.spot.entry, Option.some.injEq, Line.mk.injEq] at hentry
  obtain ⟨hstart, hrest⟩ := hentry
  obtain ⟨rfl, -⟩ := List.append_inj hrest.symm hcolumn
  rw [hm.offset_eq, hn.offset_eq, hstart]

/-- The one column that 32 bits cannot hold: the end of the longest source, on a line of its own. -/
theorem position_maxOffset :
    (ofText (String.ofList (List.replicate Span.maxOffset 'a'))).position Span.maxOffset = (1, 0) := by
  have hspot : Spot (String.ofList (List.replicate Span.maxOffset 'a')) []
      (List.replicate Span.maxOffset 'a') [] := by
    refine ⟨by simp, .inl rfl, ?_⟩
    simp [List.mem_replicate]
  have hbytes (n : Nat) : byteLength (List.replicate n 'a') = n := by
    induction n with
    | zero => rfl
    | succ n ih =>
      rw [List.replicate_succ, byteLength_cons, ih]
      exact Nat.add_comm 1 n
  have hsize := hspot.size_eq
  rw [size_ofText] at hsize
  have hposition := hspot.position_eq (by rw [hsize, hbytes]; exact Nat.le_of_eq rfl)
  rw [hbytes, List.length_replicate] at hposition
  exact hposition

end Lines

end StackScript
