import StackScript.Diagnostic.Render
import StackScript.Proofs.Source.Columns

/-! # Excerpts

A label is shown as the line on which its span starts and marks below that line: one under each
character that the span covers there, and one behind them where it covers none.
-/

namespace StackScript

open Token (byteLength byteLength_eq byteLength_cons byteLength_append length_le_byteLength)

variable {source : String} {before indent covered after cs rest : List Char} {span : Span}

theorem Span.Within.exists_split (h : span.Within source) : ∃ lead covered after,
    source.toList = lead ++ (covered ++ after) ∧ span.start = byteLength lead ∧
      span.stop = span.start + byteLength covered := by
  have hbytes (s : String) : s.utf8ByteSize = byteLength s.toList := by
    rw [byteLength_eq, String.ofList_toList]
  obtain ⟨lead, rest, hlead, hstart⟩ := String.Pos.Raw.isValid_iff_exists_append.mp h.start_valid
  obtain ⟨upTo, after, hupTo, hstop⟩ := String.Pos.Raw.isValid_iff_exists_append.mp h.stop_valid
  replace hstart : span.start = byteLength lead.toList :=
    (congrArg String.Pos.Raw.byteIdx hstart).trans (hbytes lead)
  replace hstop : span.stop = byteLength upTo.toList :=
    (congrArg String.Pos.Raw.byteIdx hstop).trans (hbytes upTo)
  have hsource : lead.toList ++ rest.toList = upTo.toList ++ after.toList := by
    rw [← String.toList_append, ← String.toList_append, ← hlead, ← hupTo]
  rcases List.append_eq_append_iff.mp hsource with ⟨covered, hcovered, hrest⟩ | ⟨back, hback, -⟩
  · refine ⟨lead.toList, covered, after.toList, ?_, hstart, ?_⟩
    · rw [hlead, String.toList_append, hrest]
    · rw [hstop, hcovered, byteLength_append, hstart]
  · -- The span does not end in front of its start, so it is empty.
    have hle := h.ordered
    rw [hstart, hstop, hback, byteLength_append] at hle
    have hnone : byteLength back = 0 := by omega
    refine ⟨lead.toList, [], rest.toList, by rw [hlead, String.toList_append]; rfl, hstart, ?_⟩
    rw [hstart, hstop, hback, byteLength_append, hnone]
    rfl

section Offsets

def offsets (offset : Nat) : List Char → List Nat
  | [] => []
  | c :: cs => offset :: offsets (offset + c.utf8Size) cs

theorem le_of_mem_offsets {offset n : Nat} (h : n ∈ offsets offset cs) : offset ≤ n := by
  induction cs generalizing offset with
  | nil => cases h
  | cons c cs ih =>
    rcases List.mem_cons.mp h with rfl | h
    · exact Nat.le_refl _
    · exact Nat.le_of_add_right_le (ih h)

theorem length_offsets (offset : Nat) (cs : List Char) : (offsets offset cs).length = cs.length := by
  induction cs generalizing offset with
  | nil => rfl
  | cons c cs ih => exact congrArg Nat.succ (ih _)

theorem drop_offsets (offset : Nat) (cs rest : List Char) :
    (offsets offset (cs ++ rest)).drop cs.length = offsets (offset + byteLength cs) rest := by
  induction cs generalizing offset with
  | nil => rfl
  | cons c cs ih =>
    rw [List.cons_append, offsets, List.length_cons, List.drop_succ_cons, ih, byteLength_cons,
      Nat.add_assoc]

/-- How many characters of `shown`, a line that starts at `start`, stand at or behind `column` and in
front of the offset `stop`. -/
def countMarked (start column stop : Nat) (shown : List Char) : Nat :=
  ((offsets start shown).drop column).countP (· < stop)

theorem add_countMarked_le (start column stop : Nat) (shown : List Char) :
    column + countMarked start column stop shown ≤ max shown.length column := by
  have hcount : countMarked start column stop shown ≤ shown.length - column :=
    List.countP_le_length.trans (by rw [List.length_drop, length_offsets])
  omega

/-- Of a text that begins like `covered` and what comes after it, the span covers no more than that. -/
theorem countP_offsets (offset : Nat) (h : cs <+: covered ++ after) :
    (offsets offset cs).countP (· < offset + byteLength covered) =
      min covered.length cs.length := by
  induction covered generalizing offset cs with
  | nil =>
    rw [List.length_nil, Nat.zero_min, List.countP_eq_zero]
    intro n hn
    rw [decide_eq_true_eq]
    exact Nat.not_lt.mpr (le_of_mem_offsets hn)
  | cons c covered ih =>
    cases cs with
    | nil => rfl
    | cons d cs =>
      obtain ⟨rfl, hcs⟩ := List.cons_prefix_cons.mp h
      have hpos := d.utf8Size_pos
      rw [offsets, byteLength_cons, ← Nat.add_assoc, List.countP_cons_of_pos (by simpa using by omega),
        ih _ hcs, List.length_cons, List.length_cons, Nat.succ_min_succ]

end Offsets

namespace Lines.Spot

variable (h : Spot source before indent (covered ++ after))
include h

theorem chars?_eq (hn : before.count '\n' + 1 < UInt32.size) :
    (ofText source).chars? (oneBased (before.count '\n')) =
      some (firstLine (indent ++ (covered ++ after))) := by
  have hnumber : oneBased (before.count '\n') ≠ 0 := fun hzero => by
    simpa [hzero] using toNat_oneBased hn
  rw [chars?, if_neg hnumber, entry?, oneBased_sub_one (Nat.lt_of_succ_lt hn), h.entry, Option.map_some,
    chars_eq]

theorem eq_nil_of_le (hsize : source.utf8ByteSize ≤ Span.maxOffset)
    (hn : Span.maxOffset ≤ before.count '\n') : indent ++ (covered ++ after) = [] := by
  have hbytes := h.size_eq
  rw [size_ofText, byteLength_append] at hbytes
  have hfeeds : before.count '\n' ≤ before.length := List.count_le_length
  have hbefore := length_le_byteLength before
  have hrest := length_le_byteLength (indent ++ (covered ++ after))
  rw [byteLength_append, byteLength_append] at hrest
  exact List.length_eq_zero_iff.mp (by omega)

theorem shown_eq (hsize : source.utf8ByteSize ≤ Span.maxOffset) :
    ((ofText source).chars? (oneBased (before.count '\n'))).getD [] =
      firstLine (indent ++ (covered ++ after)) := by
  by_cases hn : before.count '\n' < Span.maxOffset
  · rw [h.chars?_eq (Nat.succ_lt_succ hn), Option.getD_some]
  · -- The line after the last one that has a number is empty.
    have hmax : before.count '\n' = Span.maxOffset :=
      Nat.le_antisymm (Nat.le_of_lt_succ (h.counts_lt hsize).1) (Nat.le_of_not_lt hn)
    rw [h.eq_nil_of_le hsize (Nat.le_of_not_lt hn), hmax]
    rfl

theorem covered?_eq (hstart : span.start = byteLength before + byteLength indent)
    (hstop : span.stop = span.start + byteLength covered) :
    (ofText source).covered? span = some covered.length := by
  have hsize := h.size_eq
  rw [byteLength_append] at hsize
  have hrest : span.start - byteLength before = byteLength indent := by omega
  have hwidth : span.stop - span.start = byteLength covered := by omega
  rw [covered?, if_pos ⟨by omega, by omega⟩, hstart, h.indexOf_eq, h.entry, ← hstart]
  simp only [Option.bind_eq_bind, Option.bind_some, hrest, hwidth, dropBytes_append,
    charsWithin_append, Nat.zero_add]

end Lines.Spot

namespace Renderer

open Lines (Spot firstLine firstLine_prefix)

variable {shown : List Char}

/-- As many marks are written as the shown line has characters under the span, and at least one. -/
theorem underlineWidth_eq (h : Spot source before indent (covered ++ after))
    (hstart : span.start = byteLength before + byteLength indent)
    (hstop : span.stop = span.start + byteLength covered)
    (hshown : shown <+: indent ++ (covered ++ after)) :
    underlineWidth (Lines.ofText source) span indent.length shown.length =
      max 1 (countMarked (byteLength before) indent.length span.stop shown) := by
  rw [underlineWidth, h.covered?_eq hstart hstop, Option.getD_some]
  rcases Nat.le_total shown.length indent.length with hle | hle
  · have hnone : countMarked (byteLength before) indent.length span.stop shown = 0 := by
      rw [countMarked, List.drop_eq_nil_of_le (by rwa [length_offsets]), List.countP_nil]
    omega
  · obtain ⟨marked, rfl⟩ : indent <+: shown :=
      List.prefix_of_prefix_length_le (List.prefix_append _ _) hshown hle
    have hmarked : marked <+: covered ++ after := (List.prefix_append_right_inj indent).mp hshown
    rw [countMarked, drop_offsets, ← hstart, hstop, countP_offsets _ hmarked, List.length_append]
    omega

/-- A label below the line `line` of a source, of which `shown` is printed: `width` marks behind
`indent` blanks. -/
def excerpt (path : String) (l : Label) (line : UInt32) (shown : List Char) (indent width : Nat) :
    String :=
  let arrow := if l.primary then "-->" else "   "
  let gutter := toString line
  let blank := repeated ' ' gutter.length
  let blanks := repeated ' ' indent
  let text := String.ofList shown
  let marks := repeated (if l.primary then '^' else '-') width
  let message := if l.message.isEmpty then "" else " " ++ l.message
  s!"  {arrow} {path}:{line}:{indent + 1}\n" ++
    s!"  {blank} |\n" ++
    s!"  {gutter} | {text}\n" ++
    s!"  {blank} | {blanks}{marks}{message}\n"

/-- The excerpt of a label: its span starts behind `indent`, and `shown` is its line without the line
ends behind it. What is shown where the column is more than 32 bits hold is left open. -/
structure Underlined (path source : String) (l : Label) (before indent after shown : List Char) :
    Prop where
  spot : Spot source before indent after
  start : l.span.start = byteLength before + byteLength indent
  shown_eq : shown = firstLine (indent ++ after)
  label_eq : indent.length < Span.maxOffset →
    (plain path source).label l = excerpt path l (oneBased (before.count '\n')) shown indent.length
      (max 1 (countMarked (byteLength before) indent.length l.span.stop shown))
  fits : indent.length + max 1 (countMarked (byteLength before) indent.length l.span.stop shown) ≤
    max shown.length (indent.length + 1)

theorem toString_oneBased {n : Nat} (h : n < Span.maxOffset) :
    toString (oneBased n) = toString (n + 1) :=
  congrArg toString (toNat_oneBased (Nat.succ_lt_succ h))

theorem label_eq {path : String} {l : Label} (h : Spot source before indent (covered ++ after))
    (hsize : source.utf8ByteSize ≤ Span.maxOffset) (hcolumn : indent.length < Span.maxOffset)
    (hstart : l.span.start = byteLength before + byteLength indent)
    (hstop : l.span.stop = l.span.start + byteLength covered)
    (hshown : shown = firstLine (indent ++ (covered ++ after))) :
    (plain path source).label l = excerpt path l (oneBased (before.count '\n')) shown indent.length
      (max 1 (countMarked (byteLength before) indent.length l.span.stop shown)) := by
  have hposition := h.position_eq hsize
  have hnumber : (oneBased indent.length).toNat = indent.length + 1 :=
    toNat_oneBased (Nat.succ_lt_succ hcolumn)
  have hwidth := underlineWidth_eq h hstart hstop (hshown ▸ firstLine_prefix _)
  rw [← hstart] at hposition
  simp only [label, plain, hposition, h.shown_eq hsize, ← hshown, hnumber, toString_oneBased hcolumn,
    Nat.add_sub_cancel, hwidth]
  rfl

example : (plain "main" "αβ\r\nγ").label ⟨⟨2, 8⟩, "here", true⟩ =
    "  --> main:1:2\n    |\n  1 | αβ\n    |  ^ here\n" := by decide +kernel

end Renderer

end StackScript
