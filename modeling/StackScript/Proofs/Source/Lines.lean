import StackScript.Source.Lines
import StackScript.Proofs.Token.Positions

/-! # Line starts

The table of a text holds its start and what is behind each of its line feeds, in ascending order. So
the binary search for an offset finds the line that counting the line feeds before it gives.
-/

namespace StackScript

open Token (byteLength byteLength_eq byteLength_cons)

section Numbers

variable {n : Nat} {number : UInt32}

theorem oneBased_sub_one (h : n < UInt32.size) : (oneBased n - 1).toNat = n := by
  rw [oneBased, if_pos h, UInt32.add_sub_cancel, UInt32.toNat_ofNat_of_lt' h]

theorem toNat_eq_of_sub_one (h : (number - 1).toNat = n) (hn : n + 1 < UInt32.size) :
    number.toNat = n + 1 := by
  rw [← UInt32.sub_add_cancel number 1, UInt32.toNat_add, h]
  exact Nat.mod_eq_of_lt hn

theorem toNat_oneBased (h : n + 1 < UInt32.size) : (oneBased n).toNat = n + 1 :=
  toNat_eq_of_sub_one (oneBased_sub_one (Nat.lt_of_succ_lt h)) h

end Numbers

namespace Lines

variable {offset i : Nat} {cs : List Char} {line : Line}

/-- What is behind each line feed of `cs`, the text from `offset` on. -/
def breaks (offset : Nat) : List Char → List Line
  | [] => []
  | c :: cs =>
    if c = '\n' then ⟨offset + c.utf8Size, cs⟩ :: breaks (offset + c.utf8Size) cs
    else breaks (offset + c.utf8Size) cs

theorem scan_eq (offset : Nat) (found : Array Line) (cs : List Char) :
    scan offset found cs = ⟨found ++ (breaks offset cs).toArray, offset + byteLength cs⟩ := by
  induction cs generalizing offset found with
  | nil => simp [scan, breaks, byteLength]
  | cons c cs ih =>
    rw [scan, ih, byteLength_cons, Nat.add_assoc, breaks]
    split <;> simp

theorem starts_ofText (source : String) :
    (ofText source).starts = (⟨0, source.toList⟩ :: breaks 0 source.toList).toArray := by
  simp [ofText, scan_eq]

theorem size_ofText (source : String) : (ofText source).size = source.utf8ByteSize := by
  simp [ofText, scan_eq, byteLength_eq]

/-- Behind the line feed that has `i` others in front of it stands the entry `i`. -/
theorem getElem?_breaks_iff : (breaks offset cs)[i]? = some line ↔ ∃ lead,
    cs = lead ++ '\n' :: line.rest ∧ line.start = offset + byteLength lead + 1 ∧
      lead.count '\n' = i := by
  induction cs generalizing offset i with
  | nil => simp [breaks]
  | cons c cs ih =>
    have hcons (lead : List Char) : offset + c.utf8Size + byteLength lead + 1 =
        offset + byteLength (c :: lead) + 1 := by rw [byteLength_cons, Nat.add_assoc offset]
    by_cases hc : c = '\n'
    · subst hc
      rw [breaks, if_pos rfl]
      cases i with
      | zero =>
        rw [List.getElem?_cons_zero, Option.some.injEq]
        constructor
        · rintro rfl
          exact ⟨[], rfl, rfl, rfl⟩
        · rintro ⟨lead | ⟨d, lead⟩, hcs, hstart, hcount⟩
          · cases line
            cases hcs
            cases hstart
            rfl
          · cases hcs
            simp at hcount
      | succ i =>
        rw [List.getElem?_cons_succ, ih]
        constructor
        · rintro ⟨lead, rfl, hstart, rfl⟩
          exact ⟨'\n' :: lead, rfl, hstart.trans (hcons lead), List.count_cons_self⟩
        · rintro ⟨lead | ⟨d, lead⟩, hcs, hstart, hcount⟩
          · cases hcount
          · cases hcs
            rw [List.count_cons_self, Nat.succ_inj] at hcount
            exact ⟨lead, rfl, hstart.trans (hcons lead).symm, hcount⟩
    · rw [breaks, if_neg hc, ih]
      constructor
      · rintro ⟨lead, rfl, hstart, rfl⟩
        exact ⟨c :: lead, rfl, hstart.trans (hcons lead), List.count_cons_of_ne hc⟩
      · rintro ⟨lead | ⟨d, lead⟩, hcs, hstart, hcount⟩
        · cases hcs
          exact absurd rfl hc
        · cases hcs
          rw [List.count_cons_of_ne hc] at hcount
          exact ⟨lead, rfl, hstart.trans (hcons lead).symm, hcount⟩

theorem lt_start_of_mem (h : line ∈ breaks offset cs) : offset < line.start := by
  obtain ⟨i, hi⟩ := List.mem_iff_getElem?.mp h
  obtain ⟨lead, -, hstart, -⟩ := getElem?_breaks_iff.mp hi
  omega

/-- Lines in the order of their starts, which are all different. -/
def Ascending (lines : List Line) : Prop := lines.Pairwise (·.start < ·.start)

theorem breaks_ascending (offset : Nat) (cs : List Char) : Ascending (breaks offset cs) := by
  induction cs generalizing offset with
  | nil => exact .nil
  | cons c cs ih =>
    rw [breaks]
    split
    · exact (ih _).cons fun _ => lt_start_of_mem
    · exact ih _

theorem starts_ascending (source : String) : Ascending (ofText source).starts.toList := by
  rw [starts_ofText]
  exact (breaks_ascending _ _).cons fun _ => lt_start_of_mem

section Search

variable {starts : Array Line} {lo hi : Nat} {lines : List Line}

/-- How many lines start at or before `offset`. -/
def upTo (offset : Nat) (lines : List Line) : Nat := lines.countP (·.start ≤ offset)

theorem upTo_eq_zero (h : ∀ line ∈ lines, offset < line.start) : upTo offset lines = 0 := by
  rw [upTo, List.countP_eq_zero]
  intro line hline
  simpa using h line hline

/-- The lines that start at or before `offset` are the first ones. -/
theorem Ascending.start_le_iff (h : Ascending lines) (hi : lines[i]? = some line) :
    line.start ≤ offset ↔ i < upTo offset lines := by
  induction lines generalizing i with
  | nil => cases hi
  | cons first lines ih =>
    obtain ⟨hfirst, hlines⟩ := List.pairwise_cons.mp h
    by_cases hle : first.start ≤ offset
    · rw [upTo, List.countP_cons_of_pos (by simpa using hle)]
      cases i with
      | zero =>
        cases hi
        simp [hle]
      | succ i => rw [ih hlines hi, upTo, Nat.succ_lt_succ_iff]
    · have hafter : ∀ l ∈ first :: lines, offset < l.start := by
        intro l hl
        rcases List.mem_cons.mp hl with rfl | hl
        · exact Nat.lt_of_not_le hle
        · exact Nat.lt_trans (Nat.lt_of_not_le hle) (hfirst l hl)
      have hlt := hafter line (List.mem_of_getElem? hi)
      rw [upTo_eq_zero hafter]
      omega

theorem search_eq (h : Ascending starts.toList) (hlo : lo < upTo offset starts.toList)
    (hhi : upTo offset starts.toList ≤ hi) (hsize : hi ≤ starts.size) :
    search starts offset lo hi + 1 = upTo offset starts.toList := by
  have hmiddle {mid : Nat} {line : Line} (hmid : starts[mid]? = some line) :
      line.start ≤ offset ↔ mid < upTo offset starts.toList :=
    h.start_le_iff (Array.getElem?_toList.trans hmid)
  fun_induction search starts offset lo hi with
  | case1 lo hi hlt mid line hmid hle ih => exact ih ((hmiddle hmid).mp hle) hhi hsize
  | case2 lo hi hlt mid line hmid hle ih =>
    have hmidle : upTo offset starts.toList ≤ mid := Nat.le_of_not_lt (mt (hmiddle hmid).mpr hle)
    exact ih hlo hmidle (by omega)
  | case3 lo hi hlt mid hmid ih =>
    have hmidle := Array.getElem?_eq_none_iff.mp hmid
    omega
  | case4 lo hi hlt => omega

end Search

theorem indexOf_eq (source : String) (offset : Nat) :
    (ofText source).indexOf offset = upTo offset (breaks 0 source.toList) := by
  have hstarts : (ofText source).starts.toList = ⟨0, source.toList⟩ :: breaks 0 source.toList := by
    rw [starts_ofText]
  have hcount : upTo offset (ofText source).starts.toList =
      upTo offset (breaks 0 source.toList) + 1 := by
    rw [hstarts, upTo, List.countP_cons_of_pos (by simp), upTo]
  have hsize : upTo offset (ofText source).starts.toList ≤ (ofText source).starts.size :=
    List.countP_le_length
  have hpos : 0 < upTo offset (ofText source).starts.toList := by omega
  have hsearch := search_eq (starts_ascending source) hpos hsize (Nat.le_refl _)
  exact Nat.succ_inj.mp (hsearch.trans hcount)

theorem lineNumber_go_eq (offset pos line : Nat) (cs : List Char) :
    lineNumber.go offset pos line cs = line + upTo offset (breaks pos cs) := by
  induction cs generalizing pos line with
  | nil => rfl
  | cons c cs ih =>
    rw [lineNumber.go]
    by_cases hpos : pos < offset
    · rw [if_pos hpos, ih, breaks]
      by_cases hc : c = '\n'
      · subst hc
        have hle : pos + '\n'.utf8Size ≤ offset := hpos
        rw [if_pos rfl, if_pos rfl, upTo, upTo, List.countP_cons_of_pos (by simpa using hle)]
        omega
      · rw [if_neg hc, if_neg hc]
    · -- All lines that are left start behind `pos`.
      rw [if_neg hpos, upTo_eq_zero, Nat.add_zero]
      intro l hl
      exact Nat.lt_of_le_of_lt (Nat.le_of_not_lt hpos) (lt_start_of_mem hl)

/-- Searching for the line of an offset gives what counting does. -/
theorem lineOf_eq (source : String) (offset : Nat) :
    (ofText source).lineOf offset = lineNumber offset source.toList := by
  rw [lineOf, indexOf_eq, lineNumber, lineNumber_go_eq, Nat.zero_add]

/-- On a character boundary the line feeds that count are those in front of it. -/
theorem upTo_breaks_eq (pos : Nat) (lead rest : List Char) :
    upTo (pos + byteLength lead) (breaks pos (lead ++ rest)) = lead.count '\n' := by
  induction lead generalizing pos with
  | nil => exact upTo_eq_zero fun _ => lt_start_of_mem
  | cons c lead ih =>
    rw [byteLength_cons, ← Nat.add_assoc, List.cons_append, breaks]
    split
    · next hc =>
      subst hc
      rw [List.count_cons_self, ← ih (pos + '\n'.utf8Size), upTo, upTo,
        List.countP_cons_of_pos (by simp)]
    · next hc => rw [List.count_cons_of_ne hc, ih]

end Lines

end StackScript
