import StackScript.Code.SpanMap

/-! # Looking spans up

What recording and dropping entries does to the spans of the other instructions. Offsets from
`Span.maxOffset` on share one entry, so nothing is said of them.
-/

namespace StackScript.SpanMap

def All (P : Span → Prop) (m : SpanMap) : Prop := ∀ e ∈ m.latestFirst, P e.2

def Below (m : SpanMap) (size : Nat) : Prop := ∀ e ∈ m.latestFirst, e.1 ≤ size

/-- The entries stand in the order of their offsets, no two at one offset, and all before `size`. -/
structure Ascending (m : SpanMap) (size : Nat) : Prop where
  ordered : m.latestFirst.Pairwise fun e e' => e'.1 < e.1
  before : ∀ e ∈ m.latestFirst, e.1 < size

variable {P : Span → Prop} {m : SpanMap} {offset n : Nat} {span : Span} {e : Nat × Span}

/-- A span is recorded by the last entry, or it gets an entry of its own in front of the others or in
place of one at the same offset. -/
theorem push_cases (m : SpanMap) (offset : Nat) (span : Span) :
    (m.push offset span = m ∧ ∃ last earlier, m.latestFirst = (last, span) :: earlier) ∨
      ∃ earlier, (m.push offset span).latestFirst = (min offset Span.maxOffset, span) :: earlier ∧
        (m.latestFirst = earlier ∨ ∃ s, m.latestFirst = (min offset Span.maxOffset, s) :: earlier) := by
  unfold push
  dsimp only
  split
  · next hm => exact .inr ⟨[], rfl, .inl hm⟩
  · next last s earlier hm =>
    by_cases hs : s = span
    · rw [if_pos hs]
      exact .inl ⟨rfl, last, earlier, hs ▸ hm⟩
    · rw [if_neg hs]
      by_cases hlast : last = min offset Span.maxOffset
      · rw [if_pos hlast]
        exact .inr ⟨earlier, rfl, .inr ⟨s, hlast ▸ hm⟩⟩
      · rw [if_neg hlast]
        exact .inr ⟨(last, s) :: earlier, rfl, .inl hm⟩

theorem mem_push (h : e ∈ (m.push offset span).latestFirst) :
    e = (min offset Span.maxOffset, span) ∨ e ∈ m.latestFirst := by
  rcases m.push_cases offset span with ⟨hm, -⟩ | ⟨earlier, hpush, hm⟩
  · exact .inr (hm ▸ h)
  · rw [hpush] at h
    rcases List.mem_cons.mp h with rfl | h
    · exact .inl rfl
    · obtain hm | ⟨s, hm⟩ := hm
      · exact .inr (hm ▸ h)
      · exact .inr (hm ▸ List.mem_cons_of_mem _ h)

theorem All.empty : All P {} := by simp [All]

theorem All.push (h : m.All P) (hspan : P span) : (m.push offset span).All P := by
  intro e he
  rcases mem_push he with rfl | he
  · exact hspan
  · exact h e he

theorem All.truncate (h : m.All P) : (m.truncate offset).All P :=
  fun e he => h e (List.mem_filter.mp he).1

theorem All.spanAt? (h : m.All P) (hs : m.spanAt? n = some span) : P span := by
  unfold SpanMap.spanAt? at hs
  split at hs
  · obtain ⟨e, he, rfl⟩ := Option.map_eq_some_iff.mp hs
    exact h e (List.mem_of_find?_eq_some he)
  · cases hs

theorem Below.push (h : m.Below n) (ho : offset ≤ n) : (m.push offset span).Below n := by
  intro e he
  rcases mem_push he with rfl | he
  · exact Nat.le_trans (Nat.min_le_left ..) ho
  · exact h e he

theorem Below.truncate : (m.truncate offset).Below offset := by
  intro e he
  have hlt := (List.mem_filter.mp he).2
  simp only [decide_eq_true_eq] at hlt
  omega

theorem Below.mono {size : Nat} (h : m.Below n) (hs : n ≤ size) : m.Below size :=
  fun e he => Nat.le_trans (h e he) hs

namespace Ascending

theorem empty (n : Nat) : Ascending {} n := ⟨.nil, by simp⟩

theorem below (h : m.Ascending n) : m.Below n := fun e he => Nat.le_of_lt (h.before e he)

theorem mono {size : Nat} (h : m.Ascending n) (hs : n ≤ size) : m.Ascending size :=
  ⟨h.ordered, fun e he => Nat.lt_of_lt_of_le (h.before e he) hs⟩

theorem push (h : m.Ascending offset) (ho : offset < n) (hn : n ≤ Span.maxOffset) :
    (m.push offset span).Ascending n := by
  have hoffset : min offset Span.maxOffset = offset := Nat.min_eq_left (by omega)
  rcases m.push_cases offset span with ⟨hm, -⟩ | ⟨earlier, hpush, hm⟩
  · rw [hm]
    exact h.mono (Nat.le_of_lt ho)
  · rw [hoffset] at hpush hm
    have hsub : earlier.Sublist m.latestFirst := by
      rcases hm with rfl | ⟨s, hm⟩
      · exact .refl _
      · rw [hm]
        exact List.sublist_cons_self ..
    constructor
    · rw [hpush]
      exact .cons (fun e he => h.before e (hsub.subset he)) (h.ordered.sublist hsub)
    · intro e he
      rw [hpush] at he
      rcases List.mem_cons.mp he with rfl | he
      · exact ho
      · exact Nat.lt_trans (h.before e (hsub.subset he)) ho

theorem truncate (h : m.Ascending n) : (m.truncate offset).Ascending offset := by
  constructor
  · exact h.ordered.filter _
  · intro e he
    have hlt := (List.mem_filter.mp he).2
    simp only [decide_eq_true_eq] at hlt
    omega

/-- From the first entry on, offsets grow. -/
theorem increasing (h : m.Ascending n) : (m.entries.map (·.1)).Pairwise (· < ·) := by
  rw [entries, List.pairwise_map, List.pairwise_reverse]
  exact h.ordered

end Ascending

theorem spanAt?_push_of_lt (h : n < min offset Span.maxOffset) :
    (m.push offset span).spanAt? n = m.spanAt? n := by
  have hskip : ¬ min offset Span.maxOffset ≤ n := Nat.not_le.mpr h
  rcases m.push_cases offset span with ⟨hm, -⟩ | ⟨earlier, hpush, hm | ⟨s, hm⟩⟩
  · rw [hm]
  · simp [spanAt?, hpush, hm, hskip]
  · simp [spanAt?, hpush, hm, hskip]

/-- A new entry behind all others gives the span from its offset on. -/
theorem spanAt?_push_of_le (h : m.Below offset) (ho : offset ≤ n) (hn : n ≤ Span.maxOffset) :
    (m.push offset span).spanAt? n = some span := by
  rcases m.push_cases offset span with ⟨hpush, last, earlier, hm⟩ | ⟨earlier, hpush, -⟩
  · have hlast : last ≤ n := Nat.le_trans (h (last, span) (by simp [hm])) ho
    simp [spanAt?, hpush, hm, hlast, hn]
  · have hfirst : min offset Span.maxOffset ≤ n := Nat.le_trans (Nat.min_le_left ..) ho
    simp [spanAt?, hpush, hfirst, hn]

theorem spanAt?_push_self (h : m.Below offset) (ho : offset ≤ Span.maxOffset) :
    (m.push offset span).spanAt? offset = some span :=
  spanAt?_push_of_le h (Nat.le_refl _) ho

theorem spanAt?_isSome_of_le (h : (m.spanAt? n).isSome = true) (hn : n ≤ offset)
    (ho : offset ≤ Span.maxOffset) : (m.spanAt? offset).isSome = true := by
  rw [spanAt?, if_pos (Nat.le_trans hn ho), Option.isSome_map, List.find?_isSome] at h
  rw [spanAt?, if_pos ho, Option.isSome_map, List.find?_isSome]
  obtain ⟨e, he, hle⟩ := h
  exact ⟨e, he, decide_eq_true (Nat.le_trans (of_decide_eq_true hle) hn)⟩

theorem spanAt?_truncate_of_lt (h : n < min offset Span.maxOffset) :
    (m.truncate offset).spanAt? n = m.spanAt? n := by
  unfold spanAt? truncate
  rw [List.find?_filter]
  congr 3
  funext e
  by_cases he : e.1 ≤ n
  · simp [he, Nat.lt_of_le_of_lt he h]
  · simp [he]

end StackScript.SpanMap
