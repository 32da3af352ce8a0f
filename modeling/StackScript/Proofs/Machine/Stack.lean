import StackScript.Machine.Step
import StackScript.Proofs.Effect

/-! # The values on the stack

A stack is seen as the list of its values, the bottom first. Every step on the stack is a step on the
list, as long as the list fits.
-/

namespace StackScript

/-- The stack has room for `capacity` values and holds `live`. -/
structure Stack.Holds (s : Stack) (capacity : Nat) (live : List Value) : Prop where
  live : s.live = live
  capacity : s.capacity = capacity

section Stack

variable {s : Stack} {n i : Nat} {l vs : List Value} {v : Value}

theorem Stack.live_eq (s : Stack) : s.live = s.slots.toList.take s.sp := by
  simp [Stack.live]

theorem Stack.length_live (s : Stack) : s.live.length = s.sp := by
  simp [Stack.live_eq, s.sp_le]

theorem Stack.Holds.sp (h : s.Holds n l) : s.sp = l.length := by
  rw [← h.live, Stack.length_live]

theorem Stack.Holds.length_le (h : s.Holds n l) : l.length ≤ n := by
  rw [← h.sp, ← h.capacity]
  exact s.sp_le

theorem Stack.Holds.slots (h : s.Holds n l) : ∃ above, s.slots.toList = l ++ above := by
  refine ⟨s.slots.toList.drop s.sp, ?_⟩
  rw [← h.live, Stack.live_eq, List.take_append_drop]

theorem Stack.Holds.of_slots {slots : Array Value} {sp : Nat} {le : sp ≤ slots.size}
    {a : List Value} (hs : slots.toList = l ++ a) (hsp : sp = l.length)
    (hn : slots.size = n) : Stack.Holds ⟨slots, sp, le⟩ n l :=
  ⟨by simp [Stack.live_eq, hs, hsp], hn⟩

end Stack

namespace Stacking

variable {s : Stack} {n : Nat} {l vs : List Value} {v : Value}

theorem push_gives (h : s.Holds n l) (v : Value) :
    Gives (push v) s (fun _ s' => s'.Holds n (l ++ [v]))
      (fun e s' => s' = s ∧ e = .stackOverflow n ∧ l.length = n) := by
  obtain ⟨above, hslots⟩ := h.slots
  obtain ⟨slots, sp, le⟩ := s
  obtain rfl : sp = l.length := h.sp
  have hn : slots.size = n := h.capacity
  have hsize : slots.size = l.length + above.length := by
    rw [← Array.length_toList, hslots, List.length_append]
  unfold Gives push
  by_cases hlt : l.length < slots.size
  · simp only [hlt, dif_pos]
    cases above with
    | nil => simp at hsize; omega
    | cons w above =>
      refine .of_slots (a := above) ?_ (by simp) (by simpa using hn)
      simp only at hslots
      simp [hslots]
  · simp only [hlt, dif_neg, not_false_eq_true]
    exact ⟨trivial, by rw [hn], by omega⟩

theorem pop_gives (h : s.Holds n (l ++ [v])) :
    Gives pop s (fun w s' => w = v ∧ s'.Holds n l ∧ s'.lastPopped = v) (fun _ _ => False) := by
  obtain ⟨above, hslots⟩ := h.slots
  obtain ⟨slots, sp, le⟩ := s
  obtain rfl : sp = l.length + 1 := by simpa using h.sp
  have hlt : l.length < slots.size := le
  have hget : slots[l.length]? = some v := by
    rw [← Array.getElem?_toList, hslots]
    simp
  unfold Gives pop
  refine ⟨?_, .of_slots (a := v :: above) (by simpa using hslots) rfl h.capacity, ?_⟩
  · exact Option.some.inj ((Array.getElem?_eq_getElem hlt).symm.trans hget)
  · simp [Stack.lastPopped, hget]

theorem peek_gives {below above : List Value} (h : s.Holds n (below ++ v :: above)) :
    Gives (peek above.length) s (fun w s' => w = v ∧ s' = s) (fun _ _ => False) := by
  obtain ⟨rest, hslots⟩ := h.slots
  have hsp : s.sp = below.length + (above.length + 1) := by simpa using h.sp
  have hle := s.sp_le
  have hget : s.slots[below.length]? = some v := by
    rw [← Array.getElem?_toList, hslots]
    simp
  have hlt : above.length < s.sp := by omega
  have hindex : s.sp - (above.length + 1) = below.length := by omega
  unfold Gives peek
  simp only [hlt, dif_pos, hindex]
  have hbound : below.length < s.slots.size := by omega
  exact ⟨Option.some.inj ((Array.getElem?_eq_getElem hbound).symm.trans hget), trivial⟩

theorem window_gives (h : s.Holds n (l ++ vs)) :
    Gives (window vs.length) s (fun ws s' => ws = vs ∧ s' = s) (fun _ _ => False) := by
  obtain ⟨above, hslots⟩ := h.slots
  have hsp : s.sp = l.length + vs.length := by simpa using h.sp
  have hlt : vs.length ≤ s.sp := by omega
  have hstart : s.sp - vs.length = l.length := by omega
  unfold Gives window
  simp only [hlt, if_true]
  refine ⟨?_, trivial⟩
  rw [Array.toList_extract, hslots, hstart, hsp, List.extract_eq_take_drop]
  simp

theorem discard_gives (h : s.Holds n (l ++ vs)) :
    Gives (discard vs.length) s (fun _ s' => s'.Holds n l) (fun _ _ => False) := by
  obtain ⟨above, hslots⟩ := h.slots
  obtain ⟨slots, sp, le⟩ := s
  obtain rfl : sp = l.length + vs.length := by simpa using h.sp
  unfold Gives discard
  simp only [Nat.le_add_left, if_true]
  exact .of_slots (a := vs ++ above) (by simpa using hslots) (by omega) h.capacity

theorem read_gives (h : s.Holds n l) (index : Nat) :
    Gives (read index) s (fun w s' => l[index]? = some w ∧ s' = s)
      (fun e s' => l[index]? = none ∧ e = .stackUnderflow ∧ s' = s) := by
  obtain ⟨above, hslots⟩ := h.slots
  have hsize : l.length ≤ s.slots.size := by rw [← h.sp]; exact s.sp_le
  unfold Gives read
  by_cases hlt : index < l.length
  · have hsp : index < s.sp := by rw [h.sp]; exact hlt
    have hbound : index < s.slots.size := by omega
    have hget : s.slots[index]? = l[index]? := by
      rw [← Array.getElem?_toList, hslots, List.getElem?_append_left hlt]
    simp only [hsp, dif_pos]
    exact ⟨hget.symm.trans (Array.getElem?_eq_getElem hbound), trivial⟩
  · have hsp : ¬ index < s.sp := by rw [h.sp]; exact hlt
    simp only [hsp, dif_neg, not_false_eq_true]
    exact ⟨List.getElem?_eq_none (by omega), trivial, trivial⟩

theorem write_gives {index : Nat} (h : s.Holds n l) (hi : index < l.length) (v : Value) :
    Gives (write index v) s (fun _ s' => s'.Holds n (l.set index v)) (fun _ _ => False) := by
  obtain ⟨above, hslots⟩ := h.slots
  obtain ⟨slots, sp, le⟩ := s
  obtain rfl : sp = l.length := h.sp
  unfold Gives write
  simp only [hi, dif_pos]
  refine .of_slots (a := above) ?_ (by simp) (by rw [Array.size_set]; exact h.capacity)
  rw [Array.toList_set, hslots, List.set_append_left _ _ hi]

theorem truncate_gives (h : s.Holds n l) (sp : Nat) :
    Gives (truncate sp) s (fun _ s' => s'.Holds n (l.take sp)) (fun _ _ => False) := by
  obtain ⟨above, hslots⟩ := h.slots
  obtain ⟨slots, old, le⟩ := s
  obtain rfl : old = l.length := h.sp
  refine Stack.Holds.of_slots (a := l.drop sp ++ above) ?_ ?_ h.capacity
  · rw [hslots, ← List.append_assoc, List.take_append_drop]
  · rw [List.length_take, Nat.min_comm]

theorem toList_cleared (slots : Array Value) (before vs after : List Value)
    (h : slots.toList = before ++ vs ++ after) :
    (Stack.cleared slots before.length vs.length).toList =
      before ++ List.replicate vs.length .null ++ after := by
  induction vs generalizing slots before with
  | nil => simpa [Stack.cleared] using h
  | cons w vs ih =>
    have hset : (slots.setIfInBounds before.length .null).toList = (before ++ [.null]) ++ vs ++ after := by
      rw [Array.toList_setIfInBounds, h]
      simp
    have := ih _ _ hset
    simpa [Stack.cleared, List.replicate_succ] using this

/-- New slots on top of the stack are null. -/
theorem reserve_gives (h : s.Holds n l) (k : Nat) :
    Gives (reserve l.length (l.length + k)) s
      (fun _ s' => s'.Holds n (l ++ List.replicate k .null))
      (fun e s' => s' = s ∧ e = .stackOverflow n) := by
  obtain ⟨above, hslots⟩ := h.slots
  obtain ⟨slots, old, le⟩ := s
  have hn : slots.size = n := h.capacity
  have hsize : slots.size = l.length + above.length := by
    rw [← Array.length_toList, hslots, List.length_append]
  unfold Gives reserve
  by_cases hle : l.length + k ≤ slots.size
  · simp only [hle, dif_pos]
    have hk : (above.take k).length = k := by
      rw [List.length_take]
      omega
    have hcleared := toList_cleared slots l (above.take k) (above.drop k) (by simpa using hslots)
    rw [hk] at hcleared
    have hsub : l.length + k - l.length = k := by omega
    refine .of_slots (a := above.drop k) ?_ (by simp) ?_
    · rw [hsub, hcleared]
    · rw [Stack.size_cleared, hn]
  · simp only [hle, dif_neg, not_false_eq_true]
    exact ⟨trivial, by rw [hn]⟩

end Stacking

end StackScript
