import StackScript.Value.Display
import StackScript.Value.Hash

/-! # Hashes as finite maps

Keys of one kind and one text are the same to a hash. Its entries ascend in their keys, so what
it holds depends on the last value put under each key, and not on when it was put there.
-/

namespace StackScript

namespace Key

variable {a b c : Key}

theorem rank_eq_iff : a.rank = b.rank ↔ a.kind = b.kind := by
  cases a <;> cases b <;> simp [rank, kind]

theorem order_eq_iff : a.order b = .eq ↔ a.kind = b.kind ∧ a.text = b.text := by
  rw [← rank_eq_iff, order]
  split
  · next h => simp [Nat.ne_of_lt h]
  · split
    · next h => simp [Nat.ne_of_gt h]
    · have hrank : a.rank = b.rank := by omega
      by_cases hlt : a.text < b.text
      · have hne : a.text ≠ b.text := fun he => String.lt_irrefl b.text (he ▸ hlt)
        simp [hlt, hne]
      · by_cases he : a.text = b.text <;> simp [hrank, hlt, he]

theorem order_lt_iff :
    a.order b = .lt ↔ a.rank < b.rank ∨ a.rank = b.rank ∧ a.text < b.text := by
  rw [order]
  split
  · next h => simp [h]
  · split
    · next h =>
      have hne : a.rank ≠ b.rank := by omega
      simp [*]
    · have hrank : a.rank = b.rank := by omega
      by_cases hlt : a.text < b.text
      · simp [hrank, hlt]
      · by_cases he : a.text = b.text <;> simp [hrank, hlt, he]

theorem order_refl (a : Key) : a.order a = .eq :=
  order_eq_iff.mpr ⟨rfl, rfl⟩

theorem order_eq_symm (h : a.order b = .eq) : b.order a = .eq :=
  order_eq_iff.mpr ((order_eq_iff.mp h).imp Eq.symm Eq.symm)

theorem order_lt_trans (hab : a.order b = .lt) (hbc : b.order c = .lt) : a.order c = .lt := by
  rw [order_lt_iff] at *
  rcases hab with hab | ⟨hab, htab⟩
  · rcases hbc with hbc | ⟨hbc, -⟩
    · exact .inl (Nat.lt_trans hab hbc)
    · exact .inl (hbc ▸ hab)
  · rcases hbc with hbc | ⟨hbc, htbc⟩
    · exact .inl (hab ▸ hbc)
    · exact .inr ⟨hab.trans hbc, String.lt_trans htab htbc⟩

theorem order_lt_asymm (h : a.order b = .lt) : b.order a ≠ .lt := by
  intro hba
  have haa := order_lt_trans h hba
  rw [order_refl] at haa
  cases haa

theorem order_gt_iff : a.order b = .gt ↔ b.order a = .lt := by
  have hgt : a.order b = .gt ↔ a.order b ≠ .lt ∧ a.order b ≠ .eq := by
    cases a.order b <;> simp
  rw [hgt, ne_eq, ne_eq, order_lt_iff, order_eq_iff, ← rank_eq_iff, order_lt_iff]
  rcases Nat.lt_trichotomy a.rank b.rank with hrank | hrank | hrank
  · simp [hrank, Nat.lt_asymm hrank, Nat.ne_of_gt hrank]
  · rcases Std.lt_trichotomy a.text b.text with htext | htext | htext
    · simp [hrank, htext, String.lt_asymm htext]
    · refine iff_of_false (fun h => h.2 ⟨hrank, htext⟩) ?_
      rintro (h | ⟨-, h⟩)
      · exact Nat.ne_of_lt h hrank.symm
      · exact String.lt_irrefl _ (htext ▸ h)
    · have hne : a.text ≠ b.text := fun he => String.lt_irrefl b.text (he ▸ htext)
      simp [hrank, htext, hne, String.lt_asymm htext]
  · simp [hrank, Nat.lt_asymm hrank, Nat.ne_of_gt hrank]

theorem order_congr_left (h : a.order b = .eq) : a.order c = b.order c := by
  obtain ⟨hkind, htext⟩ := order_eq_iff.mp h
  simp only [order, rank_eq_iff.mpr hkind, htext]

theorem order_congr_right (h : b.order c = .eq) : a.order b = a.order c := by
  obtain ⟨hkind, htext⟩ := order_eq_iff.mp h
  simp only [order, rank_eq_iff.mpr hkind, htext]

theorem key?_toValue (k : Key) : k.toValue.key? = some k := by
  cases k <;> rfl

theorem kind_toValue (k : Key) : k.toValue.kind = k.kind := by
  cases k <;> rfl

theorem display_toValue (k : Key) : k.toValue.display = k.text := by
  cases k <;> simp [toValue, Value.display, text]

end Key

namespace Value

/-- The values have one kind and one text, which makes them the same key of a hash. -/
def SameKey (i j : Value) : Prop := i.kind = j.kind ∧ i.display = j.display

instance (i j : Value) : Decidable (i.SameKey j) := inferInstanceAs (Decidable (_ ∧ _))

variable {i j v : Value} {k l : Key}

theorem key?_eq_some_iff : v.key? = some k ↔ v = k.toValue := by
  cases v <;> cases k <;> simp [key?, Key.toValue]

theorem isSome_key? (v : Value) : v.key?.isSome = v.kind.hashable := by
  cases v <;> rfl

theorem exists_key (h : v.kind.hashable) : ∃ k, v.key? = some k :=
  Option.isSome_iff_exists.mp (by rw [isSome_key?, h])

theorem sameKey_iff_order (hi : i.key? = some k) (hj : j.key? = some l) :
    i.SameKey j ↔ k.order l = .eq := by
  rw [key?_eq_some_iff] at hi hj
  rw [Key.order_eq_iff, hi, hj, SameKey, Key.kind_toValue, Key.kind_toValue, Key.display_toValue,
    Key.display_toValue]

end Value

namespace Entries

open scoped List

variable {key j : Key} {v : Value} {e : Key × Value} {es found result : List (Key × Value)}
  {p : Value × Value} {ps qs : List (Value × Value)}

/-- Entries in the order of their keys, which are all different to a hash. -/
def Sorted (es : List (Key × Value)) : Prop := es.Pairwise fun a b => a.1.order b.1 = .lt

theorem get?_insert (j key : Key) (v : Value) (es : List (Key × Value)) :
    get? j (insert key v es) = if j.order key = .eq then some v else get? j es := by
  induction es with
  | nil => rfl
  | cons e es ih =>
    obtain ⟨k, w⟩ := e
    rw [insert]
    cases hk : key.order k with
    | lt => rfl
    | eq =>
      rw [get?, get?, Key.order_congr_right hk]
      by_cases hj : j.order k = .eq <;> simp [hj]
    | gt =>
      rw [get?, get?, ih]
      by_cases hj : j.order k = .eq
      · -- The key put in comes behind `k`, so what is the same as `k` differs from it.
        have hjkey : j.order key ≠ .eq := by
          intro h
          rw [Key.order_congr_left h, hk] at hj
          cases hj
        simp [hj, hjkey]
      · simp [hj]

theorem mem_of_get? (h : get? key es = some v) : ∃ k, (k, v) ∈ es := by
  induction es with
  | nil => cases h
  | cons e es ih =>
    obtain ⟨k, w⟩ := e
    rw [get?] at h
    split at h
    · cases h
      exact ⟨k, List.mem_cons_self⟩
    · exact (ih h).imp fun _ => List.mem_cons_of_mem _

theorem mem_insert (h : e ∈ insert key v es) : e = (key, v) ∨ e ∈ es := by
  induction es with
  | nil => exact .inl (List.mem_singleton.mp h)
  | cons d es ih =>
    rw [insert] at h
    cases hd : key.order d.1 with
    | lt =>
      rw [hd] at h
      exact List.mem_cons.mp h
    | eq =>
      rw [hd] at h
      exact (List.mem_cons.mp h).imp_right (List.mem_cons_of_mem _)
    | gt =>
      rw [hd] at h
      rcases List.mem_cons.mp h with rfl | h
      · exact .inr List.mem_cons_self
      · exact (ih h).imp_right (List.mem_cons_of_mem _)

theorem forall_insert {P : Value → Prop} (h : ∀ e ∈ es, P e.2) (hv : P v) :
    ∀ e ∈ insert key v es, P e.2 := by
  intro e he
  rcases mem_insert he with rfl | he
  · exact hv
  · exact h e he

theorem sorted_insert (hs : Sorted es) : Sorted (insert key v es) := by
  induction es with
  | nil => exact List.pairwise_singleton _ _
  | cons d es ih =>
    obtain ⟨hd, hes⟩ := List.pairwise_cons.mp hs
    rw [insert]
    cases hkey : key.order d.1 with
    | lt =>
      refine List.pairwise_cons.mpr ⟨fun e he => ?_, hs⟩
      rcases List.mem_cons.mp he with rfl | he
      · exact hkey
      · exact Key.order_lt_trans hkey (hd e he)
    | eq =>
      exact List.pairwise_cons.mpr ⟨fun e he => (Key.order_congr_left hkey).trans (hd e he), hes⟩
    | gt =>
      refine List.pairwise_cons.mpr ⟨fun e he => ?_, ih hes⟩
      rcases mem_insert he with rfl | he
      · exact Key.order_gt_iff.mp hkey
      · exact hd e he

theorem le_length_insert : es.length ≤ (insert key v es).length := by
  induction es with
  | nil => exact Nat.zero_le _
  | cons e es ih =>
    rw [insert]
    split <;> simp only [List.length_cons] <;> omega

theorem length_insert_le : (insert key v es).length ≤ es.length + 1 := by
  induction es with
  | nil => exact Nat.le_refl _
  | cons e es ih =>
    rw [insert]
    split <;> simp only [List.length_cons] <;> omega

theorem insert_of_lt (h : ∀ e ∈ es, e.1.order key = .lt) : insert key v es = es ++ [(key, v)] := by
  induction es with
  | nil => rfl
  | cons e es ih =>
    have hgt : key.order e.1 = .gt := Key.order_gt_iff.mpr (h e List.mem_cons_self)
    rw [insert, hgt, List.cons_append, ih fun d hd => h d (List.mem_cons_of_mem _ hd)]

theorem insert_perm (h : ∀ e ∈ es, key.order e.1 ≠ .eq) :
    insert key v es ~ (key, v) :: es := by
  induction es with
  | nil => exact .refl _
  | cons e es ih =>
    rw [insert]
    cases he : key.order e.1 with
    | lt => exact .refl _
    | eq => exact absurd he (h e List.mem_cons_self)
    | gt => exact ((ih fun d hd => h d (List.mem_cons_of_mem _ hd)).cons e).trans (.swap ..)

section Pairs

/-- The pairs have keys that are all different to a hash. -/
def Distinct (ps : List (Value × Value)) : Prop := ps.Pairwise fun p q => ¬p.1.SameKey q.1

theorem ofPairs_cons_ok_iff : ofPairs found (p :: ps) = .ok result ↔
    ∃ key, p.1.key? = some key ∧ ofPairs (insert key p.2 found) ps = .ok result := by
  rw [ofPairs]
  cases p.1.key? with
  | none => simp
  | some key => simp

theorem exists_ofPairs (h : ∀ p ∈ ps, p.1.kind.hashable) (found : List (Key × Value)) :
    ∃ result, ofPairs found ps = .ok result := by
  induction ps generalizing found with
  | nil => exact ⟨found, rfl⟩
  | cons p ps ih =>
    obtain ⟨key, hkey⟩ := Value.exists_key (h p List.mem_cons_self)
    obtain ⟨result, hr⟩ := ih (fun q hq => h q (List.mem_cons_of_mem _ hq)) (insert key p.2 found)
    exact ⟨result, ofPairs_cons_ok_iff.mpr ⟨key, hkey, hr⟩⟩

theorem forall_ofPairs {P : Value → Prop} (hf : ∀ e ∈ found, P e.2) (h : ∀ p ∈ ps, P p.2)
    (hr : ofPairs found ps = .ok result) : ∀ e ∈ result, P e.2 := by
  induction ps generalizing found with
  | nil =>
    cases hr
    exact hf
  | cons p ps ih =>
    obtain ⟨key, -, hr⟩ := ofPairs_cons_ok_iff.mp hr
    exact ih (forall_insert hf (h p List.mem_cons_self))
      (fun q hq => h q (List.mem_cons_of_mem _ hq)) hr

theorem sorted_ofPairs (hf : Sorted found) (h : ofPairs found ps = .ok result) :
    Sorted result := by
  induction ps generalizing found with
  | nil =>
    cases h
    exact hf
  | cons p ps ih =>
    obtain ⟨key, -, hr⟩ := ofPairs_cons_ok_iff.mp h
    exact ih (sorted_insert hf) hr

/-- Of the pairs that have the key, the last one decides. -/
theorem get?_ofPairs {k : Value} (hk : k.key? = some key) (h : ofPairs found ps = .ok result) :
    get? key result =
      ((ps.reverse.find? fun p => k.SameKey p.1).map Prod.snd).or (get? key found) := by
  induction ps generalizing found with
  | nil =>
    cases h
    rfl
  | cons p ps ih =>
    obtain ⟨l, hl, hr⟩ := ofPairs_cons_ok_iff.mp h
    rw [ih hr, get?_insert, List.reverse_cons, List.find?_append, Option.map_or, Option.or_assoc]
    congr 1
    by_cases hsame : k.SameKey p.1
    · simp [hsame, (Value.sameKey_iff_order hk hl).mp hsame]
    · simp [hsame, mt (Value.sameKey_iff_order hk hl).mpr hsame]

/-- The entries of a hash, read as pairs, make it again. -/
theorem ofPairs_map_pair (hs : Sorted (found ++ es)) :
    ofPairs found (es.map pair ++ ps) = ofPairs (found ++ es) ps := by
  induction es generalizing found with
  | nil => rw [List.map_nil, List.nil_append, List.append_nil]
  | cons e es ih =>
    have hlast : ∀ d ∈ found, d.1.order e.1 = .lt := fun d hd =>
      (List.pairwise_append.mp hs).2.2 d hd e List.mem_cons_self
    rw [List.map_cons, List.cons_append, pair, ofPairs, Key.key?_toValue]
    simp only
    rw [insert_of_lt hlast, ih, List.append_assoc, List.singleton_append]
    rwa [List.append_assoc]

def ofPair? (p : Value × Value) : Option (Key × Value) := p.1.key?.map (·, p.2)

theorem perm_ofPairs (hd : Distinct ps)
    (hf : ∀ e ∈ found, ∀ p ∈ ps, ∀ k, p.1.key? = some k → k.order e.1 ≠ .eq)
    (h : ofPairs found ps = .ok result) : result ~ found ++ ps.filterMap ofPair? := by
  induction ps generalizing found with
  | nil =>
    cases h
    rw [List.filterMap_nil, List.append_nil]
  | cons p ps ih =>
    obtain ⟨key, hkey, hr⟩ := ofPairs_cons_ok_iff.mp h
    obtain ⟨hp, hps⟩ := List.pairwise_cons.mp hd
    have hfound : ∀ e ∈ insert key p.2 found, ∀ q ∈ ps, ∀ k, q.1.key? = some k →
        k.order e.1 ≠ .eq := by
      intro e he q hq k hk
      rcases mem_insert he with rfl | he
      · intro heq
        exact hp q hq ((Value.sameKey_iff_order hkey hk).mpr (Key.order_eq_symm heq))
      · exact hf e he q (List.mem_cons_of_mem _ hq) k hk
    have hmade : ofPair? p = some (key, p.2) := by rw [ofPair?, hkey, Option.map_some]
    have hinsert : insert key p.2 found ~ (key, p.2) :: found :=
      insert_perm fun e he => hf e he p List.mem_cons_self key hkey
    rw [List.filterMap_cons_some hmade]
    calc result
      _ ~ insert key p.2 found ++ ps.filterMap ofPair? := ih hps hfound hr
      _ ~ (key, p.2) :: found ++ ps.filterMap ofPair? := hinsert.append_right _
      _ ~ found ++ (key, p.2) :: ps.filterMap ofPair? := List.perm_middle.symm

theorem Sorted.eq_of_perm (hs : Sorted es) (hr : Sorted result) (h : es ~ result) :
    es = result :=
  h.eq_of_pairwise (fun _ _ _ _ hab hba => absurd hba (Key.order_lt_asymm hab)) hs hr

/-- The order of the pairs does not matter when their keys are all different. -/
theorem ofPairs_eq_of_perm (hd : Distinct ps) (hpq : qs ~ ps) (h : ofPairs [] ps = .ok es)
    (h' : ofPairs [] qs = .ok result) : result = es := by
  have hd' : Distinct qs :=
    hpq.symm.pairwise hd fun hne hsame => hne (hsame.imp Eq.symm Eq.symm)
  have hes : es ~ ps.filterMap ofPair? := perm_ofPairs hd (by simp) h
  have hresult : result ~ qs.filterMap ofPair? := perm_ofPairs hd' (by simp) h'
  have hperm : result ~ es := hresult.trans ((hpq.filterMap ofPair?).trans hes.symm)
  exact (sorted_ofPairs .nil h').eq_of_perm (sorted_ofPairs .nil h) hperm

end Pairs

end Entries

end StackScript
