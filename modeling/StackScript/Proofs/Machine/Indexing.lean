import StackScript.Proofs.Machine.Values

/-! # Indexing

An element that is written is read back, and all other elements stay what they were. The keys ascend
in every hash, which is why writing to one gives the hash of the pairs it stores and the new one.
-/

namespace StackScript

/-- The keys ascend in every hash in the value. -/
inductive Value.Keyed : Value → Prop
  | null : Keyed .null
  | bool {b : Bool} : Keyed (.bool b)
  | int {n : Int64} : Keyed (.int n)
  | decimal {x : Float} : Keyed (.decimal x)
  | str {s : String} : Keyed (.str s)
  | array {stamp : Nat} {items : List Value} : (∀ v ∈ items, Keyed v) → Keyed (.array stamp items)
  | hash {stamp : Nat} {entries : List (Key × Value)} : Entries.Sorted entries →
      (∀ e ∈ entries, Keyed e.2) → Keyed (.hash stamp entries)
  | error {message : String} {span : Option Span} : Keyed (.error message span)
  | function {body : Function} : Keyed (.function body)
  | closure {stamp : Nat} {body : Function} {free : List Value} : (∀ v ∈ free, Keyed v) →
      Keyed (.closure stamp body free)
  | builtin {index : Nat} : Keyed (.builtin index)

namespace Value

/-- Two indices mean the same element: a position of an array, or the value of a key in a hash. -/
def SameElement : Value → Value → Value → Prop
  | .array _ _, i, j => i = j
  | .hash _ _, i, j => i.SameKey j
  | _, _, _ => False

/-- An array of as many items, or a hash with at most one entry more. -/
inductive Grown : Value → Value → Prop
  | array {s t : Nat} {items after : List Value} : after.length = items.length →
      Grown (.array s items) (.array t after)
  | hash {s t : Nat} {entries after : List (Key × Value)} : entries.length ≤ after.length →
      after.length ≤ entries.length + 1 → Grown (.hash s entries) (.hash t after)

/-- What a write of `v` at `i` makes of `t`. -/
structure Written (t i v t' : Value) : Prop where
  here : t'.index i = .ok v
  elsewhere : ∀ j, ¬t.SameElement i j → t'.index j = t.index j
  grown : t.Grown t'
  keyed : v.Keyed → t'.Keyed

/-- Reads and writes of `t` are those of a finite map. -/
structure FiniteMap (t : Value) : Prop where
  write : ∀ {stamp i v t'}, t.assignIndex stamp i v = .ok t' → t.Written i v t'
  fails : ∀ stamp i v e, t.assignIndex stamp i v = .error e ↔ t.index i = .error e
  hash : ∀ {s entries}, t = .hash s entries →
    ∀ stamp i v, t.assignIndex stamp i v = rebuilt stamp entries i v ∧
      ∀ key, i.key? = some key →
        t.assignIndex stamp i v = .ok (.hash stamp (Entries.insert key v entries))
  copy : ∀ next, (t.copy next).1.Keyed

end Value

/-- What a hash with the entries `es` keeps of the pairs it is made from. -/
structure Entries.Collected (ps : List (Value × Value)) (es : List (Key × Value)) : Prop where
  lookup : ∀ s (k : Value), k.kind.hashable → (Value.hash s es).index k =
    .ok (((ps.reverse.find? fun p => k.SameKey p.1).map Prod.snd).getD .null)
  keyed : (∀ p ∈ ps, p.2.Keyed) → ∀ s, (Value.hash s es).Keyed
  permuted : Entries.Distinct ps → ∀ {qs}, qs.Perm ps → Entries.ofPairs [] qs = .ok es
  displayed : Entries.Distinct ps → ∀ {qs es'}, qs.Perm ps → Entries.ofPairs [] qs = .ok es' →
    ∀ s s', (Value.hash s es').display = (Value.hash s' es).display

section Invariant

variable {v : Value} {stamp : Nat} {items : List Value} {entries : List (Key × Value)}

theorem Value.Keyed.of_items (h : (Value.array stamp items).Keyed) : ∀ v ∈ items, v.Keyed := by
  cases h with
  | array h => exact h

theorem Value.Keyed.sorted (h : (Value.hash stamp entries).Keyed) : Entries.Sorted entries := by
  cases h with
  | hash h _ => exact h

theorem Value.Keyed.of_entries (h : (Value.hash stamp entries).Keyed) :
    ∀ e ∈ entries, e.2.Keyed := by
  cases h with
  | hash _ h => exact h

/-- Copies stand under the keys of the originals. -/
theorem Value.copyEntries_keys (next : Nat) (entries : List (Key × Value)) :
    (Value.copyEntries next entries).1.map Prod.fst = entries.map Prod.fst := by
  induction entries generalizing next with
  | nil => rfl
  | cons e es ih => exact congrArg (e.1 :: ·) (ih _)

theorem Entries.sorted_copyEntries (h : Entries.Sorted entries) (next : Nat) :
    Entries.Sorted (Value.copyEntries next entries).1 := by
  have hkeys : (entries.map Prod.fst).Pairwise fun k l => k.order l = .lt :=
    List.pairwise_map.mpr h
  rw [← Value.copyEntries_keys next] at hkeys
  exact List.pairwise_map.mp hkeys

theorem Value.Keyed.copy (h : v.Keyed) (next : Nat) : (v.copy next).1.Keyed := by
  induction h generalizing next with
  | array _ ih =>
    refine .array fun w hw => ?_
    obtain ⟨v, hv, k, rfl⟩ := Value.mem_copyItems hw
    exact ih v hv k
  | hash hs _ ih =>
    refine .hash (Entries.sorted_copyEntries hs (next + 1)) fun d hd => ?_
    obtain ⟨e, he, k, hk⟩ := Value.mem_copyEntries hd
    exact hk ▸ ih e he k
  | closure h _ => exact .closure h
  | _ => constructor

end Invariant

namespace Value

variable {t i v : Value} {n : Int64} {p stamp s : Nat} {key : Key} {items : List Value}
  {entries : List (Key × Value)}

theorem index_hash (hkey : i.key? = some key) :
    (hash s entries).index i = .ok ((Entries.get? key entries).getD .null) := by
  simp only [index, hkey]

theorem index_hash_unhashable (hkey : i.key? = none) :
    (hash s entries).index i = .error (.unhashableKey i.kind) := by
  simp only [index, hkey]

theorem written_array (ht : (array s items).Keyed) (hp : position items.length n = .ok p) :
    (array s items).Written (.int n) v (.array stamp (items.set p v)) where
  here := by
    obtain ⟨-, hlt⟩ := position_ok_iff.mp hp
    simp [index, hp, bind, Except.bind, pure, Except.pure, hlt]
  elsewhere := by
    intro j hj
    cases j with
    | int m =>
      simp only [index, List.length_set]
      cases hq : position items.length m with
      | error e => rfl
      | ok q =>
        have hne : p ≠ q := by
          rintro rfl
          have hnm := (position_ok_iff.mp hp).1.trans (position_ok_iff.mp hq).1.symm
          exact hj (congrArg Value.int (Int64.toInt_inj.mp hnm))
        simp only [bind, Except.bind, List.getElem?_set_ne hne]
    | _ => rfl
  grown := .array List.length_set
  keyed := by
    intro hv
    refine .array fun w hw => ?_
    rcases List.mem_or_eq_of_mem_set hw with hw | rfl
    · exact ht.of_items w hw
    · exact hv

theorem written_hash (ht : (hash s entries).Keyed) (hkey : i.key? = some key) :
    (hash s entries).Written i v (.hash stamp (Entries.insert key v entries)) where
  here := by
    rw [index_hash hkey, Entries.get?_insert, if_pos (Key.order_refl key), Option.getD_some]
  elsewhere := by
    intro j hj
    cases hj? : j.key? with
    | none => rw [index_hash_unhashable hj?, index_hash_unhashable hj?]
    | some l =>
      have hne : l.order key ≠ .eq := fun heq =>
        hj ((sameKey_iff_order hkey hj?).mpr (Key.order_eq_symm heq))
      rw [index_hash hj?, index_hash hj?, Entries.get?_insert, if_neg hne]
  grown := .hash Entries.le_length_insert Entries.length_insert_le
  keyed hv := .hash (Entries.sorted_insert ht.sorted) (Entries.forall_insert ht.of_entries hv)

/-- The pairs that a hash stores make it again, so one more is inserted. -/
theorem ofPairs_insert (ht : (hash s entries).Keyed) (hkey : i.key? = some key) :
    Entries.ofPairs [] (entries.map Entries.pair ++ [(i, v)]) =
      .ok (Entries.insert key v entries) := by
  have hstored : Entries.Sorted ([] ++ entries) := ht.sorted
  simp only [Entries.ofPairs_map_pair hstored, Entries.ofPairs, List.nil_append, hkey]

theorem assignIndex_eq_rebuilt (ht : (hash s entries).Keyed) :
    (hash s entries).assignIndex stamp i v = rebuilt stamp entries i v := by
  have hstored : Entries.Sorted ([] ++ entries) := ht.sorted
  cases hkey : i.key? with
  | none => simp only [assignIndex, rebuilt, Entries.ofPairs_map_pair hstored, Entries.ofPairs, hkey]
  | some key => simp only [assignIndex, hkey]

theorem assignIndex_eq_insert (ht : (hash s entries).Keyed) (hkey : i.key? = some key) :
    (hash s entries).assignIndex stamp i v = .ok (hash stamp (Entries.insert key v entries)) := by
  simp only [assignIndex, hkey, rebuilt, ofPairs_insert ht hkey]

theorem Keyed.finiteMap (ht : t.Keyed) : t.FiniteMap where
  write := by
    intro stamp i v t' h
    obtain ⟨s, items, n, p, rfl, rfl, hp, rfl⟩ | ⟨s, entries, key, after, rfl, hkey, hafter, rfl⟩ :=
      assignIndex_ok h
    · exact written_array ht hp
    · obtain rfl := Except.ok.inj ((ofPairs_insert ht hkey).symm.trans hafter)
      exact written_hash ht hkey
  fails _ _ _ _ := assignIndex_error_iff
  hash := by
    rintro s entries rfl stamp i v
    exact ⟨assignIndex_eq_rebuilt ht, fun key hkey => assignIndex_eq_insert ht hkey⟩
  copy := ht.copy

theorem collected {ps : List (Value × Value)} {es : List (Key × Value)}
    (hps : ∀ p ∈ ps, p.1.kind.hashable) (h : Entries.ofPairs [] ps = .ok es) :
    Entries.Collected ps es where
  lookup := by
    intro s k hk
    obtain ⟨key, hkey⟩ := exists_key hk
    rw [index_hash hkey, Entries.get?_ofPairs hkey h, Entries.get?, Option.or_none]
  keyed := by
    intro hvs s
    exact .hash (Entries.sorted_ofPairs .nil h) (Entries.forall_ofPairs (by simp) hvs h)
  permuted := by
    intro hd qs hqs
    obtain ⟨es', h'⟩ := Entries.exists_ofPairs (fun q hq => hps q (hqs.mem_iff.mp hq)) []
    rw [h', Entries.ofPairs_eq_of_perm hd hqs h h']
  displayed := by
    intro hd qs es' hqs h' s s'
    rw [Entries.ofPairs_eq_of_perm hd hqs h h', display, display]

/-- Indexing and indexed assignment are those of a finite map, and a hash of pairs maps each key to
the last value the pairs have for it. -/
theorem maps_finitely {ps : List (Value × Value)} (ht : t.Keyed)
    (hps : ∀ p ∈ ps, p.1.kind.hashable) :
    t.FiniteMap ∧ ∃ es, Entries.ofPairs [] ps = .ok es ∧ Entries.Collected ps es := by
  obtain ⟨es, hes⟩ := Entries.exists_ofPairs hps []
  exact ⟨ht.finiteMap, es, hes, collected hps hes⟩

theorem maps_finitely_number_and_text :
    (∃ t, (hash 0 [(.int 1, str "a"), (.str "1", str "b")]).assignIndex 1 (int 1) (str "c") = .ok t ∧
      t.index (int 1) = .ok (str "c") ∧ t.index (str "1") = .ok (str "b")) ∧
    ∃ es, Entries.ofPairs [] [(int 1, str "a"), (str "1", str "b"), (int 1, str "c")] = .ok es ∧
      (hash 2 es).index (int 1) = .ok (str "c") ∧ (hash 2 es).index (str "1") = .ok (str "b") ∧
      (hash 2 es).index null = .ok null := by
  have hkeyed : (hash 0 [(.int 1, str "a"), (.str "1", str "b")]).Keyed := by
    refine .hash (by simp [Entries.Sorted, Key.order, Key.rank]) ?_
    simp [Keyed.str]
  have hwrite :
      (hash 0 [(.int 1, str "a"), (.str "1", str "b")]).assignIndex 1 (int 1) (str "c") =
        .ok (hash 1 [(.int 1, str "c"), (.str "1", str "b")]) := by
    rw [assignIndex_eq_insert hkeyed rfl]
    simp [Entries.insert, Key.order_refl]
  have hps : ∀ p ∈ [(int 1, str "a"), (str "1", str "b"), (int 1, str "c")],
      p.1.kind.hashable := by decide
  obtain ⟨hmap, es, hes, hcollected⟩ := maps_finitely hkeyed hps
  have hwritten := hmap.write hwrite
  refine ⟨⟨_, hwrite, hwritten.here, ?_⟩, es, hes, ?_, ?_, ?_⟩
  · rw [hwritten.elsewhere (str "1") (by simp [SameElement, SameKey, kind])]
    simp [index, key?, Entries.get?, Key.order, Key.rank, Key.text]
  · rw [hcollected.lookup 2 (int 1) rfl]
    simp [SameKey]
  · rw [hcollected.lookup 2 (str "1") rfl]
    simp [SameKey, kind]
  · rw [hcollected.lookup 2 null rfl]
    simp [SameKey, kind]

end Value

end StackScript
