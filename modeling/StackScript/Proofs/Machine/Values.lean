import StackScript.Machine.Step
import StackScript.Proofs.Value.Hashes

/-! # Functions in values

A property of functions holds of a value when it holds of all closures and builtins that the value
contains. No operation on values makes a function, so what they give has only the functions of their
operands.
-/

namespace StackScript

inductive Value.All (P : Value → Prop) : Value → Prop
  | null : All P .null
  | bool {b : Bool} : All P (.bool b)
  | int {n : Int64} : All P (.int n)
  | decimal {x : Float} : All P (.decimal x)
  | str {s : String} : All P (.str s)
  | array {stamp : Nat} {items : List Value} : (∀ v ∈ items, All P v) → All P (.array stamp items)
  | hash {stamp : Nat} {entries : List (Key × Value)} : (∀ e ∈ entries, All P e.2) →
      All P (.hash stamp entries)
  | error {message : String} {span : Option Span} : All P (.error message span)
  | function {body : Function} : All P (.function body)
  | closure {stamp : Nat} {body : Function} {free : List Value} : P (.closure stamp body free) →
      (∀ v ∈ free, All P v) → All P (.closure stamp body free)
  | builtin {index : Nat} : P (.builtin index) → All P (.builtin index)

mutual

theorem Value.le_copy (next : Nat) : (v : Value) → next ≤ (v.copy next).2
  | .array _ items => Nat.le_of_succ_le (Value.le_copyItems (next + 1) items)
  | .hash _ entries => Nat.le_of_succ_le (Value.le_copyEntries (next + 1) entries)
  | .null | .bool _ | .int _ | .decimal _ | .str _ | .error _ _ | .function _ | .closure _ _ _
  | .builtin _ => Nat.le_refl next

theorem Value.le_copyItems (next : Nat) : (vs : List Value) → next ≤ (Value.copyItems next vs).2
  | [] => Nat.le_refl next
  | v :: vs => Nat.le_trans (Value.le_copy next v) (Value.le_copyItems _ vs)

theorem Value.le_copyEntries (next : Nat) :
    (es : List (Key × Value)) → next ≤ (Value.copyEntries next es).2
  | [] => Nat.le_refl next
  | (_, v) :: es => Nat.le_trans (Value.le_copy next v) (Value.le_copyEntries _ es)

end

theorem Value.mem_copyItems {next : Nat} {items : List Value} {w : Value}
    (h : w ∈ (Value.copyItems next items).1) : ∃ v ∈ items, ∃ k, (v.copy k).1 = w := by
  induction items generalizing next with
  | nil => cases h
  | cons v vs ih =>
    rcases List.mem_cons.mp h with rfl | h
    · exact ⟨v, List.mem_cons_self, next, rfl⟩
    · obtain ⟨u, hu, hw⟩ := ih h
      exact ⟨u, List.mem_cons_of_mem _ hu, hw⟩

theorem Value.mem_copyEntries {next : Nat} {entries : List (Key × Value)} {d : Key × Value}
    (h : d ∈ (Value.copyEntries next entries).1) :
    ∃ e ∈ entries, ∃ k, (e.2.copy k).1 = d.2 := by
  induction entries generalizing next with
  | nil => cases h
  | cons e es ih =>
    rcases List.mem_cons.mp h with rfl | h
    · exact ⟨e, List.mem_cons_self, next, rfl⟩
    · obtain ⟨u, hu, hd⟩ := ih h
      exact ⟨u, List.mem_cons_of_mem _ hu, hd⟩

section Elements

variable {t t' i v w : Value} {n : Int64} {p stamp length : Nat} {e : Fault}

theorem Value.position_ok_iff : Value.position length n = .ok p ↔ n.toInt = p ∧ p < length := by
  rw [Value.position]
  split
  · next h =>
    rw [Except.ok.injEq]
    omega
  · next h =>
    simp only [reduceCtorEq, false_iff]
    omega

theorem Value.index_ok (h : t.index i = .ok w) :
    (∃ s items n p, t = .array s items ∧ i = .int n ∧ Value.position items.length n = .ok p ∧
      items[p]? = some w) ∨
    ∃ s entries key, t = .hash s entries ∧ i.key? = some key ∧
      w = (Entries.get? key entries).getD .null := by
  unfold Value.index at h
  split at h
  · next s items n =>
    cases hp : Value.position items.length n with
    | error e => simp [hp, bind, Except.bind] at h
    | ok p =>
      simp only [hp, bind, Except.bind, pure, Except.pure, Except.ok.injEq] at h
      obtain ⟨-, hlt⟩ := Value.position_ok_iff.mp hp
      rw [List.getElem?_eq_getElem hlt, Option.getD_some] at h
      exact .inl ⟨s, items, n, p, rfl, rfl, hp, by rw [List.getElem?_eq_getElem hlt, h]⟩
  · next s entries =>
    split at h
    · next key hkey =>
      cases h
      exact .inr ⟨s, entries, key, rfl, hkey, rfl⟩
    · cases h
  · cases h

theorem Value.exists_rebuilt {entries : List (Key × Value)} {key : Key} (hkey : i.key? = some key) :
    ∃ after, Entries.ofPairs [] (entries.map Entries.pair ++ [(i, v)]) = .ok after ∧
      rebuilt stamp entries i v = .ok (.hash stamp after) := by
  have hhashable : ∀ p ∈ entries.map Entries.pair ++ [(i, v)], p.1.kind.hashable := by
    intro p hp
    rw [← Value.isSome_key?]
    rcases List.mem_append.mp hp with hp | hp
    · obtain ⟨e, -, rfl⟩ := List.mem_map.mp hp
      simp [Entries.pair, Key.key?_toValue]
    · simp [List.mem_singleton.mp hp, hkey]
  obtain ⟨after, hafter⟩ := Entries.exists_ofPairs hhashable []
  exact ⟨after, hafter, by rw [rebuilt, hafter]⟩

/-- All writes there are. -/
theorem Value.assignIndex_ok (h : t.assignIndex stamp i v = .ok t') :
    (∃ s items n p, t = .array s items ∧ i = .int n ∧ Value.position items.length n = .ok p ∧
      t' = .array stamp (items.set p v)) ∨
    ∃ s entries key after, t = .hash s entries ∧ i.key? = some key ∧
      Entries.ofPairs [] (entries.map Entries.pair ++ [(i, v)]) = .ok after ∧
      t' = .hash stamp after := by
  unfold Value.assignIndex at h
  split at h
  · next s items n =>
    cases hp : Value.position items.length n with
    | error e => simp [hp, bind, Except.bind] at h
    | ok p =>
      simp only [hp, bind, Except.bind, pure, Except.pure, Except.ok.injEq] at h
      exact .inl ⟨s, items, n, p, rfl, rfl, hp, h.symm⟩
  · next s entries =>
    split at h
    · next key hkey =>
      obtain ⟨after, hafter, hrebuilt⟩ := Value.exists_rebuilt hkey
      cases hrebuilt.symm.trans h
      exact .inr ⟨s, entries, key, after, rfl, hkey, hafter, rfl⟩
    · cases h
  · cases h

/-- What cannot be read cannot be written, and the other way round. -/
theorem Value.assignIndex_error_iff :
    t.assignIndex stamp i v = .error e ↔ t.index i = .error e := by
  unfold Value.assignIndex Value.index
  split
  · next s items n =>
    cases Value.position items.length n with
    | error e' => simp [bind, Except.bind]
    | ok p => simp [bind, Except.bind, pure, Except.pure]
  · next entries =>
    cases hkey : i.key? with
    | none => exact Iff.rfl
    | some key =>
      have hwritten : ∃ after, Value.rebuilt stamp entries i v = .ok after := by
        obtain ⟨_, -, hrebuilt⟩ := Value.exists_rebuilt hkey
        exact ⟨_, hrebuilt⟩
      obtain ⟨after, hafter⟩ := hwritten
      simp [hafter]
  · exact Iff.rfl

end Elements

namespace Value.All

variable {P Q : Value → Prop} {v w i : Value} {stamp : Nat} {items : List Value}
  {entries : List (Key × Value)}

theorem mono (h : v.All P) (hPQ : ∀ v, P v → Q v) : v.All Q := by
  induction h with
  | null => exact .null
  | bool => exact .bool
  | int => exact .int
  | decimal => exact .decimal
  | str => exact .str
  | array _ ih => exact .array ih
  | hash _ ih => exact .hash ih
  | error => exact .error
  | function => exact .function
  | closure hp _ ih => exact .closure (hPQ _ hp) ih
  | builtin hp => exact .builtin (hPQ _ hp)

theorem of_items (h : (Value.array stamp items).All P) : ∀ v ∈ items, v.All P := by
  cases h with
  | array h => exact h

theorem of_entries (h : (Value.hash stamp entries).All P) : ∀ e ∈ entries, e.2.All P := by
  cases h with
  | hash h => exact h

theorem getD {o : Option Value} (h : ∀ v, o = some v → v.All P) : (o.getD .null).All P := by
  cases o with
  | none => exact .null
  | some v => exact h v rfl

theorem copy (h : v.All P) (next : Nat) : (v.copy next).1.All P := by
  induction h generalizing next with
  | array _ ih =>
    refine .array fun w hw => ?_
    obtain ⟨v, hv, k, rfl⟩ := Value.mem_copyItems hw
    exact ih v hv k
  | hash _ ih =>
    refine .hash fun d hd => ?_
    obtain ⟨e, he, k, hk⟩ := Value.mem_copyEntries hd
    exact hk ▸ ih e he k
  | closure hp h _ => exact .closure hp h
  | builtin hp => exact .builtin hp
  | _ => constructor

theorem pairUp (h : ∀ v ∈ items, v.All P) : ∀ p ∈ Value.pairUp items, p.2.All P := by
  fun_induction Value.pairUp items with
  | case1 k v rest ih =>
    intro p hp
    rcases List.mem_cons.mp hp with rfl | hp
    · exact h v (by simp)
    · exact ih (fun u hu => h u (by simp [hu])) p hp
  | case2 => simp

theorem index (h : v.All P) (hr : v.index i = .ok w) : w.All P := by
  obtain ⟨s, items, n, p, rfl, -, -, hw⟩ | ⟨s, entries, key, rfl, -, rfl⟩ := Value.index_ok hr
  · exact h.of_items w (List.mem_of_getElem? hw)
  · refine getD fun u hu => ?_
    obtain ⟨k, hk⟩ := Entries.mem_of_get? hu
    exact h.of_entries _ hk

theorem assignIndex {target : Value} (ht : target.All P) (hv : v.All P)
    (hr : target.assignIndex stamp i v = .ok w) : w.All P := by
  obtain ⟨s, items, n, p, rfl, -, -, rfl⟩ | ⟨s, entries, key, after, rfl, -, hafter, rfl⟩ :=
    Value.assignIndex_ok hr
  · refine .array fun u hu => ?_
    rcases List.mem_or_eq_of_mem_set hu with hu | rfl
    · exact ht.of_items u hu
    · exact hv
  · refine .hash (Entries.forall_ofPairs (by simp) (fun p hp => ?_) hafter)
    rcases List.mem_append.mp hp with hp | hp
    · obtain ⟨e, he, rfl⟩ := List.mem_map.mp hp
      exact ht.of_entries e he
    · exact List.mem_singleton.mp hp ▸ hv

end Value.All

section Operators

variable {P : Value → Prop} {l r v : Value}

theorem Operator.arithmetic_all {op : Operator} {x : Except Fault Value}
    (hx : op.arithmetic l r = some x) (hv : x = .ok v) : v.All P := by
  subst hv
  unfold Operator.arithmetic at hx
  split at hx
  · obtain ⟨y, -, hy⟩ := Option.map_eq_some_iff.mp hx
    cases y with
    | error e => cases hy
    | ok n =>
      cases hy
      exact .int
  · obtain ⟨y, -, hy⟩ := Option.map_eq_some_iff.mp hx
    cases hy
    exact .decimal
  · split at hx
    · cases hx
      exact .str
    · cases hx
  · obtain ⟨y, -, hy⟩ := Option.map_eq_some_iff.mp hx
    cases hy
    exact .bool
  · cases hx

theorem Operator.applySame_all {op : Operator} {x : Except Fault Value}
    (hx : op.applySame l r = some x) (hv : x = .ok v) : v.All P := by
  unfold Operator.applySame at hx
  split at hx
  · cases hx
    cases hv
    exact .bool
  · cases hx
    cases hv
    exact .bool
  iterate 4
    · obtain ⟨y, -, hy⟩ := Option.map_eq_some_iff.mp hx
      subst hy
      cases hv
      exact .bool
  · exact arithmetic_all hx hv

/-- An operator makes no function. -/
theorem Operator.apply_all {op : Operator} (h : op.apply l r = .ok v) : v.All P := by
  unfold Operator.apply at h
  split at h
  · cases h
    exact .bool
  · cases h
    exact .bool
  · split at h
    · next l' r' _ =>
      cases hs : op.applySame l' r' with
      | none =>
        rw [hs] at h
        cases h
      | some x =>
        rw [hs] at h
        exact applySame_all hs h
    · split at h
      · cases h
        exact .bool
      · cases h
        exact .bool
      · cases h

theorem UnaryOp.apply_all {op : UnaryOp} (h : op.apply l = .ok v) : v.All P := by
  unfold UnaryOp.apply at h
  split at h
  · cases h
    exact .bool
  · split at h
    · cases h
      exact .int
    · cases h
  · cases h
    exact .decimal
  · cases h
    exact .int
  · cases h
    exact .bool
  · cases h

theorem Builtin.onArray_all {b : Builtin} {f : List Value → Value} {reply : Builtin.Reply}
    (hf : ∀ items, (∀ v ∈ items, v.All P) → (f items).All P) (hv : v.All P)
    (h : b.onArray f v = .ok reply) : reply.value.All P := by
  unfold Builtin.onArray at h
  split at h
  · cases h
    exact hf _ hv.of_items
  · cases h

/-- What a builtin gives has the functions of its arguments. -/
theorem Builtin.apply_all {b : Builtin} {stamp : Nat} {args : List Value} {reply : Builtin.Reply}
    (ha : ∀ v ∈ args, v.All P) (h : b.apply stamp args = .ok reply) : reply.value.All P := by
  unfold Builtin.apply at h
  split at h
  · split at h <;> cases h <;> exact .int
  · cases h
    exact .null
  · refine onArray_all (fun items hi => ?_) (ha _ (by simp)) h
    exact .getD fun u hu => hi u (List.mem_of_head? hu)
  · refine onArray_all (fun items hi => ?_) (ha _ (by simp)) h
    exact .getD fun u hu => hi u (List.mem_of_getLast? hu)
  · refine onArray_all (fun items hi => ?_) (ha _ (by simp)) h
    split
    · exact .null
    · exact .array fun u hu => hi u (by simp [hu])
  · next item =>
    refine onArray_all (fun items hi => ?_) (ha _ (by simp)) h
    refine .array fun u hu => ?_
    rcases List.mem_append.mp hu with hu | hu
    · exact hi u hu
    · exact List.mem_singleton.mp hu ▸ ha item (by simp)
  · cases h
    exact .str
  · cases h
    exact .error
  · cases h
  · cases h

end Operators

end StackScript
