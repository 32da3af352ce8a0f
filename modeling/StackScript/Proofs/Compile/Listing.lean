import StackScript.Proofs.Compile.Flow
import StackScript.Proofs.Compile.Operands
import StackScript.Proofs.Compile.Programs

/-! # Listings of whole bodies

The listing of a function body or of a program is its whole code. Decoding gives the listing back,
control stays in it up to its end, and its operands are sound.
-/

namespace StackScript

structure Listed (pool : Array Value) (f : Function) (is : List Item) (x : Extent) (final : Nat) :
    Prop where
  flows : Flows (fun _ _ => False) 0 0 is f.code.size final
  fits : ∀ i ∈ is, i.Fits
  code : f.code.toList = assemble (is.map (·.toInstruction))
  sound : ∀ i ∈ is, i.Sound pool x
  locals : x.locals = f.locals
  params : f.params ≤ f.locals

section Whole

variable {pool : Array Value} {f : Function} {is : List Item} {x : Extent} {globals : Nat}

theorem size_eq_of_tiled {code : Code} {stop : Nat} (ht : Tiled 0 is stop) (hf : ∀ i ∈ is, i.Fits)
    (hc : code.toList = assemble (is.map (·.toInstruction))) : stop = code.size := by
  have hlen := ht.length_assemble hf
  rw [← hc, Array.length_toList] at hlen
  omega

theorem FunctionCode.listed {env : Lexical} {names : List String} {first : Nat}
    {self : Option String} {params : List Ident} {body : List Stmt} {bodySpan : Span} {s : Cursor}
    (h : FunctionCode pool env names first self params body bodySpan f is s)
    (hb : env.main.Below globals) :
    Listed pool f is ⟨globals, f.locals, names, s.constants, true⟩ 0 := by
  obtain ⟨hparams, hsound⟩ := h.sound hb
  cases h with
  | mk h hfits hcode _ _ _ _ =>
    have hsize := size_eq_of_tiled h.flows.tiled hfits hcode
    refine ⟨?_, hfits, hcode, hsound, rfl, hparams⟩
    rw [← hsize]
    refine h.flows.mono ?_
    rintro t n ⟨_, hx, -⟩
    cases hx

theorem Item.Closes.listed {i : Item} {l : Literal} (h : i.Closes pool x l) :
    ∃ k f is s, i.operands = [k, l.names.length] ∧ k < x.constants ∧
      pool[k]? = some (.function f) ∧ Listed pool f is ⟨x.globals, f.locals, l.names, s, true⟩ 0 := by
  obtain ⟨k, first, bodySpan, f, is, s, ho, hk, hf, hcode⟩ := h.body
  exact ⟨k, f, is, s.constants, ho, hk, hf, hcode.listed h.below⟩

def Object.main (o : Object) : Function := ⟨o.code, 0, 0, some "main", o.spans⟩

theorem Object.Lists.listed_ending {o : Object} {v : OpenScopes} {first : Nat} {body : List Stmt}
    {s : Cursor} (h : o.Lists v first body is s) (hv : v.inner = []) (hb : v.main.Below v.globals) :
    Listed o.constants o.main is ⟨s.slots, 0, [], s.constants, false⟩ (ending body).height := by
  have hflows := h.listing.flows_ending
  have hsize := size_eq_of_tiled hflows.tiled h.fits h.code
  have hinner : v.env.inner = [] := by simp [OpenScopes.env, hv]
  refine ⟨?_, h.fits, h.code, h.listing.sound hinner hb, rfl, Nat.le_refl _⟩
  change Flows _ 0 0 is o.code.size _
  rw [← hsize]
  exact hflows

theorem Object.Lists.listed {o : Object} {v : OpenScopes} {first : Nat} {body : List Stmt}
    {s : Cursor} (h : o.Lists v first body is s) (hv : v.inner = []) (hb : v.main.Below v.globals) :
    ∃ final ≤ 1, Listed o.constants o.main is ⟨s.slots, 0, [], s.constants, false⟩ final :=
  ⟨_, Ending.height_le _, h.listed_ending hv hb⟩

/-- Every function constant has a listing that uses only constants before it. -/
theorem PoolOk.listed {constants : Array Value} {index : Nat} (h : PoolOk constants globals)
    (hf : constants[index]? = some (.function f)) (hp : constants.toList <+: pool.toList) :
    ∃ is names, Listed pool f is ⟨globals, f.locals, names, index, true⟩ 0 := by
  cases h index _ hf with
  | @literal e v he => cases e <;> cases he
  | function hb hindex hcode => exact ⟨_, _, hindex ▸ (hcode pool hp).listed hb⟩

namespace Listed

variable {final : Nat} {i : Item}

theorem decode (h : Listed pool f is x final) (hi : i ∈ is) :
    f.code.decode i.offset = .ok (i.toInstruction, i.offset + i.op.length) := by
  obtain ⟨before, after, rfl⟩ := List.append_of_mem hi
  obtain ⟨mid, h₁, h₂⟩ := tiled_append.mp h.flows.tiled
  have hlen := h₁.length_assemble fun j hj => h.fits j (by simp [hj])
  have hoffset : i.offset = (assemble (before.map (·.toInstruction))).length := by
    have := h₂.1
    omega
  have hcode : f.code.toList = assemble (before.map (·.toInstruction)) ++ i.bytes ++
      assemble (after.map (·.toInstruction)) := by
    rw [h.code, List.map_append, List.map_cons, assemble_append, assemble_cons, List.append_assoc]
  rw [hoffset]
  exact Code.decode_of_toList (h.fits i hi) hcode

theorem decodeFrom_eq {code : Code} {start fuel : Nat} {js : List Item} (ht : Tiled start js code.size)
    (hd : ∀ j ∈ js, code.decode j.offset = .ok (j.toInstruction, j.offset + j.op.length))
    (hn : js.length ≤ fuel) :
    code.decodeFrom fuel start = js.map fun j => .ok (j.offset, j.toInstruction) := by
  induction js generalizing start fuel with
  | nil =>
    obtain rfl : start = code.size := ht
    cases fuel <;> simp [Code.decodeFrom]
  | cons j js ih =>
    cases fuel with
    | zero => simp at hn
    | succ fuel =>
      obtain ⟨rfl, hrest⟩ := ht
      have hlt : j.offset < code.size := by
        have := hrest.le
        have := j.op.length_pos
        omega
      have hih := ih hrest (fun k hk => hd k (by simp [hk])) (Nat.le_of_succ_le_succ hn)
      simp [Code.decodeFrom, hlt, hd j (by simp), hih]

theorem length_le_of_tiled {start stop : Nat} {js : List Item} (ht : Tiled start js stop) :
    start + js.length ≤ stop := by
  induction js generalizing start with
  | nil => exact Nat.le_of_eq ht
  | cons j js ih =>
    have := ih ht.2
    have := j.op.length_pos
    simp only [List.length_cons]
    omega

/-- The code decodes to the listing and to nothing else. -/
theorem instructions (h : Listed pool f is x final) :
    f.code.instructions = is.map fun i => .ok (i.offset, i.toInstruction) :=
  decodeFrom_eq h.flows.tiled (fun _ hi => h.decode hi)
    (by have := length_le_of_tiled h.flows.tiled; omega)

end Listed

end Whole

end StackScript
