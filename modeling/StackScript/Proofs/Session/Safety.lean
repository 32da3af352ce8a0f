import StackScript.Proofs.Session.Entries

/-! # Compiled code never goes wrong

In every state of every entry of a session, each call is at an instruction, and the number of operands
of the innermost one depends on its body and its position only. So no run ends with a fault that shows a
defect of the code, and one that ends leaves nothing on the stack.
-/

namespace StackScript

/-- A call is at an instruction of its code or at the end. -/
def Frame.AtBoundary (f : Frame) : Prop :=
  f.ip = f.body.code.size ∨ ∃ i, f.body.code.Has f.ip i

/-- What holds of a run of compiled code that names `globals` globals. -/
structure Machine.Disciplined (m : Machine) (globals : Nat) : Prop where
  boundaries : ∀ m', m.Steps m' → ∀ f ∈ m'.frames, f.AtBoundary
  /-- One number of operands belongs to each position in each body. -/
  heights : ∃ height : Function → Nat → Nat, ∀ m' f fs, m.Steps m' → m'.frames = f :: fs →
    m'.stack.sp = f.base + f.body.locals + height f.body f.ip
  faults : ∀ fuel e m', m.runFor fuel = (.failed e, m') → e.fault.isDefect = false ∧
    ∀ index capacity, e.fault = .globalOutOfRange index capacity → m.limits.globals < globals
  ends : ∀ fuel m', m.runFor fuel = (.done, m') → m'.frames = [] ∧ m'.stack.sp = 0

section Heights

variable {pool : Array Value} {f : Frame} {fs : List Frame} {is : List Item} {x : Extent}
  {final sp : Nat} {Ok : List Place → Prop}

/-- The number of operands that a listing has at a position. -/
def heightAt (is : List Item) (final ip : Nat) : Nat :=
  ((is.find? (·.offset == ip)).map (·.height)).getD final

theorem Tiled.eq_of_offset {start stop : Nat} {i j : Item} (h : Tiled start is stop) (hi : i ∈ is)
    (hj : j ∈ is) (ho : i.offset = j.offset) : i = j := by
  obtain ⟨before, after, rfl⟩ := List.append_of_mem hi
  rcases List.mem_append.mp hj with hj | hj
  · exact absurd ho.symm (h.offset_ne (.inl hj))
  · rcases List.mem_cons.mp hj with rfl | hj
    · rfl
    · exact absurd ho.symm (h.offset_ne (.inr hj))

theorem Listed.heightAt_eq {height : Nat} {loaded : List Place}
    (hl : Listed pool f.body is x final)
    (h : Stands is f.body.code.size final f.ip height loaded) : heightAt is final f.ip = height := by
  unfold heightAt
  cases hfind : is.find? (·.offset == f.ip) with
  | none =>
    rcases h with ⟨i, hi, ho, -⟩ | ⟨-, rfl, -⟩
    · exact absurd (beq_iff_eq.mpr ho) (List.find?_eq_none.mp hfind i hi)
    · rfl
  | some j =>
    have hj := List.mem_of_find?_eq_some hfind
    have hoffset : j.offset = f.ip := by simpa using List.find?_some hfind
    rcases h with ⟨i, hi, ho, rfl, -⟩ | ⟨hip, -⟩
    · rw [hl.flows.tiled.eq_of_offset hi hj (ho.trans hoffset.symm)]
      rfl
    · have := (hl.flows.tiled.bounds hj).2
      have := j.op.length_pos
      omega

/-- Positions determine the number of operands. -/
theorem exists_heights (pool : Array Value) : ∃ height : Function → Nat → Nat,
    ∀ (f : Frame) (sp : Nat) (Ok : List Place → Prop), (∃ is x final, Listed pool f.body is x final) →
      f.At pool sp Ok → sp = f.base + f.body.locals + height f.body f.ip := by
  have hbody (body : Function) : ∃ height : Nat → Nat, ∀ (f : Frame) (sp : Nat)
      (Ok : List Place → Prop), f.body = body → (∃ is x final, Listed pool f.body is x final) →
        f.At pool sp Ok → sp = f.base + f.body.locals + height f.ip := by
    by_cases hl : ∃ is x final, Listed pool body is x final
    · obtain ⟨is, x, final, hl⟩ := hl
      refine ⟨heightAt is final, ?_⟩
      rintro f sp Ok rfl - hat
      obtain ⟨height, loaded, hsp, hstands, -⟩ := hat is x final hl
      rw [hl.heightAt_eq hstands]
      exact hsp
    · exact ⟨fun _ => 0, fun f sp Ok hf hl' => absurd (hf ▸ hl') hl⟩
  obtain ⟨height, hheight⟩ := Classical.axiomOfChoice hbody
  exact ⟨height, fun f sp Ok => hheight f.body f sp Ok rfl⟩

theorem Frame.At.boundary (h : f.At pool sp Ok) (hl : Listed pool f.body is x final) :
    f.AtBoundary := by
  obtain ⟨height, loaded, -, ⟨i, hi, ho, -⟩ | ⟨hip, -⟩, -⟩ := h is x final hl
  · exact .inr ⟨i.toInstruction, hl.has_iff.mpr ⟨i, hi, ho, rfl⟩⟩
  · exact .inl hip

theorem Framed.boundaries {w : World} {next : Nat} (h : Framed w next f fs) (hat : f.At w.pool sp Ok) :
    ∀ g ∈ f :: fs, g.AtBoundary := by
  induction fs generalizing f sp Ok with
  | nil =>
    obtain ⟨-, -, -, is, x, final, hruns, -⟩ := h
    intro g hg
    exact List.mem_singleton.mp hg ▸ hat.boundary hruns.listed
  | cons f' fs ih =>
    obtain ⟨-, ⟨is, x, hruns, -⟩, hat', hrest⟩ := h
    intro g hg
    rcases List.mem_cons.mp hg with rfl | hg
    · exact hat.boundary hruns.listed
    · exact ih hrest hat' g hg

end Heights

/-- A run that starts with the discipline keeps it. -/
theorem Machine.Sound.keeps_discipline {m : Machine} {w : World} (hs : m.Sound w)
    (hw : ∀ stamp body free, w.known stamp body free) (hsize : m.globals.size = m.limits.globals) :
    m.Disciplined w.globals := by
  have hsteps {m' : Machine} (h : m.Steps m') : m.Keeps w m' := hs.steps h fun stamp _ => hw stamp
  constructor
  case boundaries =>
    intro m' h f hf
    obtain ⟨g, gs, hg⟩ := List.exists_cons_of_ne_nil (List.ne_nil_of_mem hf)
    obtain ⟨hat, hframed⟩ := (hsteps h).1.frames g gs hg
    exact hframed.boundaries hat f (hg ▸ hf)
  case heights =>
    obtain ⟨height, hheight⟩ := exists_heights w.pool
    refine ⟨height, fun m' f fs h hf => ?_⟩
    obtain ⟨hat, hframed⟩ := (hsteps h).1.frames f fs hf
    obtain ⟨is, x, final, hruns⟩ := hframed.runs
    rw [← Stack.length_live]
    exact hheight f _ _ ⟨is, x, final, hruns.listed⟩ hat
  case faults =>
    intro fuel e m' hrun
    have hcases := m.runFor_cases fuel
    rw [hrun] at hcases
    obtain ⟨m₁, h, hf, hstep, -⟩ := hcases
    obtain ⟨hs₁, hsize₁, -⟩ := hsteps h
    obtain ⟨hproper, -⟩ := (hs₁.step hf (hw _)).of_error hstep
    refine ⟨hproper.sound, fun index capacity he => ?_⟩
    rw [← hsize, ← hsize₁]
    exact hproper.globals (by rw [he]; rfl)
  case ends =>
    intro fuel m' hrun
    have hcases := m.runFor_cases fuel
    rw [hrun] at hcases
    obtain ⟨h, hf⟩ := hcases
    refine ⟨hf, ?_⟩
    rw [← Stack.length_live, (hsteps h).1.ended hf]
    rfl

/-- Whatever a session has evaluated before, and whatever limits a program runs under, compiled code
keeps the stack discipline. -/
theorem Session.Reachable.disciplined {s : Session} (hs : s.Reachable) {program : Program}
    {name : String} {o : Object} {limits : Limits} {m : Machine}
    (h : s.Begins program name o limits m) :
    m.Disciplined (s.compiler.compile program name).2.scopes.globals := by
  obtain ⟨v, hsound⟩ := hs.sound
  obtain ⟨hm, hsize, -⟩ := hsound.begins h (fun _ _ _ => True) trivial fun _ _ _ _ => trivial
  refine hm.keeps_discipline (fun _ _ _ => trivial) ?_
  obtain ⟨p, -, hstart⟩ := h.started
  obtain ⟨-, -, rfl⟩ := Machine.start_eq hstart
  exact hsize

/-- A function with a local, a global that a loop writes to, and an exit from the loop with an operand on
the stack. -/
theorem Session.disciplined_exit_and_call :
    let limits : Limits := ⟨16, 4, 4, none⟩
    let s : Session := { limits := limits }
    let source := "let n = 0; let square = fn(x) \x7b let y = x * x; y \x7d;
      while (true) \x7b
        n = n + 1; let pair = [n, if (n < 3) \x7b square(n) \x7d else \x7b break; \x7d];
      \x7d
      square(n)"
    ∃ program o m, s.opens? source limits = some (program, o, m) ∧
      (m.runFor 150).1 = .done ∧ (m.runFor 150).2.lastPopped.display = "9" ∧
      m.Disciplined (s.compiler.compile program unitName).2.scopes.globals := by
  intro limits s source
  have hrun : (s.opens? source limits).any (fun (_, _, m) =>
      (m.runFor 150).1 = .done ∧ (m.runFor 150).2.lastPopped.display = "9") = true := by
    decide +kernel
  obtain ⟨⟨program, o, m⟩, hopens, hends⟩ := (Option.any_eq_true ..).mp hrun
  obtain ⟨hdone, hvalue⟩ := of_decide_eq_true hends
  exact ⟨program, o, m, hopens, hdone, hvalue,
    (Session.Reachable.start limits).disciplined (Session.begins_of_opens? hopens).2⟩

end StackScript
