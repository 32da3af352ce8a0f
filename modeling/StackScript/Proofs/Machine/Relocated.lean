import StackScript.Proofs.Compile.Relocation
import StackScript.Proofs.Compile.WellFormed
import StackScript.Proofs.Machine.Bounds
import StackScript.Proofs.Machine.Inversion
import StackScript.Proofs.Machine.Margin

/-! # A program inside another one

Where the code of a program stands in that of a larger one, the larger one does there what the program
does by itself. Neither the offset nor what is left above the top of the stack makes a difference.
-/

namespace StackScript

theorem Stack.sameLive_iff {s s' : Stack} :
    s.SameLive s' ↔ s'.capacity = s.capacity ∧ s'.live = s.live := by
  have hle := s.sp_le
  have hle' := s'.sp_le
  constructor
  · rintro ⟨hsp, hsize, hlive⟩
    refine ⟨hsize, List.ext_getElem? fun i => ?_⟩
    simp only [Stack.live, Array.getElem?_toList, Array.getElem?_extract, hsp, hsize]
    split
    · simpa using hlive i (by omega)
    · rfl
  · rintro ⟨hsize, hlive⟩
    have hlength := congrArg List.length hlive
    simp only [Stack.live, Array.length_toList, Array.size_extract] at hlength
    refine ⟨by omega, hsize, fun i hi => ?_⟩
    have hget := congrArg (·[i]?) hlive
    simp only [Stack.live, Array.getElem?_toList, Array.getElem?_extract] at hget
    rw [if_pos (by omega), if_pos (by omega)] at hget
    simpa using hget

theorem Stack.SameLive.holds {s s' : Stack} {n : Nat} {l : List Value} (h : s.SameLive s')
    (hs : s.Holds n l) : s'.Holds n l := by
  obtain ⟨hcapacity, hlive⟩ := Stack.sameLive_iff.mp h
  exact ⟨hlive.trans hs.live, hcapacity.trans hs.capacity⟩

theorem Stack.Holds.sameLive {s s' : Stack} {n : Nat} {l : List Value} (h : s.Holds n l)
    (h' : s'.Holds n l) : s.SameLive s' :=
  Stack.sameLive_iff.mpr ⟨h'.capacity.trans h.capacity.symm, h'.live.trans h.live.symm⟩

/-- The calls with another top level, of which the code is `d` bytes further on. -/
def relocate (main : Function) (d : Nat) : List Frame → List Frame
  | [] => []
  | [f] => [{ f with body := main, ip := f.ip + d }]
  | f :: g :: fs => f :: relocate main d (g :: fs)

/-- The top level runs as a part of `main`, behind what has run before. -/
def Margin.inside (main : Function) (d : Nat) (constants : Array Value) (executed : Nat)
    (printed : String) : Margin where
  stack := Stack.SameLive
  constants := constants
  executed := executed
  printed := printed
  calls := relocate main d

/-- The listing stands in the code `d` bytes further on. -/
def Code.Includes (code : Code) (d : Nat) (is : List Item) : Prop :=
  ∀ i ∈ is, i.offset + d < code.size ∧
    code.decode (i.offset + d) = .ok ((i.shift d).toInstruction, i.offset + i.op.length + d)

/-- No `return` of the top level runs. -/
def Machine.NeverReturns (m₀ : Machine) : Prop :=
  ∀ m f i, m₀.Steps m → m.frames = [f] → f.body.code.Has f.ip i → i.op ≠ .ret ∧ i.op ≠ .retValue

variable {main : Function} {d executed : Nat} {constants : Array Value} {printed : String}
  {m m' : Machine} {w : World} {f : Frame} {is : List Item} {x : Extent} {final : Nat}

theorem Margin.inside_alike : (Margin.inside main d constants executed printed).Alike where
  stack := Stacking.respects_sameLive _
  nil := rfl
  head f fs := by
    cases fs with
    | nil => exact ⟨_, rfl, rfl, rfl⟩
    | cons g fs => exact ⟨f, rfl, rfl, rfl⟩
  enter _ _ _ := rfl

namespace Exec

theorem execute_inside {i : Item} (hfits : i.Fits) (hop : i.op ≠ .currentClosure)
    (hf : m.frames = [f]) :
    (Margin.inside main d constants executed printed).Tracks
      (execute i.op (i.operands[0]?.getD 0) (i.operands[1]?.getD 0))
      (execute (i.shift d).op ((i.shift d).operands[0]?.getD 0) ((i.shift d).operands[1]?.getD 0))
      m := by
  by_cases hjump : i.op.isJump = true
  · obtain ⟨t, ht⟩ := List.length_eq_one_iff.mp
      (hfits.1.trans (Opcode.operandCount_of_isJump hjump))
    have ht' : (i.shift d).operands = [t + d] := by simp [Item.shift, hjump, ht]
    rw [ht, ht', show (i.shift d).op = i.op from rfl]
    rcases Opcode.isJump_iff.mp hjump with ho | ho <;> rw [ho]
    · exact setIp_tracks (a := t) (b := t + d) hf rfl rfl
    · exact jumpIfFalse_tracks (a := t) (b := t + d) Margin.inside_alike hf rfl rfl _ _
  · have hsame : (i.shift d).operands = i.operands := if_neg hjump
    rw [hsame]
    refine execute_tracks Margin.inside_alike (by simp [hf]) ⟨?_, ?_, hop⟩ _ _
    · exact fun ho => hjump (Opcode.isJump_iff.mpr (.inl ho))
    · exact fun ho => hjump (Opcode.isJump_iff.mpr (.inr ho))

/-- The top level of a program takes the same step inside of another program. -/
theorem step_inside {i : Item} (hf : m.frames = [f]) (hfree : m.limits.budget = none)
    (hlisted : Listed w.pool f.body is x final) (hx : x.inFunction = false)
    (hcode : main.code.Includes d is) (hi : i ∈ is) (ho : i.offset = f.ip) :
    (Margin.inside main d constants executed printed).Tracks step step m := by
  have hdecode := hlisted.decode hi
  obtain ⟨hlt, hdecode'⟩ := hcode i hi
  have hself : i.op ≠ .currentClosure := by
    intro hop
    have hsound := hlisted.sound i hi
    simp [Item.Sound, hop, hx] at hsound
  have hip : ¬ f.body.code.size ≤ f.ip := by
    have := (hlisted.flows.tiled.bounds hi).2
    have := i.op.length_pos
    omega
  rw [ho] at hdecode hlt hdecode'
  refine .congr_of (step_eq hf) fun n hn => ?_
  have hg : n.frames = [{ f with body := main, ip := f.ip + d }] := by rw [hn.frames, hf]; rfl
  have hfree' : n.limits.budget = none := by
    obtain ⟨_, -, rfl⟩ := hn
    exact hfree
  refine ⟨_, step_eq hg, ?_⟩
  simp only [hip, Nat.not_le.mpr hlt, if_false, hfree, hfree']
  unfold fetch
  refine count_tracks.bind fun _ m₁ hm₁ => ?_
  have hf₁ : m₁.frames = [f] := congrArg (·.2.frames) hm₁ ▸ hf
  simp only [hdecode, hdecode']
  refine (setIp_tracks hf₁ rfl rfl).bind fun _ m₂ hm₂ => ?_
  have hf₂ : m₂.frames = [{ f with ip := f.ip + i.op.length }] := by
    rw [(setIp_gives hf₁ _).of_ok hm₂]
  exact execute_inside (hlisted.fits i hi) hself hf₂

end Exec

namespace Machine

theorem Within.steps {l : Limits} (h : m.Within l) (hsteps : m.Steps m') : m'.Within l :=
  hsteps.invariant (I := (·.Within l)) h fun m _ hm _ hstep => (Exec.step_keeps m hm).of_ok hstep

/-- Once there is no call, there is none again. -/
theorem steady_ended : Steady (·.frames = []) where
  stack _ hm := hm
  globals _ hm := hm
  stamp _ hm := hm
  output _ hm := hm
  jump _ hf hm := absurd (hf.symm.trans hm) (List.cons_ne_nil _ _)
  leave hm := by simp [hm]

theorem Steps.of_ended (h : m.Steps m') (hf : m.frames = []) : m' = m := by
  cases h with
  | refl => rfl
  | step hne => exact absurd hf hne

/-- A program that ends is left at its end or by a `return`. -/
theorem Sound.ends (hs : m.Sound w) (hf : m.frames ≠ []) (hstep : Exec.step m = (.ok (), m'))
    (hf' : m'.frames = []) : ∃ f, m.frames = [f] ∧
      (f.ip = f.body.code.size ∨ ∃ i, f.body.code.Has f.ip i ∧ (i.op = .ret ∨ i.op = .retValue)) := by
  cases (hs.takes hf).of_ok hstep with
  | computes h _ _ _ hbecomes =>
    obtain ⟨s, -, rfl⟩ := hbecomes
    cases hf'
  | jumps h _ _ hmoves =>
    obtain ⟨s, -, rfl⟩ := hmoves
    cases hf'
  | calls h _ _ _ hstate =>
    subst hstate
    cases hf'
  | returns _ _ _ _ hstate =>
    subst hstate
    cases hf'
  | @ends f _ _ _ hframes hyields _ _ =>
    refine ⟨f, hframes, ?_⟩
    rcases hyields with ⟨hip, -⟩ | ⟨i, next, hdecode, hop⟩
    · exact .inl hip
    · rcases hs.faces hframes with ⟨x, j, l, args, h⟩ | ⟨hip, -⟩
      · obtain ⟨is, final, hruns, hj⟩ := h.runs
        obtain rfl : j.toInstruction = i :=
          congrArg Prod.fst (Except.ok.inj (h.decode.symm.trans hdecode))
        exact .inr ⟨_, hruns.listed.has_iff.mpr ⟨j, hj, h.offset, rfl⟩,
          hop.imp And.left And.left⟩
      · exact .inl hip

/-- A program that is not left by a `return` gets to its end; and inside of another program, to the
end of its part. -/
theorem Steps.inside {body : Function} {n : Machine} {l : Limits} (hsteps : m.Steps m')
    (hend : m'.frames = []) (hne : m.frames ≠ []) (hs : m.Sound w)
    (hmain : ∀ stamp g free, w.known stamp g free ↔ (stamp = mainStamp → g = body ∧ free = []))
    (hwithin : m.Within l) (hfree : l.budget = none) (hquiet : m.NeverReturns)
    (hlisted : Listed w.pool body is x final) (hx : x.inFunction = false)
    (hcode : main.code.Includes d is)
    (hbeside : m.Beside (.inside main d constants executed printed) n) :
    ∃ m₁ n₁, m.Steps m₁ ∧ n.Steps n₁ ∧
      m₁.Beside (.inside main d constants executed printed) n₁ ∧
      m₁.frames = [⟨mainStamp, body, [], body.code.size, 0⟩] ∧ Exec.step m₁ = (.ok (), m') := by
  induction hsteps generalizing n with
  | refl => exact absurd hend hne
  | @step m m₁ m' _ hstep hrest ih =>
    obtain ⟨f, fs, hf⟩ := List.exists_cons_of_ne_nil hne
    have hbottom : fs = [] → f.stamp = mainStamp ∧ f.body = body ∧ f.free = [] ∧ f.base = 0 := by
      rintro rfl
      obtain ⟨hbase, hstamp, hknown, -⟩ := (hs.frames f [] hf).2
      obtain ⟨hbody, hcaptured⟩ := (hmain _ _ _).mp hknown hstamp
      exact ⟨hstamp, hbody, hcaptured, hbase⟩
    by_cases hend₁ : m₁.frames = []
    · obtain ⟨g, hg, hends⟩ := hs.ends hne hstep hend₁
      obtain ⟨rfl, rfl⟩ := List.cons.inj (hf.symm.trans hg)
      have hip := hends.resolve_right fun ⟨i, hi, hop⟩ =>
        hop.elim (hquiet m f i .refl hg hi).1 (hquiet m f i .refl hg hi).2
      obtain rfl := hrest.of_ended hend₁
      obtain ⟨stamp, g, free, ip, base⟩ := f
      obtain ⟨rfl, rfl, rfl, rfl⟩ := hbottom rfl
      exact ⟨m, n, .refl, .refl, hbeside, by rw [hf, show ip = _ from hip], hstep⟩
    · have hbudget : m.limits.budget = none := by rw [hwithin.limits, hfree]
      have htracks : (Margin.inside main d constants executed printed).Tracks Exec.step Exec.step
          m := by
        cases fs with
        | cons g fs =>
          exact Exec.step_tracks Margin.inside_alike hf (fun _ => rfl) rfl (.inl hbudget)
        | nil =>
          obtain ⟨-, hbody, -, -⟩ := hbottom rfl
          have hlisted' := hbody ▸ hlisted
          obtain ⟨height, loaded, -, ⟨i, hi, ho, -⟩ | ⟨hip, -⟩, -⟩ :=
            (hs.frames f [] hf).1 is x final hlisted'
          · exact Exec.step_inside hf hbudget hlisted' hx hcode hi ho
          · have hleft := Exec.step_end hf hip (Exec.leave_lands steady_ended.settled hf rfl none)
            exact absurd (hleft.of_ok hstep) hend₁
      have hstep' := htracks n hbeside
      rw [hstep] at hstep'
      obtain ⟨n₁, hn, hbeside₁⟩ := hstep'
      have hne' : n.frames ≠ [] := by
        rw [hbeside.frames, ← List.length_pos_iff, Margin.inside_alike.length, hf]
        simp
      obtain ⟨hs₁, -, -⟩ := (hs.step hne fun g free => (hmain _ _ _).mpr fun h =>
        absurd hs.stamps (by rw [h]; decide)).of_ok hstep
      obtain ⟨m₂, n₂, hm₂, hn₂, hrest⟩ := ih hend hend₁ hs₁
        ((Exec.step_keeps m hwithin).of_ok hstep)
        (fun m' f i h => hquiet m' f i (.step hne hstep h)) hbeside₁
      exact ⟨m₂, n₂, .step hne hstep hm₂, .step hne' hn hn₂, hrest⟩

end Machine

end StackScript
