-- SUMMARY: The control-flow graph of a program, its paths, and the static register analyses that are sound for them.
import Ebpfkit.Bpf.Layout
import Ebpfkit.Bpf.Rules
import Mathlib.Logic.Relation

/-!
# Control flow

The graph a static checker walks: an edge for every fall-through and every jump,
whatever the registers hold. Execution follows its edges (`step_edge`), so what
holds along every path holds along every run.
-/

namespace Bpf

/-- Addresses control may pass to from the instruction at `pc`. -/
def Instr.succs (pc : Nat) : Instr → List Int
  | .ldx .. | .mov .. | .add .. => [pc + 1]
  | .ja off => [pc + 1 + off]
  | .jcc _ _ _ off => [pc + 1, pc + 1 + off]
  | .exit | .unknown => []

/-- Registers read. Exiting reads the result register. -/
def Instr.reads : Instr → List Reg
  | .ldx _ _ src _ => [src]
  | .mov _ (.reg r) => [r]
  | .mov _ (.imm _) => []
  | .add dst (.reg r) => [dst, r]
  | .add dst (.imm _) => [dst]
  | .jcc _ dst (.reg r) _ => [dst, r]
  | .jcc _ dst (.imm _) _ => [dst]
  | .exit => [0]
  | .ja _ | .unknown => []

def Instr.writes : Instr → List Reg
  | .ldx _ dst _ _ | .mov dst _ | .add dst _ => [dst]
  | _ => []

/-- Control may pass from address `i` to address `j`. -/
def Edge (prog : Program) (i j : Nat) : Prop :=
  ∃ instr, prog[i]? = some instr ∧ (j : Int) ∈ instr.succs i

/-- Address `i` is connected to the entry of the program. -/
def Connected (prog : Program) (i : Nat) : Prop :=
  Relation.ReflTransGen (Edge prog) 0 i

/-- `Path prog visited i`: a path from the entry that has executed the addresses
    `visited`, the latest first, and now stands at `i`. -/
inductive Path (prog : Program) : List Nat → Nat → Prop where
  | entry : Path prog [] 0
  | extend {visited : List Nat} {i j : Nat} :
      Path prog visited i → Edge prog i j → Path prog (i :: visited) j

/-- Along every path each register is written before it is read, except for the
    registers `entry` that the caller sets up. -/
def Initialised (prog : Program) (entry : List Reg) : Prop :=
  ∀ visited i instr, Path prog visited i → prog[i]? = some instr →
    ∀ r ∈ instr.reads, r ∈ entry ∨
      ∃ j ∈ visited, ∃ earlier, prog[j]? = some earlier ∧ r ∈ earlier.writes

variable {prog : Program} {mem : Memory}

/-! ## Edges and connectedness -/

theorem Connected.entry : Connected prog 0 := .refl

theorem Connected.step {i j : Nat} {instr : Instr} (h : Connected prog i)
    (hi : prog[i]? = some instr) (hj : (j : Int) ∈ instr.succs i) : Connected prog j :=
  h.tail ⟨instr, hi, hj⟩

/-- Control goes on to the next instruction on some edge. -/
def Instr.fallsThrough : Instr → Bool
  | .ja _ | .exit | .unknown => false
  | _ => true

theorem Instr.fallsThrough_succs {instr : Instr} (h : instr.fallsThrough = true) (pc : Nat) :
    ((pc + 1 : Nat) : Int) ∈ instr.succs pc := by
  cases instr with
  | ldx | mov | add | jcc => simp [Instr.succs]
  | ja | exit | unknown => cases h

/-- Code without breaks is connected as a whole, and so is what follows it. -/
theorem Connected.straight {pc : Nat} {code : List Instr} (hcode : CodeAt prog pc code)
    (hfall : ∀ instr ∈ code, instr.fallsThrough = true) (h : Connected prog pc) {k : Nat}
    (hk : k ≤ code.length) : Connected prog (pc + k) := by
  induction code generalizing pc k with
  | nil =>
    rw [Nat.le_zero.mp hk]
    exact h
  | cons instr code ih =>
    cases k with
    | zero => exact h
    | succ k =>
      have hnext : Connected prog (pc + 1) :=
        h.step hcode.head (Instr.fallsThrough_succs (hfall instr List.mem_cons_self) pc)
      rw [Nat.add_comm k 1, ← Nat.add_assoc]
      refine ih hcode.tail (fun i hi => hfall i (List.mem_cons_of_mem _ hi)) hnext ?_
      rw [List.length_cons] at hk
      omega

theorem State.jump_running {s t : State} {off : Int} (h : s.jump off = .running t) :
    (t.pc : Int) = s.pc + 1 + off ∧ t.regs = s.regs := by
  unfold State.jump at h
  split at h
  · next hnonneg =>
    cases h
    exact ⟨Int.toNat_of_nonneg hnonneg, rfl⟩
  · cases h

/-- What one executed instruction can do: control follows one of its edges, and
    only the registers it writes change. -/
theorem Instr.exec_running {instr : Instr} {s t : State} (h : instr.exec mem s = .running t) :
    (t.pc : Int) ∈ instr.succs s.pc ∧ ∀ r, r ∉ instr.writes → t.regs r = s.regs r := by
  cases instr with
  | ldx size dst src off =>
    simp only [Instr.exec] at h
    split at h
    · cases h
      refine ⟨by simp [Instr.succs], fun r hr => ?_⟩
      exact Function.update_of_ne (by simpa [Instr.writes] using hr) _ _
    · cases h
  | mov dst src =>
    cases h
    refine ⟨by simp [Instr.succs], fun r hr => ?_⟩
    exact Function.update_of_ne (by simpa [Instr.writes] using hr) _ _
  | add dst src =>
    cases h
    refine ⟨by simp [Instr.succs], fun r hr => ?_⟩
    exact Function.update_of_ne (by simpa [Instr.writes] using hr) _ _
  | ja off =>
    obtain ⟨hpc, hregs⟩ := State.jump_running h
    exact ⟨by simp [Instr.succs, hpc], fun r _ => by rw [hregs]⟩
  | jcc cond dst src off =>
    simp only [Instr.exec] at h
    split at h
    · obtain ⟨hpc, hregs⟩ := State.jump_running h
      exact ⟨by simp [Instr.succs, hpc], fun r _ => by rw [hregs]⟩
    · cases h
      exact ⟨by simp [Instr.succs], fun r _ => rfl⟩
  | exit => cases h
  | unknown => cases h

theorem Instr.exec_exited {instr : Instr} {s t : State} (h : instr.exec mem s = .exited t) :
    instr = .exit ∧ t = s := by
  cases instr with
  | ldx size dst src off =>
    simp only [Instr.exec] at h
    split at h <;> cases h
  | mov dst src => cases h
  | add dst src => cases h
  | ja off =>
    simp only [Instr.exec, State.jump] at h
    split at h <;> cases h
  | jcc cond dst src off =>
    simp only [Instr.exec, State.jump] at h
    split at h
    · split at h <;> cases h
    · cases h
  | exit => cases h; exact ⟨rfl, rfl⟩
  | unknown => cases h

theorem step_running {s t : State} (h : step prog mem s = .running t) :
    ∃ instr, prog[s.pc]? = some instr ∧ instr.exec mem s = .running t := by
  unfold step at h
  split at h
  · next instr hi => exact ⟨instr, hi, h⟩
  · cases h

theorem step_exited {s t : State} (h : step prog mem s = .exited t) :
    prog[s.pc]? = some .exit ∧ t = s := by
  unfold step at h
  split at h
  · next instr hi =>
    obtain ⟨rfl, rfl⟩ := Instr.exec_exited h
    exact ⟨hi, rfl⟩
  · cases h

/-- Execution follows the edges of the graph. -/
theorem step_edge {s t : State} (h : step prog mem s = .running t) :
    Edge prog s.pc t.pc := by
  obtain ⟨instr, hi, hexec⟩ := step_running h
  exact ⟨instr, hi, (Instr.exec_running hexec).1⟩

/-! ## Register analyses -/

/-- A dataflow solution is sound for every path. `init i r` claims that `r` is
    initialised whenever control stands at `i`; a claim at the target of an edge
    must be a claim at its source or a write of the instruction there. -/
theorem Initialised.of_dataflow {entry : List Reg} (init : Nat → Reg → Prop)
    (hentry : ∀ r, init 0 r → r ∈ entry)
    (hedge : ∀ (i j : Nat) instr, prog[i]? = some instr → (j : Int) ∈ instr.succs i →
      ∀ r, init j r → init i r ∨ r ∈ instr.writes)
    (hread : ∀ i instr, prog[i]? = some instr → ∀ r ∈ instr.reads, init i r) :
    Initialised prog entry := by
  -- The claim at the head of a path is justified by the path walked so far.
  have hpath : ∀ visited i, Path prog visited i → ∀ r, init i r → r ∈ entry ∨
      ∃ j ∈ visited, ∃ earlier, prog[j]? = some earlier ∧ r ∈ earlier.writes := by
    intro visited i hp
    induction hp with
    | entry => exact fun r hr => .inl (hentry r hr)
    | @extend visited i j _ hij ih =>
      intro r hr
      obtain ⟨instr, hi, hsucc⟩ := hij
      rcases hedge i j instr hi hsucc r hr with hinit | hwrite
      · rcases ih r hinit with hmem | ⟨k, hk, earlier, hget, hw⟩
        · exact .inl hmem
        · exact .inr ⟨k, List.mem_cons_of_mem i hk, earlier, hget, hw⟩
      · exact .inr ⟨i, List.mem_cons_self, instr, hi, hwrite⟩
  intro visited i instr hp hi r hr
  exact hpath visited i hp r (hread i instr hi r hr)

/-- A register that is read after an edge is set up by the caller, or touched by
    the instruction before the edge. -/
def ReadsLocal (prog : Program) (entry : List Reg) (i : Nat) (instr : Instr) : Prop :=
  ∀ j : Nat, (j : Int) ∈ instr.succs i → ∀ next, prog[j]? = some next →
    ∀ r ∈ next.reads, r ∈ entry ∨ r ∈ instr.reads ∨ r ∈ instr.writes

/-- The instruction at `i`, if there is one, reads only what the caller sets up. -/
def Clean (prog : Program) (entry : List Reg) (i : Nat) : Prop :=
  ∀ instr, prog[i]? = some instr → ∀ r ∈ instr.reads, r ∈ entry

section Local

variable {entry : List Reg} {i : Nat} {instr : Instr}

theorem Clean.of_reads (hi : prog[i]? = some instr) (h : ∀ r ∈ instr.reads, r ∈ entry) :
    Clean prog entry i := by
  intro instr' hi'
  rw [hi, Option.some.injEq] at hi'
  rw [← hi']
  exact h

theorem ReadsLocal.clean (h : ∀ j : Nat, (j : Int) ∈ instr.succs i → Clean prog entry j) :
    ReadsLocal prog entry i instr :=
  fun j hj next hnext r hr => .inl (h j hj next hnext r hr)

/-- A conditional jump between two clean addresses. -/
theorem ReadsLocal.jcc {cond : Cond} {dst : Reg} {src : Src} {off : Int} {target : Nat}
    (ht : (i : Int) + 1 + off = target) (hnext : Clean prog entry (i + 1))
    (htarget : Clean prog entry target) : ReadsLocal prog entry i (.jcc cond dst src off) := by
  apply ReadsLocal.clean
  intro j hj
  simp only [Instr.succs, ht, List.mem_cons, List.not_mem_nil, or_false] at hj
  rcases hj with hj | hj
  · rw [show j = i + 1 by omega]
    exact hnext
  · rw [Int.ofNat_inj.mp hj]
    exact htarget

theorem ReadsLocal.ja {off : Int} {target : Nat} (ht : (i : Int) + 1 + off = target)
    (htarget : Clean prog entry target) : ReadsLocal prog entry i (.ja off) := by
  apply ReadsLocal.clean
  intro j hj
  simp only [Instr.succs, ht, List.mem_cons, List.not_mem_nil, or_false] at hj
  rw [Int.ofNat_inj.mp hj]
  exact htarget

/-- Straight-line code whose next instruction reads what this one touches. -/
theorem ReadsLocal.fall {next : Instr} (hsuccs : instr.succs i = [(i : Int) + 1])
    (hnext : prog[i + 1]? = some next)
    (h : ∀ r ∈ next.reads, r ∈ entry ∨ r ∈ instr.reads ∨ r ∈ instr.writes) :
    ReadsLocal prog entry i instr := by
  intro j hj next' hnext'
  rw [hsuccs, List.mem_singleton] at hj
  rw [show j = i + 1 by omega, hnext, Option.some.injEq] at hnext'
  rw [← hnext']
  exact h

end Local

/-- Checking each edge on its own is enough where no value travels further. -/
theorem Initialised.of_local {entry : List Reg}
    (hfirst : ∀ instr, prog[0]? = some instr → ∀ r ∈ instr.reads, r ∈ entry)
    (hlocal : EachAt (ReadsLocal prog entry) 0 prog) : Initialised prog entry := by
  refine .of_dataflow (fun i r => r ∈ entry ∨ ∃ instr, prog[i]? = some instr ∧ r ∈ instr.reads)
    ?_ ?_ ?_
  · rintro r (hr | ⟨instr, hi, hr⟩)
    · exact hr
    · exact hfirst instr hi r hr
  · rintro i j instr hi hj r (hr | ⟨next, hnext, hr⟩)
    · exact .inl (.inl hr)
    · have hreads := hlocal i instr hi j
      rw [Nat.zero_add] at hreads
      rcases hreads hj next hnext r hr with hentry | hread | hwrite
      · exact .inl (.inl hentry)
      · exact .inl (.inr ⟨instr, hi, hread⟩)
      · exact .inr hwrite
  · intro i instr hi r hr
    exact .inr ⟨instr, hi, hr⟩

/-- A register that no instruction writes keeps its value over every run. -/
theorem run_frame {r : Reg} (hframe : ∀ instr ∈ prog, r ∉ instr.writes) (n : Nat) (s t : State)
    (h : run prog mem n s = .running t ∨ run prog mem n s = .exited t) :
    t.regs r = s.regs r := by
  induction n generalizing s with
  | zero =>
    rcases h with h | h
    · cases h; rfl
    · cases h
  | succ n ih =>
    cases hs : step prog mem s with
    | running s' =>
      rw [run_succ_running hs] at h
      obtain ⟨instr, hi, hexec⟩ := step_running hs
      have hkeep := (Instr.exec_running hexec).2 r (hframe instr (List.mem_of_getElem? hi))
      rw [ih s' h, hkeep]
    | exited s' =>
      simp only [run, hs, reduceCtorEq, false_or] at h
      cases h
      rw [(step_exited hs).2]
    | stuck => simp [run, hs] at h

end Bpf
