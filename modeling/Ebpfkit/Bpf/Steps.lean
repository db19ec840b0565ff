-- SUMMARY: How many steps a program takes: rankings that every step lowers, and programs whose jumps all go forward.
import Ebpfkit.Bpf.ControlFlow

/-!
# Step counts

A ranking is a number for every state that every step lowers, as long as an
invariant holds. It bounds the steps that a run can take. Where execution only
moves forward, the distance to the end of the program is one.
-/

namespace Bpf

variable {prog : Program} {mem : Memory} {s t : State}

/-- After this many steps at most, the program does not run any more. -/
def HaltsWithin (prog : Program) (mem : Memory) (s : State) (bound : Nat) : Prop :=
  ∃ n ≤ bound, ∀ t, run prog mem n s ≠ .running t

structure Ranking (prog : Program) (mem : Memory) (Inv : State → Prop) (rank : State → Nat) :
    Prop where
  kept : ∀ s t, Inv s → step prog mem s = .running t → Inv t
  lowered : ∀ s t, Inv s → step prog mem s = .running t → rank t < rank s

theorem Ranking.halts {Inv : State → Prop} {rank : State → Nat} (h : Ranking prog mem Inv rank)
    (hs : Inv s) : HaltsWithin prog mem s (rank s + 1) := by
  induction hrank : rank s using Nat.strongRecOn generalizing s with
  | ind r ih =>
    cases hstep : step prog mem s with
    | running t =>
      have hlt := h.lowered s t hs hstep
      rw [hrank] at hlt
      obtain ⟨n, hn, hhalted⟩ := ih (rank t) hlt (h.kept s t hs hstep) rfl
      refine ⟨n + 1, by omega, ?_⟩
      rw [run_succ_running hstep]
      exact hhalted
    | exited t => exact ⟨1, by omega, by simp [run, hstep]⟩
    | stuck => exact ⟨1, by omega, by simp [run, hstep]⟩

/-- A program exits at one state only. -/
theorem run_exited_unique {t' : State} {m n : Nat} (h : run prog mem m s = .exited t)
    (h' : run prog mem n s = .exited t') : t = t' := by
  induction m generalizing n s with
  | zero => cases h
  | succ m ih =>
    cases n with
    | zero => cases h'
    | succ n =>
      cases hstep : step prog mem s with
      | running u =>
        rw [run_succ_running hstep] at h h'
        exact ih h h'
      | exited u =>
        simp only [run, hstep, Status.exited.injEq] at h h'
        rw [← h, ← h']
      | stuck => simp [run, hstep] at h

/-- A program that exits does so when it halts. -/
theorem Exits.within {Q : Regs → Prop} {bound : Nat} (h : Exits prog mem s Q)
    (hhalts : HaltsWithin prog mem s bound) :
    ∃ n ≤ bound, ∃ t, run prog mem n s = .exited t ∧ Q t.regs := by
  obtain ⟨n, hn, hhalted⟩ := hhalts
  have hnot := h.not_stuck n
  cases hrun : run prog mem n s with
  | running t => exact absurd hrun (hhalted t)
  | stuck => exact absurd hrun hnot
  | exited t =>
    obtain ⟨m, t', hrun', hQ⟩ := h
    rw [run_exited_unique hrun' hrun] at hQ
    exact ⟨n, hn, t, hrun, hQ⟩

/-- Control moves forward, and stays inside the program. -/
def Forward (prog : Program) : Prop :=
  ∀ i j, Edge prog i j → i < j ∧ j < prog.length

theorem Forward.halts (h : Forward prog) (hs : s.pc < prog.length) :
    HaltsWithin prog mem s (prog.length - s.pc) := by
  have hranking : Ranking prog mem (fun s => s.pc < prog.length)
      (fun s => prog.length - 1 - s.pc) := by
    constructor
    · intro s t _ hstep
      exact (h s.pc t.pc (step_edge hstep)).2
    · intro s t hs hstep
      obtain ⟨hlt, hinside⟩ := h s.pc t.pc (step_edge hstep)
      omega
  have hhalts := hranking.halts hs
  rw [show prog.length - 1 - s.pc + 1 = prog.length - s.pc by omega] at hhalts
  exact hhalts

/-! ## Where one step leads -/

section Inversion

variable {pc : Nat} {regs : Regs}

theorem eq_of_step_mov {dst : Reg} {src : Src} (h : prog[pc]? = some (.mov dst src))
    (hstep : step prog mem ⟨pc, regs⟩ = .running t) :
    t = ⟨pc + 1, Function.update regs dst (src.eval regs)⟩ := by
  rw [step_at h] at hstep
  cases hstep
  rfl

theorem eq_of_step_add {dst : Reg} {src : Src} (h : prog[pc]? = some (.add dst src))
    (hstep : step prog mem ⟨pc, regs⟩ = .running t) :
    t = ⟨pc + 1, Function.update regs dst (regs dst + src.eval regs)⟩ := by
  rw [step_at h] at hstep
  cases hstep
  rfl

theorem eq_of_step_ldx {size : Size} {dst src : Reg} {off : Int} {v : Word}
    (h : prog[pc]? = some (.ldx size dst src off))
    (hv : mem.load size (regs src + BitVec.ofInt 64 off) = some v)
    (hstep : step prog mem ⟨pc, regs⟩ = .running t) :
    t = ⟨pc + 1, Function.update regs dst v⟩ := by
  rw [step_at h, Instr.exec, hv] at hstep
  cases hstep
  rfl

theorem eq_of_step_ja {off : Int} {target : Nat} (h : prog[pc]? = some (.ja off))
    (ht : (pc : Int) + 1 + off = target) (hstep : step prog mem ⟨pc, regs⟩ = .running t) :
    t = ⟨target, regs⟩ := by
  rw [step_at h, Instr.exec, State.jump_to ht] at hstep
  cases hstep
  rfl

theorem eq_of_step_jcc {cond : Cond} {dst : Reg} {src : Src} {off : Int} {target : Nat}
    (h : prog[pc]? = some (.jcc cond dst src off)) (ht : (pc : Int) + 1 + off = target)
    (hstep : step prog mem ⟨pc, regs⟩ = .running t) :
    (cond.holds (regs dst) (src.eval regs) = true ∧ t = ⟨target, regs⟩) ∨
      (cond.holds (regs dst) (src.eval regs) = false ∧ t = ⟨pc + 1, regs⟩) := by
  rw [step_at h, Instr.exec] at hstep
  cases hcond : cond.holds (regs dst) (src.eval regs) with
  | true =>
    simp only [hcond, if_true, State.jump_to ht, Status.running.injEq] at hstep
    exact .inl ⟨rfl, hstep.symm⟩
  | false =>
    simp only [hcond, Bool.false_eq_true, if_false, State.next, Status.running.injEq] at hstep
    exact .inr ⟨rfl, hstep.symm⟩

end Inversion

end Bpf
