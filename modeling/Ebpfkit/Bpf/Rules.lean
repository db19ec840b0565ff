-- SUMMARY: Code sequences inside a program, and one total-correctness rule for each instruction.
import Ebpfkit.Bpf.Machine

/-!
# Rules for reasoning about programs

`CodeAt prog pc code` says that `code` stands in `prog` from address `pc` on.
Splitting it along the shape of `code` hands each rule below the instruction it
needs, so a proof follows the text of the program and never unfolds `step`.
-/

namespace Bpf

/-! ## Code sequences -/

/-- The sequence `code` occupies the addresses from `pc` on. -/
def CodeAt {α : Type} (prog : List α) (pc : Nat) (code : List α) : Prop :=
  ∀ k, k < code.length → prog[pc + k]? = code[k]?

namespace CodeAt

variable {α : Type} {prog code a b : List α} {pc : Nat} {i : α}

theorem refl (prog : List α) : CodeAt prog 0 prog := by
  intro k _
  rw [Nat.zero_add]

theorem head (h : CodeAt prog pc (i :: code)) : prog[pc]? = some i := by
  simpa using h 0 (by simp)

theorem tail (h : CodeAt prog pc (i :: code)) : CodeAt prog (pc + 1) code := by
  intro k hk
  have := h (k + 1) (by simp; omega)
  rw [show pc + 1 + k = pc + (k + 1) by omega, this, List.getElem?_cons_succ]

theorem left (h : CodeAt prog pc (a ++ b)) : CodeAt prog pc a := by
  intro k hk
  rw [h k (by rw [List.length_append]; omega), List.getElem?_append_left hk]

theorem right (h : CodeAt prog pc (a ++ b)) : CodeAt prog (pc + a.length) b := by
  intro k hk
  have := h (a.length + k) (by rw [List.length_append]; omega)
  rw [Nat.add_assoc, this, List.getElem?_append_right (by omega), Nat.add_sub_cancel_left]

end CodeAt

/-! ## Instruction rules -/

section Rules

variable {prog : Program} {mem : Memory} {pc : Nat} {regs : Regs} {Q : Regs → Prop}

theorem step_at {i : Instr} (h : prog[pc]? = some i) :
    step prog mem ⟨pc, regs⟩ = i.exec mem ⟨pc, regs⟩ := by
  simp only [step, h]

theorem State.jump_to {off : Int} {target : Nat} (ht : (pc : Int) + 1 + off = target) :
    State.jump ⟨pc, regs⟩ off = .running ⟨target, regs⟩ := by
  simp only [State.jump, ht]
  rw [if_pos (Int.natCast_nonneg target), Int.toNat_natCast]

theorem Exits.exit (h : prog[pc]? = some .exit) (hQ : Q regs) :
    Exits prog mem ⟨pc, regs⟩ Q := by
  refine ⟨1, ⟨pc, regs⟩, ?_, hQ⟩
  simp only [run, step_at h, Instr.exec]

theorem Exits.mov {dst : Reg} {src : Src} (h : prog[pc]? = some (.mov dst src))
    (k : Exits prog mem ⟨pc + 1, Function.update regs dst (src.eval regs)⟩ Q) :
    Exits prog mem ⟨pc, regs⟩ Q :=
  .of_step (step_at h) k

theorem Exits.add {dst : Reg} {src : Src} (h : prog[pc]? = some (.add dst src))
    (k : Exits prog mem ⟨pc + 1, Function.update regs dst (regs dst + src.eval regs)⟩ Q) :
    Exits prog mem ⟨pc, regs⟩ Q :=
  .of_step (step_at h) k

/-- A load needs an answer from the memory. -/
theorem Exits.ldx {size : Size} {dst src : Reg} {off : Int} {v : Word}
    (h : prog[pc]? = some (.ldx size dst src off))
    (hv : mem.load size (regs src + BitVec.ofInt 64 off) = some v)
    (k : Exits prog mem ⟨pc + 1, Function.update regs dst v⟩ Q) :
    Exits prog mem ⟨pc, regs⟩ Q := by
  refine .of_step ((step_at h).trans ?_) k
  simp only [Instr.exec, hv, State.next]

theorem Exits.ja {off : Int} {target : Nat} (h : prog[pc]? = some (.ja off))
    (ht : (pc : Int) + 1 + off = target) (k : Exits prog mem ⟨target, regs⟩ Q) :
    Exits prog mem ⟨pc, regs⟩ Q :=
  .of_step ((step_at h).trans (State.jump_to ht)) k

/-- A conditional jump continues at its target or at the next instruction. -/
theorem Exits.jcc {cond : Cond} {dst : Reg} {src : Src} {off : Int} {target : Nat}
    (h : prog[pc]? = some (.jcc cond dst src off)) (ht : (pc : Int) + 1 + off = target)
    (taken : cond.holds (regs dst) (src.eval regs) = true → Exits prog mem ⟨target, regs⟩ Q)
    (fall : cond.holds (regs dst) (src.eval regs) = false → Exits prog mem ⟨pc + 1, regs⟩ Q) :
    Exits prog mem ⟨pc, regs⟩ Q := by
  cases hc : cond.holds (regs dst) (src.eval regs) with
  | true =>
    refine .of_step ((step_at h).trans ?_) (taken hc)
    simp only [Instr.exec, hc, if_true]
    exact State.jump_to ht
  | false =>
    refine .of_step ((step_at h).trans ?_) (fall hc)
    simp only [Instr.exec, hc, State.next, Bool.false_eq_true, if_false]

/-- Put an immediate into a register and exit. -/
theorem Exits.ret {k : Int} {dst : Reg} (h : CodeAt prog pc [.mov dst (.imm k), .exit])
    (hQ : Q (Function.update regs dst (BitVec.ofInt 64 k))) :
    Exits prog mem ⟨pc, regs⟩ Q :=
  .mov h.head (.exit h.tail.head hQ)

/-- A loop whose invariant comes with a measure that every iteration lowers. -/
theorem Exits.loop {head : Nat} (Inv : Nat → Regs → Prop)
    (body : ∀ n regs, Inv n regs →
      (∀ m regs', m < n → Inv m regs' → Exits prog mem ⟨head, regs'⟩ Q) →
      Exits prog mem ⟨head, regs⟩ Q)
    {n : Nat} (h : Inv n regs) : Exits prog mem ⟨head, regs⟩ Q := by
  induction n using Nat.strongRecOn generalizing regs with
  | ind n ih => exact body n regs h fun m regs' hm h' => ih m hm h'

end Rules

end Bpf
