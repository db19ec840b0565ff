-- SUMMARY: The eBPF register machine: decoded instructions, memory, one-step execution, and running with fuel.
import Mathlib.Logic.Function.Basic
import Mathlib.Algebra.Order.Ring.Nat
import Mathlib.Tactic.Common

/-!
# The eBPF machine

The fragment of eBPF that loads bytes and words, moves and adds 64-bit
registers, jumps, and exits. Instructions are already decoded: offsets and
immediates are the integers their sign-extended fields denote. A program is a
list of instructions, and its addresses are positions in that list.

Memory is read only, because no instruction of the fragment writes it. A load
that the memory does not answer is stuck, and so is a jump or a fall-through
that leaves the program.
-/

namespace Bpf

/-- A register number. -/
abbrev Reg := Nat

/-- A register holds 64 bits. -/
abbrev Word := BitVec 64

abbrev Regs := Reg → Word

/-- The width of a load. -/
inductive Size where
  | byte
  | word
  deriving DecidableEq, Repr

/-- The second operand of an ALU operation or of a comparison. -/
inductive Src where
  | imm (k : Int)
  | reg (r : Reg)
  deriving DecidableEq, Repr

/-- The comparisons of the conditional jumps. The ordered ones are unsigned. -/
inductive Cond where
  | eq
  | ne
  | gt
  | lt
  | le
  deriving DecidableEq, Repr

inductive Instr where
  | ldx (size : Size) (dst src : Reg) (off : Int)
  | mov (dst : Reg) (src : Src)
  | add (dst : Reg) (src : Src)
  | ja (off : Int)
  | jcc (cond : Cond) (dst : Reg) (src : Src) (off : Int)
  | exit
  /-- Anything outside the fragment. The machine is stuck there. -/
  | unknown
  deriving DecidableEq, Repr

abbrev Program := List Instr

/-- What loads read: `none` is an address that may not be accessed. -/
structure Memory where
  byte : Word → Option UInt8
  word : Word → Option (BitVec 32)

structure State where
  pc : Nat
  regs : Regs

/-- The outcome of a step, and of a bounded number of steps. -/
inductive Status where
  | running (s : State)
  | exited (s : State)
  | stuck

/-! ## One step -/

/-- Loads zero-extend. -/
def Memory.load (mem : Memory) : Size → Word → Option Word
  | .byte, a => (mem.byte a).map fun b => BitVec.ofNat 64 b.toNat
  | .word, a => (mem.word a).map fun w => w.setWidth 64

/-- An immediate is sign-extended to the register width. -/
def Src.eval (regs : Regs) : Src → Word
  | .imm k => BitVec.ofInt 64 k
  | .reg r => regs r

def Cond.holds : Cond → Word → Word → Bool
  | .eq, a, b => a == b
  | .ne, a, b => a != b
  | .gt, a, b => decide (b.toNat < a.toNat)
  | .lt, a, b => decide (a.toNat < b.toNat)
  | .le, a, b => decide (a.toNat ≤ b.toNat)

/-- Fall through to the next instruction with new register contents. -/
def State.next (s : State) (regs : Regs) : Status :=
  .running ⟨s.pc + 1, regs⟩

/-- Offsets are relative to the instruction after the jump. -/
def State.jump (s : State) (off : Int) : Status :=
  if 0 ≤ (s.pc : Int) + 1 + off then
    .running ⟨((s.pc : Int) + 1 + off).toNat, s.regs⟩
  else
    .stuck

def Instr.exec (mem : Memory) (s : State) : Instr → Status
  | .ldx size dst src off =>
    match mem.load size (s.regs src + BitVec.ofInt 64 off) with
    | some v => s.next (Function.update s.regs dst v)
    | none => .stuck
  | .mov dst src => s.next (Function.update s.regs dst (src.eval s.regs))
  | .add dst src => s.next (Function.update s.regs dst (s.regs dst + src.eval s.regs))
  | .ja off => s.jump off
  | .jcc cond dst src off =>
    if cond.holds (s.regs dst) (src.eval s.regs) then s.jump off else s.next s.regs
  | .exit => .exited s
  | .unknown => .stuck

/-- Execute the instruction at the program counter. -/
def step (prog : Program) (mem : Memory) (s : State) : Status :=
  match prog[s.pc]? with
  | some i => i.exec mem s
  | none => .stuck

/-- Execute at most `n` steps. -/
def run (prog : Program) (mem : Memory) : Nat → State → Status
  | 0, s => .running s
  | n + 1, s =>
    match step prog mem s with
    | .running s' => run prog mem n s'
    | r => r

/-! ## Total correctness -/

/-- From `s` the program reaches an exit, and the registers there satisfy `Q`.
    Execution is deterministic, so no run from `s` is ever stuck. -/
def Exits (prog : Program) (mem : Memory) (s : State) (Q : Regs → Prop) : Prop :=
  ∃ n t, run prog mem n s = .exited t ∧ Q t.regs

variable {prog : Program} {mem : Memory}

theorem run_succ_running {n : Nat} {s s' : State} (h : step prog mem s = .running s') :
    run prog mem (n + 1) s = run prog mem n s' := by
  simp only [run, h]

/-- A run that exits is not stuck after any other number of steps. -/
theorem Exits.not_stuck {s : State} {Q : Regs → Prop} (h : Exits prog mem s Q) (m : Nat) :
    run prog mem m s ≠ .stuck := by
  obtain ⟨n, t, hrun, -⟩ := h
  induction n generalizing m s with
  | zero => simp [run] at hrun
  | succ n ih =>
    cases m with
    | zero => simp [run]
    | succ m =>
      cases hs : step prog mem s with
      | running s' =>
        rw [run_succ_running hs] at hrun ⊢
        exact ih m hrun
      | exited t' => simp [run, hs]
      | stuck => simp [run, hs] at hrun

theorem Exits.mono {s : State} {P Q : Regs → Prop} (h : Exits prog mem s P)
    (hPQ : ∀ regs, P regs → Q regs) : Exits prog mem s Q := by
  obtain ⟨n, t, hrun, hP⟩ := h
  exact ⟨n, t, hrun, hPQ _ hP⟩

/-- Take one step, then continue. -/
theorem Exits.of_step {s s' : State} {Q : Regs → Prop} (hs : step prog mem s = .running s')
    (h : Exits prog mem s' Q) : Exits prog mem s Q := by
  obtain ⟨n, t, hrun, hQ⟩ := h
  exact ⟨n + 1, t, by rw [run_succ_running hs]; exact hrun, hQ⟩

end Bpf
