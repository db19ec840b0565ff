-- SUMMARY: Which range lists compile, and that a compiled class decides membership of the register it tests.
import Ebpfkit.Compiler.Blocks

/-!
# Correctness of character classes

A class program compares `R7` with the ends of each range in turn. It never
narrows `R7` to a byte, so its answer is about the whole register.
-/

namespace Ebpfkit

open Bpf

/-- The value lies between the ends of the range. -/
def CharRange.covers (r : CharRange) (v : Word) : Prop :=
  r.lo.toNat ≤ v.toNat ∧ v.toNat ≤ r.hi.toNat

instance (r : CharRange) (v : Word) : Decidable (r.covers v) :=
  inferInstanceAs (Decidable (_ ∧ _))

/-! ## Execution -/

section Ranges

variable {prog : Program} {mem : Memory} {Q : Regs → Prop}

/-- The blocks of the ranges, one after the other. Registers are not written. -/
theorem exits_rangeChecks {ranges : List CharRange} {success pc : Nat} {regs : Regs}
    (hcode : CodeAt prog pc
      ((assemble (fun _ => 2) (rangeCheck success) pc ranges).map BpfInsn.decode))
    (hpc : pc + 2 * ranges.length < 2 ^ 15) (hsuccess : success < 2 ^ 15)
    (matched : (∃ r ∈ ranges, r.covers (regs 7)) → Exits prog mem ⟨success, regs⟩ Q)
    (missed : (∀ r ∈ ranges, ¬ r.covers (regs 7)) →
      Exits prog mem ⟨pc + 2 * ranges.length, regs⟩ Q) :
    Exits prog mem ⟨pc, regs⟩ Q := by
  induction ranges generalizing pc with
  | nil => exact missed (by simp)
  | cons r ranges ih =>
    rw [List.length_cons] at hpc missed
    simp only [assemble, rangeCheck, List.map_append, List.map_cons, List.map_nil,
      decode_jumpLt, decode_jumpLe] at hcode
    have hhead := hcode.left
    have htail := hcode.right
    simp only [List.length_cons, List.length_nil, Nat.zero_add, Nat.reduceAdd] at htail
    have hskip : (pc : Int) + 1 + (1 : Int16).toInt = (pc + 2 : Nat) := by
      rw [show (1 : Int16).toInt = 1 from rfl]
      omega
    -- A range that does not cover the value leaves the question to the later ones.
    have hnext : ¬ r.covers (regs 7) → Exits prog mem ⟨pc + 2, regs⟩ Q := by
      intro hnot
      refine ih htail (by omega) ?_ ?_
      · rintro ⟨r', hmem, hcovers⟩
        exact matched ⟨r', List.mem_cons_of_mem _ hmem, hcovers⟩
      · intro hall
        rw [Nat.add_assoc, show 2 + 2 * ranges.length = 2 * (ranges.length + 1) by omega]
        refine missed ?_
        intro r' hmem
        rcases List.mem_cons.mp hmem with rfl | hmem
        · exact hnot
        · exact hall r' hmem
    refine .jcc hhead.head hskip ?_ ?_
    · intro hbelow
      simp only [Cond.holds, eval_imm_byte, toNat_ofNat_byte, decide_eq_true_eq] at hbelow
      refine hnext ?_
      rintro ⟨hlo, -⟩
      omega
    · intro hlo
      simp only [Cond.holds, eval_imm_byte, toNat_ofNat_byte, decide_eq_false_iff_not,
        Nat.not_lt] at hlo
      refine .jcc hhead.tail.head (jumpOffset_target (by omega) hsuccess) ?_ ?_
      · intro hhi
        simp only [Cond.holds, eval_imm_byte, toNat_ofNat_byte, decide_eq_true_eq] at hhi
        exact matched ⟨r, List.mem_cons_self, hlo, hhi⟩
      · intro habove
        simp only [Cond.holds, eval_imm_byte, toNat_ofNat_byte, decide_eq_false_iff_not] at habove
        exact hnext fun hcovers => habove hcovers.2

end Ranges

theorem exits_classProgram {ranges : List CharRange}
    (hlimit : 2 * ranges.length + 4 ≤ MAX_BPF_INSTRUCTION_LEN) (mem : Memory) (regs : Regs) :
    Exits (decodeProgram (classProgram ranges)) mem ⟨0, regs⟩
      fun final => final 0 = if ∃ r ∈ ranges, r.covers (regs 7) then 1 else 0 := by
  have code := resultCode_classProgram ranges
  unfold MAX_BPF_INSTRUCTION_LEN at hlimit
  refine exits_rangeChecks code.body (by omega) (by omega) ?_ ?_
  · intro hmatched
    refine .ret code.success ?_
    rw [if_pos hmatched]
    rfl
  · intro hmissed
    rw [Nat.zero_add]
    refine .ret code.fail ?_
    rw [if_neg (by simpa using hmissed)]
    rfl

/-! ## Compiling -/

section Compile

variable {u : Usize} {ranges : List CharRange}

/-- The ranges a class may be made of. -/
def WellFormedRanges (ranges : List CharRange) : Prop :=
  ranges ≠ [] ∧ ∀ r ∈ ranges, r.lo ≤ r.hi

theorem not_wellFormedRanges :
    ¬ WellFormedRanges ranges ↔ ranges = [] ∨ ∃ r ∈ ranges, r.lo > r.hi := by
  simp [WellFormedRanges, or_iff_not_imp_left]

theorem compileCharClass_malformed (h : ranges = [] ∨ ∃ r ∈ ranges, r.lo > r.hi) :
    ∃ reason, compileCharClass u ranges = .err (.invalidPattern reason) := by
  unfold compileCharClass
  split
  · exact ⟨_, rfl⟩
  · next hempty =>
    rw [if_pos]
    · exact ⟨_, rfl⟩
    · rcases h with rfl | ⟨r, hmem, hgt⟩
      · exact absurd rfl hempty
      · exact List.any_eq_true.mpr ⟨r, hmem, decide_eq_true hgt⟩

theorem compileCharClass_wellFormed (h : WellFormedRanges ranges) :
    compileCharClass u ranges =
      (compileWithLimit (u.wrap (4 + u.wrap (ranges.length * 2)))).andThen fun _ =>
        finish u (classProgram ranges) := by
  obtain ⟨hne, hle⟩ := h
  have hany : (ranges.any fun r => decide (r.lo > r.hi)) = false := by
    rw [List.any_eq_false]
    intro r hmem
    simpa using hle r hmem
  rw [compileCharClass, if_neg (by simpa using hne), if_neg (by rw [hany]; exact Bool.false_ne_true),
    emitCharClass_eq]

/-- A slice of ranges is at most `isize::MAX` bytes long, so its estimate does not wrap. -/
theorem wrap_classEstimate (hslice : u.fitsVec 2 ranges.length = true) :
    u.wrap (4 + u.wrap (ranges.length * 2)) = 4 + 2 * ranges.length := by
  rw [u.wrap_add_wrap, Nat.mul_comm]
  cases u with
  | exact => rfl
  | wrapping arch =>
    simp only [Usize.fitsVec, decide_eq_true_eq] at hslice
    refine Nat.mod_eq_of_lt ?_
    cases arch with
    | bits32 =>
      simp only [Arch.width] at *
      omega
    | bits64 =>
      simp only [Arch.width] at *
      omega

theorem compileCharClass_tooLong (h : WellFormedRanges ranges)
    (hslice : u.fitsVec 2 ranges.length = true) (hlong : 2046 < ranges.length) :
    compileCharClass u ranges =
      .err (.patternTooLong (4 + 2 * ranges.length) MAX_BPF_INSTRUCTION_LEN) := by
  rw [compileCharClass_wellFormed h, wrap_classEstimate hslice, compileWithLimit, if_pos]
  · rfl
  · unfold MAX_BPF_INSTRUCTION_LEN
    omega

theorem compileCharClass_of_le (h : WellFormedRanges ranges) (hle : ranges.length ≤ 2046) :
    compileCharClass u ranges = .ok (classProgram ranges) := by
  have hslice : u.fitsVec 2 ranges.length = true := u.fitsVec_of_lt (by omega)
  have hfits : u.fitsVec 8 (classProgram ranges).length = true := by
    apply u.fitsVec_of_lt
    rw [length_classProgram]
    omega
  have hlimit : 4 + 2 * ranges.length ≤ MAX_BPF_INSTRUCTION_LEN := by
    unfold MAX_BPF_INSTRUCTION_LEN
    omega
  rw [compileCharClass_wellFormed h, wrap_classEstimate hslice, compileWithLimit_eq_ok.mpr hlimit,
    Outcome.ok_andThen, finish, if_pos hfits]

/-- `compile_char_class` rejects what is malformed or too long, and otherwise
    compiles a program that decides, for every value of `R7`, whether some range
    covers it. -/
theorem compileCharClass_exact (u : Usize) (ranges : List CharRange)
    (hslice : u.fitsVec 2 ranges.length = true) :
    ((∃ reason, compileCharClass u ranges = .err (.invalidPattern reason)) ↔
      ranges = [] ∨ ∃ r ∈ ranges, r.lo > r.hi) ∧
    ((∃ len max, compileCharClass u ranges = .err (.patternTooLong len max)) ↔
      ¬ (ranges = [] ∨ ∃ r ∈ ranges, r.lo > r.hi) ∧ 2046 < ranges.length) ∧
    (¬ (ranges = [] ∨ ∃ r ∈ ranges, r.lo > r.hi) → ranges.length ≤ 2046 →
      ∃ prog, compileCharClass u ranges = .ok prog ∧ ∀ (mem : Memory) (regs : Regs),
        Exits (decodeProgram prog) mem ⟨0, regs⟩ fun final => final 0 =
          if ∃ r ∈ ranges, r.lo.toNat ≤ (regs 7).toNat ∧ (regs 7).toNat ≤ r.hi.toNat
          then 1 else 0) := by
  by_cases hmalformed : ranges = [] ∨ ∃ r ∈ ranges, r.lo > r.hi
  · obtain ⟨reason, herr⟩ := compileCharClass_malformed (u := u) hmalformed
    simp [herr, hmalformed]
  · have hwf : WellFormedRanges ranges := Classical.not_not.mp (mt not_wellFormedRanges.mp hmalformed)
    by_cases hlong : 2046 < ranges.length
    · have herr := compileCharClass_tooLong hwf hslice hlong
      simp only [herr, hmalformed, hlong]
      simp
      omega
    · have hok := compileCharClass_of_le (u := u) hwf (Nat.not_lt.mp hlong)
      refine ⟨by simp [hok, hmalformed], by simp [hok, hlong], ?_⟩
      intro _ hle
      refine ⟨_, hok, ?_⟩
      intro mem regs
      refine exits_classProgram ?_ mem regs
      unfold MAX_BPF_INSTRUCTION_LEN
      omega

/-- A class of two overlapping ranges on a 32-bit target, asked about a value
    that is not a byte. -/
theorem compileCharClass_overlapping :
    ∃ prog, compileCharClass (.wrapping .bits32) [⟨0x61, 0x7a⟩, ⟨0x70, 0xff⟩] = .ok prog ∧
      ∀ mem, Exits (decodeProgram prog) mem ⟨0, fun _ => 0x170⟩ fun final => final 0 = 0 := by
  obtain ⟨-, -, hcompiles⟩ := compileCharClass_exact (.wrapping .bits32)
    [⟨0x61, 0x7a⟩, ⟨0x70, 0xff⟩] (by decide)
  obtain ⟨prog, hok, hexits⟩ := hcompiles (by decide) (by decide)
  refine ⟨prog, hok, ?_⟩
  intro mem
  refine (hexits mem fun _ => 0x170).mono ?_
  intro final hfinal
  rw [hfinal, if_neg (by decide)]

end Compile

end Ebpfkit
