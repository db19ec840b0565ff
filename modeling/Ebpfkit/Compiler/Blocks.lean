-- SUMMARY: How the building blocks of compiled programs execute: immediates, jumps, and the unrolled byte comparison.
import Ebpfkit.Bpf.Buffer
import Ebpfkit.Compiler.Layout

/-!
# Execution of code blocks

The facts that the correctness proofs of the three program shapes share: what
the immediates and offsets in the packed fields denote, what each block decodes
to, and what the unrolled comparison of a byte string does.
-/

namespace Ebpfkit

open Bpf

/-! ## Fields -/

theorem toInt_ofNat32 {n : Nat} (h : n < 2 ^ 31) : (Int32.ofNat n).toInt = n := by
  rw [← Int32.ofInt_eq_ofNat, Int32.toInt_ofInt_of_le (by omega) (by omega)]

theorem toInt_ofNat16 {n : Nat} (h : n < 2 ^ 15) : (Int16.ofNat n).toInt = n := by
  rw [← Int16.ofInt_eq_ofNat, Int16.toInt_ofInt_of_le (by omega) (by omega)]

/-- A byte as an immediate is that byte in a register. -/
theorem eval_imm_byte (regs : Regs) (b : UInt8) :
    (Src.imm (Int32.ofNat b.toNat).toInt).eval regs = BitVec.ofNat 64 b.toNat := by
  have hb : b.toNat < 2 ^ 31 := by have := b.toNat_lt; omega
  rw [Src.eval, toInt_ofNat32 hb, BitVec.ofInt_natCast]

theorem toNat_ofNat_byte (b : UInt8) : (BitVec.ofNat 64 b.toNat).toNat = b.toNat := by
  have := b.toNat_lt
  rw [BitVec.toNat_ofNat]
  omega

/-- A byte is determined by the register it was loaded into. -/
theorem byte_of_word {a b : UInt8} (h : BitVec.ofNat 64 a.toNat = BitVec.ofNat 64 b.toNat) :
    a = b := by
  have hnat := congrArg BitVec.toNat h
  rw [toNat_ofNat_byte, toNat_ofNat_byte] at hnat
  exact UInt8.toNat_inj.mp hnat

/-- A jump inside a program of at most `2 ^ 15` instructions goes where it says. -/
theorem jumpOffset_target {start stop : Nat} (hstart : start < 2 ^ 15) (hstop : stop < 2 ^ 15) :
    (start : Int) + 1 + (jumpOffset start stop).toInt = stop := by
  rw [jumpOffset, Int16.toInt_ofInt_of_le (by omega) (by omega)]
  omega

/-! ## Decoded instructions

One equation for each instruction the emitters push. -/

section Decode

variable (imm : Int32) (off : Int16)

@[simp] theorem decode_exit : exit.decode = .exit := by
  rfl

@[simp] theorem decode_loadData : (ldxMem BPF_W R2 R1 off).decode = .ldx .word 2 1 off.toInt := by
  simp +decide [BpfInsn.decode, ldxMem, BpfInsn.new, BpfInsn.dstReg, BpfInsn.srcReg]

@[simp] theorem decode_loadDataEnd : (ldxMem BPF_W R3 R1 off).decode = .ldx .word 3 1 off.toInt := by
  simp +decide [BpfInsn.decode, ldxMem, BpfInsn.new, BpfInsn.dstReg, BpfInsn.srcReg]

@[simp] theorem decode_loadByte : (ldxMem BPF_B R7 R5 off).decode = .ldx .byte 7 5 off.toInt := by
  simp +decide [BpfInsn.decode, ldxMem, BpfInsn.new, BpfInsn.dstReg, BpfInsn.srcReg]

@[simp] theorem decode_setResult : (alu64Imm BPF_MOV R0 imm).decode = .mov 0 (.imm imm.toInt) := by
  simp +decide [BpfInsn.decode, alu64Imm, BpfInsn.new, BpfInsn.dstReg]

@[simp] theorem decode_setIndex : (alu64Imm BPF_MOV R4 imm).decode = .mov 4 (.imm imm.toInt) := by
  simp +decide [BpfInsn.decode, alu64Imm, BpfInsn.new, BpfInsn.dstReg]

@[simp] theorem decode_addIndex : (alu64Imm BPF_ADD R4 imm).decode = .add 4 (.imm imm.toInt) := by
  simp +decide [BpfInsn.decode, alu64Imm, BpfInsn.new, BpfInsn.dstReg]

@[simp] theorem decode_addLength : (alu64Imm BPF_ADD R6 imm).decode = .add 6 (.imm imm.toInt) := by
  simp +decide [BpfInsn.decode, alu64Imm, BpfInsn.new, BpfInsn.dstReg]

@[simp] theorem decode_copyData : (alu64Reg BPF_MOV R5 R2).decode = .mov 5 (.reg 2) := by
  rfl

@[simp] theorem decode_advance : (alu64Reg BPF_ADD R5 R4).decode = .add 5 (.reg 4) := by
  rfl

@[simp] theorem decode_copyPointer : (alu64Reg BPF_MOV R6 R5).decode = .mov 6 (.reg 5) := by
  rfl

@[simp] theorem decode_boundsCheck :
    (jmpReg BPF_JGT R6 R3 off).decode = .jcc .gt 6 (.reg 3) off.toInt := by
  simp +decide [BpfInsn.decode, jmpReg, BpfInsn.new, BpfInsn.dstReg, BpfInsn.srcReg]

@[simp] theorem decode_jump : (jmpImm BPF_JA R0 0 off).decode = .ja off.toInt := by
  simp +decide [BpfInsn.decode, jmpImm, BpfInsn.new]

@[simp] theorem decode_jumpNe :
    (jmpImm BPF_JNE R7 imm off).decode = .jcc .ne 7 (.imm imm.toInt) off.toInt := by
  simp +decide [BpfInsn.decode, jmpImm, BpfInsn.new, BpfInsn.dstReg]

@[simp] theorem decode_jumpLt :
    (jmpImm BPF_JLT R7 imm off).decode = .jcc .lt 7 (.imm imm.toInt) off.toInt := by
  simp +decide [BpfInsn.decode, jmpImm, BpfInsn.new, BpfInsn.dstReg]

@[simp] theorem decode_jumpLe :
    (jmpImm BPF_JLE R7 imm off).decode = .jcc .le 7 (.imm imm.toInt) off.toInt := by
  simp +decide [BpfInsn.decode, jmpImm, BpfInsn.new, BpfInsn.dstReg]

@[simp] theorem decode_ret : (ret imm).map BpfInsn.decode = [.mov 0 (.imm imm.toInt), .exit] := by
  simp [ret]

end Decode

/-! ## Programs with two results -/

/-- A program that ends with its two results: the code before them, and where they
    stand. -/
structure ResultCode (prog : Program) (body : List Instr) (n : Nat) : Prop where
  body : CodeAt prog 0 body
  fail : CodeAt prog n [.mov 0 (.imm 0), .exit]
  success : CodeAt prog (n + 2) [.mov 0 (.imm 1), .exit]

theorem resultCode {body : Prog} {n : Nat} (hlen : body.length = n) :
    ResultCode (decodeProgram (body ++ (ret 0 ++ ret 1))) (body.map BpfInsn.decode) n := by
  have hall : CodeAt (decodeProgram (body ++ (ret 0 ++ ret 1))) 0
      ((body ++ (ret 0 ++ ret 1)).map BpfInsn.decode) := CodeAt.refl _
  rw [List.map_append, List.map_append, decode_ret, decode_ret] at hall
  have hfail := hall.right.left
  have hsuccess := hall.right.right
  simp only [List.length_map, hlen, List.length_cons, List.length_nil, Nat.zero_add,
    Nat.reduceAdd] at hfail hsuccess
  exact ⟨hall.left, hfail, hsuccess⟩

theorem resultCode_altProgram (alternatives : List (List UInt8)) :
    ResultCode (decodeProgram (altProgram alternatives))
      ((assemble altSize (altBlock (extent altSize alternatives + 2)) 0 alternatives).map
        BpfInsn.decode) (extent altSize alternatives) :=
  resultCode (length_assemble (length_altBlock _) 0 alternatives)

theorem resultCode_classProgram (ranges : List CharRange) :
    ResultCode (decodeProgram (classProgram ranges))
      ((assemble (fun _ => 2) (rangeCheck (2 * ranges.length + 2)) 0 ranges).map BpfInsn.decode)
      (2 * ranges.length) := by
  apply resultCode
  rw [length_assemble (length_rangeCheck _), extent_const]

/-! ## Blocks of alternatives -/

/-- The parts of the block of an alternative and their addresses. -/
structure AltBlockCode (prog : Program) (success pc : Nat) (alt : List UInt8) : Prop where
  head : CodeAt prog pc [.mov 6 (.reg 5), .add 6 (.imm (Int32.ofNat alt.length).toInt),
    .jcc .gt 6 (.reg 3) (jumpOffset (pc + 2) (pc + altSize alt)).toInt]
  checks : CodeAt prog (pc + 3) ((byteChecks (mismatchJump (pc + altSize alt)) (pc + 3)
    alt.zipIdx).map BpfInsn.decode)
  found : CodeAt prog (pc + 3 + 2 * alt.length)
    [.ja (jumpOffset (pc + 3 + 2 * alt.length) success).toInt]

theorem altBlockCode {prog : Program} {success pc : Nat} {alt : List UInt8}
    (hcode : CodeAt prog pc ((altBlock success pc alt).map BpfInsn.decode)) :
    AltBlockCode prog success pc alt := by
  simp only [altBlock, altCode, List.map_append, List.map_cons, List.map_nil, decode_copyPointer,
    decode_addLength, decode_boundsCheck, decode_jump] at hcode
  have hchecks := hcode.right.left
  have hfound := hcode.right.right
  simp only [List.length_map, List.length_cons, List.length_nil, length_byteChecks,
    List.length_zipIdx, Nat.zero_add, Nat.reduceAdd] at hchecks hfound
  exact ⟨hcode.left, hchecks, hfound⟩

/-! ## The unrolled comparison -/

/-- The registers agree except for `R7`, which the comparisons load into. -/
def SameButR7 (regs regs' : Regs) : Prop := ∀ r, r ≠ 7 → regs' r = regs r

/-- Comparing `bytes` with the bytes at `R5 + i` falls through to the end if all
    of them agree, and goes to `next` otherwise. -/
theorem exits_byteChecks {prog : Program} {mem : Memory} {Q : Regs → Prop} {content : Nat → UInt8}
    {next base i : Nat} {bytes : List UInt8} {pc : Nat} {regs : Regs}
    (hcode : CodeAt prog pc ((byteChecks (mismatchJump next) pc (bytes.zipIdx i)).map
      BpfInsn.decode))
    (hload : ∀ k, k < bytes.length →
      mem.byte (regs 5 + BitVec.ofNat 64 (i + k)) = some (content (base + (i + k))))
    (hoffset : i + bytes.length ≤ 2 ^ 15) (hpc : pc + 2 * bytes.length ≤ 2 ^ 15)
    (hnext : next < 2 ^ 15)
    (hmatch : window content (base + i) bytes.length = bytes → ∀ regs', SameButR7 regs regs' →
      Exits prog mem ⟨pc + 2 * bytes.length, regs'⟩ Q)
    (hmismatch : window content (base + i) bytes.length ≠ bytes → ∀ regs', SameButR7 regs regs' →
      Exits prog mem ⟨next, regs'⟩ Q) :
    Exits prog mem ⟨pc, regs⟩ Q := by
  induction bytes generalizing pc i regs with
  | nil => exact hmatch rfl regs fun _ _ => rfl
  | cons byte bytes ih =>
    rw [List.length_cons, window_succ] at hmatch hmismatch
    rw [List.length_cons] at hload hoffset hpc
    simp only [byteChecks, List.zipIdx_cons, assemble, byteCheck, mismatchJump,
      List.map_cons, List.cons_append, List.nil_append, decode_loadByte, decode_jumpNe] at hcode
    have hbyte : mem.load .byte (regs 5 + BitVec.ofInt 64 (Int16.ofNat i).toInt) =
        some (BitVec.ofNat 64 (content (base + i)).toNat) := by
      have hfirst := hload 0 (by omega)
      rw [Nat.add_zero] at hfirst
      rw [toInt_ofNat16 (by omega), BitVec.ofInt_natCast, Memory.load, hfirst, Option.map_some]
    refine .ldx hcode.head hbyte (.jcc hcode.tail.head (jumpOffset_target (by omega) hnext) ?_ ?_)
    · intro hne
      rw [Function.update_self, eval_imm_byte, Cond.holds, bne_iff_ne] at hne
      refine hmismatch ?_ _ fun r hr => Function.update_of_ne hr _ _
      intro heq
      obtain ⟨hhead, -⟩ := List.cons.inj heq
      rw [hhead] at hne
      exact hne rfl
    · intro heq
      rw [Function.update_self, eval_imm_byte, Cond.holds, bne_eq_false_iff_eq] at heq
      have hhead : content (base + i) = byte := byte_of_word heq
      have hsame : ∀ regs', SameButR7 (Function.update regs 7
          (BitVec.ofNat 64 (content (base + i)).toNat)) regs' → SameButR7 regs regs' := by
        intro regs' h r hr
        rw [h r hr, Function.update_of_ne hr]
      have hnext' : pc + 1 + 1 + 2 * bytes.length = pc + 2 * (bytes.length + 1) := by omega
      refine ih hcode.tail.tail ?_ (by omega) (by omega) ?_ ?_
      · intro k hk
        have := hload (k + 1) (by omega)
        rw [Function.update_of_ne (by decide), Nat.add_assoc, Nat.add_comm 1 k]
        exact this
      · intro hrest regs' h
        rw [hnext']
        exact hmatch (by rw [hhead, Nat.add_assoc, hrest]) regs' (hsame regs' h)
      · intro hrest regs' h
        refine hmismatch ?_ regs' (hsame regs' h)
        intro hall
        exact hrest (List.cons.inj hall).2

end Ebpfkit
