-- SUMMARY: Compiled programs halt within a number of steps that the length of the program and of the buffer bound.
import Ebpfkit.Bpf.Steps
import Ebpfkit.Compiler.ControlFlow

/-!
# Step counts of compiled programs

Classes and alternatives compile to programs that only move forward, so that no
instruction runs twice. A literal search has one jump that goes back. What bounds
it is the index in `R4`: it grows by one in every iteration, and the bounds check
keeps it inside the buffer. The invariant says, for every address, what the
registers of the loop hold there.
-/

namespace Ebpfkit

open Bpf

/-! ## Forward programs -/

/-- What the machine makes of an instruction, as far as control goes. -/
inductive DecodesTo (insn : BpfInsn) : Instr → Prop where
  | halt {instr : Instr} (hsuccs : ∀ pc, instr.succs pc = []) : DecodesTo insn instr
  | fall {instr : Instr} (hexit : instr ≠ .exit) (hsuccs : ∀ pc, instr.succs pc = [(pc : Int) + 1]) :
      DecodesTo insn instr
  | ja (hjump : insn.isJump = true) : DecodesTo insn (.ja insn.off.toInt)
  | jcc {cond : Cond} {dst : Reg} {src : Src} (hjump : insn.isJump = true) :
      DecodesTo insn (.jcc cond dst src insn.off.toInt)

theorem isJump_of_code {insn : BpfInsn} {code : UInt8} (h : insn.code = code)
    (hcode : (code &&& 0x07 == BPF_JMP && code &&& 0xF0 != BPF_EXIT && code &&& 0xF0 != BPF_CALL) =
      true) : insn.isJump = true := by
  rw [BpfInsn.isJump, h]
  exact hcode

/-- One opcode after the other, as the decoder tries them. -/
theorem DecodesTo.ite {insn : BpfInsn} {code : UInt8} {instr instr' : Instr}
    (h : insn.code = code → DecodesTo insn instr) (h' : DecodesTo insn instr') :
    DecodesTo insn (if insn.code = code then instr else instr') := by
  by_cases hcode : insn.code = code
  · rw [if_pos hcode]
    exact h hcode
  · rw [if_neg hcode]
    exact h'

theorem decodesTo_decode (insn : BpfInsn) : DecodesTo insn insn.decode := by
  have hfall : ∀ {code : UInt8} {instr : Instr}, instr ≠ .exit →
      (∀ pc, instr.succs pc = [(pc : Int) + 1]) → insn.code = code → DecodesTo insn instr :=
    fun hexit hsuccs _ => .fall hexit hsuccs
  refine .ite (fun _ => .halt fun _ => rfl) ?_
  refine .ite (hfall (by simp) fun _ => rfl) (.ite (hfall (by simp) fun _ => rfl) ?_)
  refine .ite (hfall (by simp) fun _ => rfl) (.ite (hfall (by simp) fun _ => rfl) ?_)
  refine .ite (hfall (by simp) fun _ => rfl) (.ite (hfall (by simp) fun _ => rfl) ?_)
  refine .ite (fun hcode => .ja (isJump_of_code hcode (by decide))) ?_
  refine .ite (fun hcode => .jcc (isJump_of_code hcode (by decide))) ?_
  refine .ite (fun hcode => .jcc (isJump_of_code hcode (by decide))) ?_
  refine .ite (fun hcode => .jcc (isJump_of_code hcode (by decide))) ?_
  refine .ite (fun hcode => .jcc (isJump_of_code hcode (by decide))) ?_
  exact .ite (fun hcode => .jcc (isJump_of_code hcode (by decide))) (.halt fun _ => rfl)

/-- A program without jumps that go back only moves forward. -/
theorem forward_of_safe {prog : Prog} (hsafe : ControlFlowSafe prog)
    (hnone : ∀ i, ¬ BackwardJump prog i) : Forward (decodeProgram prog) := by
  rintro i j ⟨instr, hget, hj⟩
  rw [decodeProgram, List.getElem?_map, Option.map_eq_some_iff] at hget
  obtain ⟨insn, hinsn, rfl⟩ := hget
  have hi : i < prog.length := (List.getElem?_eq_some_iff.mp hinsn).1
  rw [decodeProgram, List.length_map]
  have hlast : prog.length ≤ i + 1 → insn.decode = .exit := by
    intro hle
    have hend := hsafe.last
    rw [List.getLast?_eq_getElem?, show prog.length - 1 = i by omega, hinsn] at hend
    rw [Option.some.inj hend]
    exact decode_exit
  have hjump : insn.isJump = true → (j : Int) = i + 1 + insn.off.toInt →
      i < j ∧ j < prog.length := by
    intro hjump heq
    have hinside := (hsafe.jumps i insn hinsn hjump).2
    have hoff : 0 ≤ insn.off.toInt := by
      by_contra hneg
      exact hnone i ⟨insn, hinsn, hjump, Int.not_le.mp hneg⟩
    omega
  have hnext : insn.decode ≠ .exit → (j : Int) = i + 1 → i < j ∧ j < prog.length := by
    intro hne heq
    have := mt hlast hne
    omega
  have hdecodes := decodesTo_decode insn
  revert hj hnext
  generalize insn.decode = instr at hdecodes
  intro hj hnext
  cases hdecodes with
  | halt hsuccs => simp [hsuccs] at hj
  | fall hexit hsuccs =>
    rw [hsuccs, List.mem_singleton] at hj
    exact hnext hexit hj
  | ja hisJump =>
    rw [Instr.succs, List.mem_singleton] at hj
    exact hjump hisJump hj
  | jcc hisJump =>
    rw [Instr.succs, List.mem_pair] at hj
    rcases hj with hj | hj
    · exact hnext (by simp) hj
    · exact hjump hisJump hj

/-! ## The search loop -/

section Search

variable (ctx : Word) (data dataEnd : BitVec 32) (n : Nat)

/-- What the registers of the loop hold: the ends of the buffer, and an index into it. -/
structure LoopRegs (regs : Regs) : Prop where
  start : regs 2 = data.setWidth 64
  stop : regs 3 = dataEnd.setWidth 64
  index : (regs 4).toNat ≤ dataEnd.toNat - data.toNat

/-- What holds at each address of a search for a pattern of `n` bytes. -/
inductive SearchAt : Nat → Regs → Prop where
  | loadData {regs : Regs} (hctx : regs 1 = ctx) : SearchAt 0 regs
  | loadDataEnd {regs : Regs} (hctx : regs 1 = ctx) (hstart : regs 2 = data.setWidth 64) :
      SearchAt 1 regs
  | setIndex {regs : Regs} (hstart : regs 2 = data.setWidth 64)
      (hstop : regs 3 = dataEnd.setWidth 64) : SearchAt 2 regs
  | head {regs : Regs} (hloop : LoopRegs data dataEnd regs) : SearchAt 3 regs
  | advance {regs : Regs} (hloop : LoopRegs data dataEnd regs) (hpointer : regs 5 = regs 2) :
      SearchAt 4 regs
  | copy {regs : Regs} (hloop : LoopRegs data dataEnd regs)
      (hpointer : regs 5 = regs 2 + regs 4) : SearchAt 5 regs
  | addLength {regs : Regs} (hloop : LoopRegs data dataEnd regs)
      (hlimit : regs 6 = regs 2 + regs 4) : SearchAt 6 regs
  | check {regs : Regs} (hloop : LoopRegs data dataEnd regs)
      (hlimit : regs 6 = regs 2 + regs 4 + BitVec.ofInt 64 n) : SearchAt 7 regs
  | body {pc : Nat} {regs : Regs} (hlow : 8 ≤ pc) (hhigh : pc ≤ 10 + 2 * n)
      (hloop : LoopRegs data dataEnd regs)
      (hinside : (regs 4).toNat + n ≤ dataEnd.toNat - data.toNat) : SearchAt pc regs
  | again {regs : Regs} (hloop : LoopRegs data dataEnd regs) : SearchAt (11 + 2 * n) regs
  | done {pc : Nat} {regs : Regs} (hlow : 12 + 2 * n ≤ pc) (hhigh : pc ≤ 13 + 2 * n) :
      SearchAt pc regs

/-- The way that is left to the end of the program; the jump back comes before all of it. -/
def weight (pc : Nat) : Nat := if pc = 11 + 2 * n then 13 + 2 * n else 13 + 2 * n - pc

/-- The indices that `R4` can still take; before the loop, all of them. -/
def indicesLeft (pc : Nat) (regs : Regs) : Nat :=
  if pc < 3 then dataEnd.toNat - data.toNat else dataEnd.toNat - data.toNat - (regs 4).toNat

def searchRank (s : State) : Nat :=
  indicesLeft data dataEnd s.pc s.regs * (14 + 2 * n) + weight n s.pc

/-- One step keeps the invariant and lowers the rank. -/
def Lowers (s t : State) : Prop :=
  SearchAt ctx data dataEnd n t.pc t.regs ∧ searchRank data dataEnd n t < searchRank data dataEnd n s

variable {ctx data dataEnd n} {prog : Program} {mem : Memory}

@[simp] theorem weight_again : weight n (11 + 2 * n) = 13 + 2 * n := if_pos rfl

theorem weight_of_ne {pc : Nat} (h : pc ≠ 11 + 2 * n) : weight n pc = 13 + 2 * n - pc := if_neg h

theorem indicesLeft_of_le {pc : Nat} {regs : Regs} (h : 3 ≤ pc) :
    indicesLeft data dataEnd pc regs = dataEnd.toNat - data.toNat - (regs 4).toNat :=
  if_neg (Nat.not_lt.mpr h)

theorem weight_lt {pc pc' : Nat} (hlt : pc < pc') (hne : pc' ≠ 11 + 2 * n) (hle : pc' ≤ 13 + 2 * n) :
    weight n pc' < weight n pc := by
  rw [weight_of_ne hne]
  by_cases h : pc = 11 + 2 * n
  · rw [h, weight_again]
    omega
  · rw [weight_of_ne h]
    omega

/-- A step that keeps the index moves towards the end. -/
theorem Lowers.forward {pc pc' : Nat} {regs regs' : Regs}
    (hat : SearchAt ctx data dataEnd n pc' regs')
    (hleft : indicesLeft data dataEnd pc' regs' ≤ indicesLeft data dataEnd pc regs)
    (hlt : pc < pc') (hne : pc' ≠ 11 + 2 * n) (hle : pc' ≤ 13 + 2 * n) :
    Lowers ctx data dataEnd n ⟨pc, regs⟩ ⟨pc', regs'⟩ := by
  have hmul := Nat.mul_le_mul_right (14 + 2 * n) hleft
  have hweight := weight_lt hlt hne hle
  refine ⟨hat, ?_⟩
  simp only [searchRank]
  omega

/-- Inside the loop the indices depend on `R4` only. -/
theorem Lowers.inLoop {pc pc' : Nat} {regs regs' : Regs}
    (hat : SearchAt ctx data dataEnd n pc' regs') (hindex : regs' 4 = regs 4) (hpc : 3 ≤ pc)
    (hlt : pc < pc') (hne : pc' ≠ 11 + 2 * n) (hle : pc' ≤ 13 + 2 * n) :
    Lowers ctx data dataEnd n ⟨pc, regs⟩ ⟨pc', regs'⟩ := by
  refine .forward hat ?_ hlt hne hle
  rw [indicesLeft_of_le hpc, indicesLeft_of_le (by omega), hindex]

/-- Registers that agree on what the loop uses. -/
theorem LoopRegs.of_agree {regs regs' : Regs} (h : LoopRegs data dataEnd regs)
    (h2 : regs' 2 = regs 2) (h3 : regs' 3 = regs 3) (h4 : regs' 4 = regs 4) :
    LoopRegs data dataEnd regs' := by
  refine ⟨h2.trans h.start, h3.trans h.stop, ?_⟩
  rw [h4]
  exact h.index

theorem LoopRegs.update {regs : Regs} {r : Reg} {v : Word} (h : LoopRegs data dataEnd regs)
    (h2 : r ≠ 2) (h3 : r ≠ 3) (h4 : r ≠ 4) : LoopRegs data dataEnd (Function.update regs r v) :=
  h.of_agree (Function.update_of_ne (Ne.symm h2) _ _) (Function.update_of_ne (Ne.symm h3) _ _)
    (Function.update_of_ne (Ne.symm h4) _ _)

/-- The bounds check lets a pattern through that ends inside the buffer. -/
theorem LoopRegs.fits {regs : Regs} (h : LoopRegs data dataEnd regs) (hlen : n ≤ 1024)
    (hlimit : regs 6 = regs 2 + regs 4 + BitVec.ofInt 64 n)
    (hcheck : Cond.gt.holds (regs 6) (regs 3) = false) :
    (regs 4).toNat + n ≤ dataEnd.toNat - data.toNat := by
  have hindex := h.index
  have hdata := data.isLt
  have hend := dataEnd.isLt
  have hstop : (regs 3).toNat = dataEnd.toNat := by
    rw [h.stop, BitVec.toNat_setWidth]
    omega
  have hreach : (regs 6).toNat = data.toNat + (regs 4).toNat + n := by
    rw [hlimit, h.start, BitVec.toNat_add, BitVec.toNat_add, BitVec.toNat_setWidth,
      BitVec.ofInt_natCast, BitVec.toNat_ofNat]
    omega
  rw [Cond.holds, decide_eq_false_iff_not, hreach, hstop] at hcheck
  omega

/-- A comparison writes `R7` at most, and goes on to the next instruction or to `next`. -/
def StaysIn (next i : Nat) (insn : BpfInsn) : Prop :=
  (∀ r ∈ insn.decode.writes, r = 7) ∧
    ∀ j : Nat, (j : Int) ∈ insn.decode.succs i → j = i + 1 ∨ j = next

theorem eachAt_staysIn_byteChecks {next pc : Nat} {bytes : List (UInt8 × Nat)}
    (hnext : next < 2 ^ 15) (hpc : pc + 2 * bytes.length ≤ 2 ^ 15) :
    EachAt (StaysIn next) pc (byteChecks (mismatchJump next) pc bytes) := by
  refine .assemble (length_byteCheck _) ?_
  intro p item hmem
  have hbounds := (placed_bounds hmem).2
  rw [extent_const] at hbounds
  have htarget : ((p + 1 : Nat) : Int) + 1 + (jumpOffset (p + 1) next).toInt = next :=
    jumpOffset_target (by omega) hnext
  refine .cons ⟨?_, ?_⟩ (.cons ⟨?_, ?_⟩ .nil)
  · simp [Instr.writes]
  · intro j hj
    simp only [decode_loadByte, Instr.succs, List.mem_singleton] at hj
    omega
  · simp [mismatchJump, Instr.writes]
  · intro j hj
    simp only [mismatchJump, decode_jumpNe, Instr.succs, List.mem_pair] at hj
    omega

variable {content : Nat → UInt8} {pattern : List UInt8} {regs : Regs} {t : State}

/-- The two loads and the first index. -/
theorem lowers_setup (code : SearchCode prog pattern) {pc : Nat} (hpc : pc < 3)
    (h : SearchAt ctx data dataEnd pattern.length pc regs)
    (hstep : step prog (contextMemory content ctx data dataEnd) ⟨pc, regs⟩ = .running t) :
    Lowers ctx data dataEnd pattern.length ⟨pc, regs⟩ t := by
  cases h with
  | loadData hctx =>
    obtain rfl := eq_of_step_ldx code.head.head (load_data content data dataEnd hctx) hstep
    refine .forward (.loadDataEnd ?_ ?_) (Nat.le_refl _) (by omega) (by omega) (by omega)
    · rw [Function.update_of_ne (by decide), hctx]
    · exact Function.update_self _ _ _
  | loadDataEnd hctx hstart =>
    obtain rfl := eq_of_step_ldx code.head.tail.head (load_dataEnd content data dataEnd hctx) hstep
    refine .forward (.setIndex ?_ ?_) (Nat.le_refl _) (by omega) (by omega) (by omega)
    · rw [Function.update_of_ne (by decide), hstart]
    · exact Function.update_self _ _ _
  | setIndex hstart hstop =>
    obtain rfl := eq_of_step_mov code.head.tail.tail.head hstep
    refine .forward (.head ⟨?_, ?_, ?_⟩) (Nat.sub_le _ _) (by omega) (by omega) (by omega)
    · rw [Function.update_of_ne (by decide), hstart]
    · rw [Function.update_of_ne (by decide), hstop]
    · rw [Function.update_self]
      exact Nat.zero_le _
  | _ => omega

/-- The head of the loop, up to the bounds check. -/
theorem lowers_head (code : SearchCode prog pattern)
    (hlen : pattern.length ≤ MAX_BPF_PATTERN_LEN) {pc : Nat} (hlow : 3 ≤ pc) (hhigh : pc < 8)
    (h : SearchAt ctx data dataEnd pattern.length pc regs)
    (hstep : step prog mem ⟨pc, regs⟩ = .running t) :
    Lowers ctx data dataEnd pattern.length ⟨pc, regs⟩ t := by
  have hhead := code.head.tail.tail.tail
  cases h with
  | head hloop =>
    obtain rfl := eq_of_step_mov hhead.head hstep
    refine .inLoop (.advance (hloop.update (by decide) (by decide) (by decide)) ?_)
      ?_ hlow (by omega) (by omega) (by omega)
    · rw [Function.update_self, Function.update_of_ne (by decide)]
      rfl
    · exact Function.update_of_ne (by decide) _ _
  | advance hloop hpointer =>
    obtain rfl := eq_of_step_add hhead.tail.head hstep
    refine .inLoop (.copy (hloop.update (by decide) (by decide) (by decide)) ?_)
      ?_ hlow (by omega) (by omega) (by omega)
    · rw [Function.update_self, Function.update_of_ne (by decide), Function.update_of_ne (by decide),
        hpointer]
      rfl
    · exact Function.update_of_ne (by decide) _ _
  | copy hloop hpointer =>
    obtain rfl := eq_of_step_mov hhead.tail.tail.head hstep
    refine .inLoop (.addLength (hloop.update (by decide) (by decide) (by decide)) ?_)
      ?_ hlow (by omega) (by omega) (by omega)
    · rw [Function.update_self, Function.update_of_ne (by decide), Function.update_of_ne (by decide)]
      exact hpointer
    · exact Function.update_of_ne (by decide) _ _
  | addLength hloop hlimit =>
    obtain rfl := eq_of_step_add hhead.tail.tail.tail.head hstep
    refine .inLoop (.check (hloop.update (by decide) (by decide) (by decide)) ?_)
      ?_ hlow (by omega) (by omega) (by omega)
    · rw [Function.update_self, Function.update_of_ne (by decide), Function.update_of_ne (by decide),
        hlimit]
      rfl
    · exact Function.update_of_ne (by decide) _ _
  | check hloop hlimit =>
    unfold MAX_BPF_PATTERN_LEN at hlen
    have htarget : ((7 : Nat) : Int) + 1 + (jumpOffset 7 (12 + 2 * pattern.length)).toInt =
        (12 + 2 * pattern.length : Nat) := jumpOffset_target (by omega) (by omega)
    rcases eq_of_step_jcc hhead.tail.tail.tail.tail.head htarget hstep with
      ⟨-, rfl⟩ | ⟨hfits, rfl⟩
    · exact .inLoop (.done (Nat.le_refl _) (by omega)) rfl hlow (by omega) (by omega) (by omega)
    · refine .inLoop (.body (by omega) (by omega) hloop ?_) rfl hlow (by omega) (by omega) (by omega)
      exact hloop.fits hlen hlimit hfits
  | _ => omega

/-- The comparisons leave the loop registers alone. -/
theorem lowers_checks (code : SearchCode prog pattern)
    (hlen : pattern.length ≤ MAX_BPF_PATTERN_LEN) {pc : Nat} (hlow : 8 ≤ pc)
    (hhigh : pc < 8 + 2 * pattern.length) (hloop : LoopRegs data dataEnd regs)
    (hinside : (regs 4).toNat + pattern.length ≤ dataEnd.toNat - data.toNat)
    (hstep : step prog mem ⟨pc, regs⟩ = .running t) :
    Lowers ctx data dataEnd pattern.length ⟨pc, regs⟩ t := by
  unfold MAX_BPF_PATTERN_LEN at hlen
  obtain ⟨k, rfl⟩ := Nat.exists_eq_add_of_le hlow
  obtain ⟨instr, hinstr, hexec⟩ := step_running hstep
  have hcode := code.checks k (by
    rw [List.length_map, length_byteChecks, List.length_zipIdx]
    omega)
  rw [hinstr, List.getElem?_map, eq_comm, Option.map_eq_some_iff] at hcode
  obtain ⟨insn, hinsn, rfl⟩ := hcode
  have hstays : EachAt (StaysIn (10 + 2 * pattern.length)) 8
      (byteChecks (mismatchJump (10 + 2 * pattern.length)) 8 pattern.zipIdx) :=
    eachAt_staysIn_byteChecks (by omega) (by rw [List.length_zipIdx]; omega)
  obtain ⟨hwrites, hsuccs⟩ := hstays k insn hinsn
  obtain ⟨hpc, hframe⟩ := Instr.exec_running hexec
  have hkeep : ∀ r, r ≠ 7 → t.regs r = regs r := fun r hr => hframe r (mt (hwrites r) hr)
  have hnext := hsuccs t.pc hpc
  have hloop' : LoopRegs data dataEnd t.regs :=
    hloop.of_agree (hkeep 2 (by decide)) (hkeep 3 (by decide)) (hkeep 4 (by decide))
  have hinside' : (t.regs 4).toNat + pattern.length ≤ dataEnd.toNat - data.toNat := by
    rw [hkeep 4 (by decide)]
    exact hinside
  exact .inLoop (.body (by omega) (by omega) hloop' hinside') (hkeep 4 (by decide)) (by omega)
    (by omega) (by omega) (by omega)

/-- A mismatch moves on to the next index, of which there is one less. -/
theorem lowers_addIndex (code : SearchCode prog pattern) (hne : pattern ≠ [])
    (hloop : LoopRegs data dataEnd regs)
    (hinside : (regs 4).toNat + pattern.length ≤ dataEnd.toNat - data.toNat)
    (hstep : step prog mem ⟨10 + 2 * pattern.length, regs⟩ = .running t) :
    Lowers ctx data dataEnd pattern.length ⟨10 + 2 * pattern.length, regs⟩ t := by
  obtain rfl := eq_of_step_add code.again.head hstep
  have hpos : 0 < pattern.length := List.length_pos_iff.mpr hne
  have hend := dataEnd.isLt
  have hindex : (Function.update regs 4 (regs 4 + Src.eval regs (.imm 1)) 4).toNat =
      (regs 4).toNat + 1 := by
    rw [Function.update_self, BitVec.toNat_add, Src.eval, show (BitVec.ofInt 64 1).toNat = 1 from rfl]
    omega
  have hloop' : LoopRegs data dataEnd (Function.update regs 4 (regs 4 + Src.eval regs (.imm 1))) := by
    refine ⟨?_, ?_, ?_⟩
    · rw [Function.update_of_ne (by decide), hloop.start]
    · rw [Function.update_of_ne (by decide), hloop.stop]
    · rw [hindex]
      omega
  rw [show 10 + 2 * pattern.length + 1 = 11 + 2 * pattern.length by omega]
  refine ⟨.again hloop', ?_⟩
  have hone : dataEnd.toNat - data.toNat - (regs 4).toNat =
      dataEnd.toNat - data.toNat - ((regs 4).toNat + 1) + 1 := by
    omega
  simp only [searchRank, weight_again]
  rw [weight_of_ne (by omega), indicesLeft_of_le (by omega), indicesLeft_of_le (by omega), hindex,
    hone, Nat.add_mul]
  omega

/-- The jump back to the head of the loop. -/
theorem lowers_again (code : SearchCode prog pattern)
    (hlen : pattern.length ≤ MAX_BPF_PATTERN_LEN) (hloop : LoopRegs data dataEnd regs)
    (hstep : step prog mem ⟨11 + 2 * pattern.length, regs⟩ = .running t) :
    Lowers ctx data dataEnd pattern.length ⟨11 + 2 * pattern.length, regs⟩ t := by
  have hcode := code.again.tail.head
  have htarget := jumpBack_target hlen
  rw [show 10 + 2 * pattern.length + 1 = 11 + 2 * pattern.length by omega] at hcode htarget
  obtain rfl := eq_of_step_ja hcode htarget hstep
  refine ⟨.head hloop, ?_⟩
  simp only [searchRank, weight_again]
  rw [weight_of_ne (by omega), indicesLeft_of_le (by omega), indicesLeft_of_le (by omega)]
  omega

/-- A result is set, and the program exits. -/
theorem lowers_ret {pc : Nat} {value : Int} (code : CodeAt prog pc [.mov 0 (.imm value), .exit])
    (hat : ∀ regs', (∀ r, r ≠ 0 → regs' r = regs r) →
      SearchAt ctx data dataEnd n (pc + 1) regs')
    (hpc : 3 ≤ pc) (hne : pc ≠ 10 + 2 * n) (hle : pc ≤ 12 + 2 * n)
    (hstep : step prog mem ⟨pc, regs⟩ = .running t) :
    Lowers ctx data dataEnd n ⟨pc, regs⟩ t := by
  obtain rfl := eq_of_step_mov code.head hstep
  exact .inLoop (hat _ fun r hr => Function.update_of_ne hr _ _)
    (Function.update_of_ne (by decide) _ _) hpc (by omega) (by omega) (by omega)

theorem lowers_search (code : SearchCode prog pattern) (hne : pattern ≠ [])
    (hlen : pattern.length ≤ MAX_BPF_PATTERN_LEN) {pc : Nat}
    (h : SearchAt ctx data dataEnd pattern.length pc regs)
    (hstep : step prog (contextMemory content ctx data dataEnd) ⟨pc, regs⟩ = .running t) :
    Lowers ctx data dataEnd pattern.length ⟨pc, regs⟩ t := by
  by_cases hsetup : pc < 3
  · exact lowers_setup code hsetup h hstep
  by_cases hhead : pc < 8
  · exact lowers_head code hlen (Nat.not_lt.mp hsetup) hhead h hstep
  cases h with
  | body hlow hhigh hloop hinside =>
    by_cases hchecks : pc < 8 + 2 * pattern.length
    · exact lowers_checks code hlen hlow hchecks hloop hinside hstep
    by_cases hmov : pc = 8 + 2 * pattern.length
    · subst hmov
      refine lowers_ret code.found ?_ (by omega) (by omega) (by omega) hstep
      intro regs' hsame
      refine .body (by omega) (by omega) (hloop.of_agree (hsame 2 (by decide))
        (hsame 3 (by decide)) (hsame 4 (by decide))) ?_
      rw [hsame 4 (by decide)]
      exact hinside
    by_cases hexit : pc = 8 + 2 * pattern.length + 1
    · subst hexit
      rw [step_at code.found.tail.head] at hstep
      cases hstep
    obtain rfl : pc = 10 + 2 * pattern.length := by omega
    exact lowers_addIndex code hne hloop hinside hstep
  | again hloop => exact lowers_again code hlen hloop hstep
  | done hlow hhigh =>
    by_cases hmov : pc = 12 + 2 * pattern.length
    · subst hmov
      exact lowers_ret code.fail (fun _ _ => .done (by omega) (by omega)) (by omega) (by omega)
        (by omega) hstep
    obtain rfl : pc = 12 + 2 * pattern.length + 1 := by omega
    rw [step_at code.fail.tail.head] at hstep
    cases hstep
  | _ => omega

end Search

/-! ## Every compiled program -/

theorem forward_halts {prog : Prog}
    (h : ControlFlowSafe prog ∧ ∀ i, ¬ BackwardJump prog i) (mem : Memory) (regs : Regs) :
    HaltsWithin (decodeProgram prog) mem ⟨0, regs⟩ prog.length := by
  have hpos : 0 < prog.length := by
    have hlast := h.1.last
    rw [List.getLast?_eq_getElem?] at hlast
    have := (List.getElem?_eq_some_iff.mp hlast).1
    omega
  have hlength : (decodeProgram prog).length = prog.length := List.length_map _
  have hhalts : HaltsWithin (decodeProgram prog) mem ⟨0, regs⟩ ((decodeProgram prog).length - 0) :=
    (forward_of_safe h.1 h.2).halts (by rwa [hlength])
  rwa [hlength] at hhalts

/-- A search tries each index once, and runs the loop once more to see that it is past the end. -/
theorem literalProgram_halts {pattern : List UInt8} (hne : pattern ≠ [])
    (hlen : pattern.length ≤ MAX_BPF_PATTERN_LEN) (content : Nat → UInt8) (data dataEnd : BitVec 32)
    (regs : Regs) :
    HaltsWithin (decodeProgram (literalProgram pattern))
      (contextMemory content (regs 1) data dataEnd) ⟨0, regs⟩
      ((dataEnd.toNat - data.toNat + 1) * (literalProgram pattern).length) := by
  have code := searchCode_literalProgram hlen
  have hranking : Ranking (decodeProgram (literalProgram pattern))
      (contextMemory content (regs 1) data dataEnd)
      (fun s => SearchAt (regs 1) data dataEnd pattern.length s.pc s.regs)
      (searchRank data dataEnd pattern.length) :=
    ⟨fun _ _ h hstep => (lowers_search code hne hlen h hstep).1,
      fun _ _ h hstep => (lowers_search code hne hlen h hstep).2⟩
  have hhalts := hranking.halts (s := ⟨0, regs⟩) (.loadData rfl)
  have hrank : searchRank data dataEnd pattern.length ⟨0, regs⟩ + 1 =
      (dataEnd.toNat - data.toNat + 1) * (literalProgram pattern).length := by
    have hweight : weight pattern.length 0 = 13 + 2 * pattern.length := weight_of_ne (by omega)
    have hleft : indicesLeft data dataEnd 0 regs = dataEnd.toNat - data.toNat := if_pos (by decide)
    rw [length_literalProgram, searchRank, hweight, hleft, Nat.add_mul]
    omega
  rwa [hrank] at hhalts

/-- How long a compiled program can run. A search comes to its answer within a
    number of steps that is linear in the buffer; the other programs do not run
    any instruction twice, whatever their registers and memory hold. -/
def Request.RunsWithin (prog : Prog) : Request → Prop
  | .literalSearch pattern => ∀ (content : Nat → UInt8) (data dataEnd : BitVec 32) (regs : Regs),
    ∃ n ≤ (dataEnd.toNat - data.toNat + 1) * prog.length, ∃ t,
      run (decodeProgram prog) (contextMemory content (regs 1) data dataEnd) n ⟨0, regs⟩ =
        .exited t ∧
      t.regs 0 = if pattern <:+: bytesBetween content data.toNat dataEnd.toNat then 1 else 0
  | _ => ∀ (mem : Memory) (regs : Regs),
    HaltsWithin (decodeProgram prog) mem ⟨0, regs⟩ prog.length

theorem compile_runsWithin (u : Usize) (req : Request) (prog : Prog)
    (h : req.compile u = .ok prog) : req.RunsWithin prog := by
  cases Request.shape h with
  | emptyLiteral =>
    intro content data dataEnd regs
    obtain ⟨n, hn, hexits⟩ := (exits_emptyLiteralProgram content data dataEnd regs).within
      (forward_halts emptyLiteralProgram_safe _ regs)
    exact ⟨n, hn.trans (Nat.le_mul_of_pos_left _ (Nat.succ_pos _)), hexits⟩
  | literal hne hlen =>
    intro content data dataEnd regs
    exact (exits_literalProgram content data dataEnd hne hlen regs).within
      (literalProgram_halts hne hlen content data dataEnd regs)
  | constant value => exact forward_halts (ret_safe value)
  | alternation hne hlimit => exact forward_halts (altProgram_safe hne hlimit)
  | charClass hne hlimit => exact forward_halts (classProgram_safe hne hlimit)
  | emptyText => exact forward_halts (ret_safe 0)
  | text hne hlimit => exact forward_halts (classProgram_safe hne hlimit)

/-- A search for `ab`. -/
theorem compile_runsWithin_ab :
    (Request.literalSearch [0x61, 0x62]).compile (.wrapping .bits64) =
        .ok (literalProgram [0x61, 0x62]) ∧
      (Request.literalSearch [0x61, 0x62]).RunsWithin (literalProgram [0x61, 0x62]) := by
  have hok : (Request.literalSearch [0x61, 0x62]).compile (.wrapping .bits64) =
      .ok (literalProgram [0x61, 0x62]) := by decide
  exact ⟨hok, compile_runsWithin (.wrapping .bits64) (.literalSearch [0x61, 0x62]) _ hok⟩

end Ebpfkit
