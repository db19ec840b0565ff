-- SUMMARY: Compiled programs pass the control-flow checks of a verifier: jumps in range, no dead code, no falling off the end.
import Ebpfkit.Bpf.ControlFlow
import Ebpfkit.Compiler.LiteralSearch

/-!
# Control flow of compiled programs

The compile functions are four entries to three program shapes. `Request` names
the entries, so that what holds of every compiled program is said once.
-/

namespace Ebpfkit

open Bpf

/-- What the compiler can be asked to compile. -/
inductive Request where
  | literalSearch (pattern : List UInt8)
  | alternation (alternatives : List (List UInt8))
  | charClass (ranges : List CharRange)
  | characterClass (text : List UInt8)
  deriving DecidableEq, Repr

def Request.compile (u : Usize) : Request → Outcome CompileError Prog
  | .literalSearch pattern => compileLiteralSearch u pattern
  | .alternation alternatives => compileAlternation u alternatives
  | .charClass ranges => compileCharClass u ranges
  | .characterClass text => compileCharacterClass u text

/-- The programs a request can compile to, with what the gates ensured. -/
inductive Shape : Request → Prog → Prop where
  | emptyLiteral : Shape (.literalSearch []) emptyLiteralProgram
  | literal {pattern : List UInt8} (hne : pattern ≠ [])
      (hlen : pattern.length ≤ MAX_BPF_PATTERN_LEN) :
      Shape (.literalSearch pattern) (literalProgram pattern)
  | constant {alternatives : List (List UInt8)} (value : Int32) :
      Shape (.alternation alternatives) (ret value)
  | alternation {alternatives : List (List UInt8)} (hne : alternatives ≠ [])
      (hlimit : extent altSize alternatives + 4 ≤ MAX_BPF_INSTRUCTION_LEN) :
      Shape (.alternation alternatives) (altProgram alternatives)
  | charClass {ranges : List CharRange} (hne : ranges ≠ [])
      (hlimit : 2 * ranges.length + 4 ≤ MAX_BPF_INSTRUCTION_LEN) :
      Shape (.charClass ranges) (classProgram ranges)
  | emptyText {text : List UInt8} : Shape (.characterClass text) (ret 0)
  | text {text : List UInt8} {ranges : List CharRange} (hne : ranges ≠ [])
      (hlimit : 2 * ranges.length + 4 ≤ MAX_BPF_INSTRUCTION_LEN) :
      Shape (.characterClass text) (classProgram ranges)

theorem Request.shape {u : Usize} {req : Request} {prog : Prog}
    (h : req.compile u = .ok prog) : Shape req prog := by
  cases req with
  | literalSearch pattern =>
    obtain ⟨hlen, rfl⟩ := compileLiteralSearch_eq_ok h
    cases pattern with
    | nil => exact .emptyLiteral
    | cons b bs => exact .literal (List.cons_ne_nil b bs) hlen
  | alternation alternatives =>
    rcases compileAlternation_eq_ok h with ⟨-, rfl⟩ | ⟨-, rfl⟩ | ⟨-, hne, hlimit, rfl⟩
    · exact .constant 0
    · exact .constant 1
    · exact .alternation hne hlimit
  | charClass ranges =>
    obtain ⟨hne, -, hlimit, rfl⟩ := compileCharClass_eq_ok h
    exact .charClass hne hlimit
  | characterClass text =>
    rcases compileCharacterClass_eq_ok h with rfl | ⟨ranges, hne, hlimit, rfl⟩
    · exact .emptyText
    · exact .text hne hlimit

/-! ## Jumps -/

/-- A jump at address `i` of a program of `n` instructions goes to one of them,
    and past the next one unless it is an unconditional jump that may go back. -/
def JumpsInto (n : Nat) (mayGoBack : Nat → Prop) (i : Nat) (insn : BpfInsn) : Prop :=
  insn.isJump = true → ∃ target, target < n ∧ insn.off = jumpOffset i target ∧
    (i + 1 < target ∨ target ≤ i ∧ mayGoBack i ∧ insn.code = BPF_JMP ||| BPF_JA)

section Jumps

variable {n : Nat} {mayGoBack : Nat → Prop} {pc : Nat}

theorem JumpsInto.of_not_isJump {insn : BpfInsn} (h : insn.isJump = false) :
    JumpsInto n mayGoBack pc insn := by
  intro hjump
  rw [h] at hjump
  cases hjump

theorem JumpsInto.forward {insn : BpfInsn} (target : Nat) (htarget : target < n)
    (hoff : insn.off = jumpOffset pc target) (h : pc + 1 < target) :
    JumpsInto n mayGoBack pc insn := by
  intro _
  exact ⟨target, htarget, hoff, .inl h⟩

theorem isJump_mov (dst : UInt8) (imm : Int32) : (alu64Imm BPF_MOV dst imm).isJump = false := by
  simp +decide [BpfInsn.isJump, alu64Imm, BpfInsn.new]

theorem isJump_add (dst : UInt8) (imm : Int32) : (alu64Imm BPF_ADD dst imm).isJump = false := by
  simp +decide [BpfInsn.isJump, alu64Imm, BpfInsn.new]

theorem isJump_loadByte (dst src : UInt8) (off : Int16) :
    (ldxMem BPF_B dst src off).isJump = false := by
  simp +decide [BpfInsn.isJump, ldxMem, BpfInsn.new]

theorem isJump_loadWord (dst src : UInt8) (off : Int16) :
    (ldxMem BPF_W dst src off).isJump = false := by
  simp +decide [BpfInsn.isJump, ldxMem, BpfInsn.new]

theorem eachAt_jumps_ret (value : Int32) : EachAt (JumpsInto n mayGoBack) pc (ret value) :=
  .cons (.of_not_isJump (isJump_mov _ _)) (.cons (.of_not_isJump rfl) .nil)

theorem eachAt_jumps_byteChecks {next : Nat} {bytes : List (UInt8 × Nat)} (hnext : next < n)
    (hpc : pc + 2 * bytes.length < next) :
    EachAt (JumpsInto n mayGoBack) pc (byteChecks (mismatchJump next) pc bytes) := by
  refine .assemble (length_byteCheck _) ?_
  intro p item hmem
  have hbounds := (placed_bounds hmem).2
  rw [extent_const] at hbounds
  exact .cons (.of_not_isJump (isJump_loadByte _ _ _)) (.cons (.forward _ hnext rfl (by omega)) .nil)

theorem eachAt_jumps_literalProgram (pattern : List UInt8) :
    EachAt (JumpsInto (14 + 2 * pattern.length) (· = 11 + 2 * pattern.length)) 0
      (literalProgram pattern) := by
  have hlen : ∀ compare, (byteChecks compare 8 pattern.zipIdx).length = 2 * pattern.length := by
    intro compare
    rw [length_byteChecks, List.length_zipIdx]
  refine .append ?_ (.append ?_ (.append (.append (eachAt_jumps_ret 1) ?_) (eachAt_jumps_ret 0)))
  · refine .cons (.of_not_isJump (isJump_loadWord _ _ _)) (.cons (.of_not_isJump (isJump_loadWord _ _ _))
      (.cons (.of_not_isJump (isJump_mov _ _)) (.cons (.of_not_isJump rfl)
        (.cons (.of_not_isJump rfl) (.cons (.of_not_isJump rfl)
          (.cons (.of_not_isJump (isJump_add _ _)) (.cons ?_ .nil)))))))
    exact .forward _ (by omega) rfl (by omega)
  · refine eachAt_jumps_byteChecks (by omega) ?_
    rw [List.length_zipIdx]
    simp only [literalHead, List.length_cons, List.length_nil]
    omega
  · -- The only jump of the program that goes back.
    refine .cons (.of_not_isJump (isJump_add _ _)) (.cons ?_ .nil)
    simp only [literalHead, hlen, length_ret, List.length_cons, List.length_nil]
    rw [show 0 + (0 + 1 + 1 + 1 + 1 + 1 + 1 + 1 + 1) + 2 * pattern.length + 2 + 1 =
      11 + 2 * pattern.length by omega]
    intro _
    exact ⟨3, by omega, rfl, .inr ⟨by omega, rfl, rfl⟩⟩

theorem eachAt_jumps_emptyLiteralProgram :
    EachAt (JumpsInto 4 fun _ => False) 0 emptyLiteralProgram :=
  .cons (.of_not_isJump rfl) (.cons (.of_not_isJump rfl) (eachAt_jumps_ret 1))

theorem eachAt_jumps_altProgram (alternatives : List (List UInt8)) :
    EachAt (JumpsInto (extent altSize alternatives + 4) fun _ => False) 0
      (altProgram alternatives) := by
  refine .append (.assemble (length_altBlock _) ?_)
    (.append (eachAt_jumps_ret 0) (eachAt_jumps_ret 1))
  intro p alt hmem
  have hbounds := (placed_bounds hmem).2
  have hsize : altSize alt = 4 + 2 * alt.length := rfl
  refine .append ?_ (.append ?_ ?_)
  · refine .cons (.of_not_isJump rfl) (.cons (.of_not_isJump (isJump_add _ _)) (.cons ?_ .nil))
    exact .forward _ (by omega) rfl (by omega)
  · refine eachAt_jumps_byteChecks (by omega) ?_
    rw [List.length_zipIdx]
    simp only [List.length_cons, List.length_nil]
    omega
  · refine .cons ?_ .nil
    simp only [length_byteChecks, List.length_zipIdx, List.length_cons, List.length_nil]
    exact .forward _ (by omega) rfl (by omega)

theorem eachAt_jumps_classProgram (ranges : List CharRange) :
    EachAt (JumpsInto (2 * ranges.length + 4) fun _ => False) 0 (classProgram ranges) := by
  refine .append (.assemble (length_rangeCheck _) ?_)
    (.append (eachAt_jumps_ret 0) (eachAt_jumps_ret 1))
  intro p r hmem
  have hbounds := (placed_bounds hmem).2
  rw [extent_const] at hbounds
  refine .cons ?_ (.cons ?_ .nil)
  · refine .forward (p + 2) (by omega) ?_ (by omega)
    rw [← ofNat_sub_eq_jumpOffset (by omega), Nat.add_sub_cancel_left]
    rfl
  · exact .forward _ (by omega) rfl (by omega)

end Jumps

/-! ## Connectedness -/

section Connected

variable {prog : Program}

theorem mem_byteChecks {next pc : Nat} {bytes : List (UInt8 × Nat)} {instr : Instr}
    (h : instr ∈ (byteChecks (mismatchJump next) pc bytes).map BpfInsn.decode) :
    (∃ off, instr = .ldx .byte 7 5 off) ∨ ∃ k off, instr = .jcc .ne 7 (.imm k) off := by
  have hforms : ∀ insn ∈ byteChecks (mismatchJump next) pc bytes,
      (∃ off, insn.decode = .ldx .byte 7 5 off) ∨
        ∃ k off, insn.decode = .jcc .ne 7 (.imm k) off := by
    refine forall_mem_assemble ?_
    intro p item insn hmem
    rcases List.mem_pair.mp hmem with rfl | rfl
    · exact .inl ⟨_, decode_loadByte _⟩
    · exact .inr ⟨_, _, decode_jumpNe _ _⟩
  obtain ⟨insn, hmem, rfl⟩ := List.mem_map.mp h
  exact hforms insn hmem

theorem mem_rangeChecks {success pc : Nat} {ranges : List CharRange} {instr : Instr}
    (h : instr ∈ (assemble (fun _ => 2) (rangeCheck success) pc ranges).map BpfInsn.decode) :
    ∃ cond k off, instr = .jcc cond 7 (.imm k) off := by
  have hforms : ∀ insn ∈ assemble (fun _ => 2) (rangeCheck success) pc ranges,
      ∃ cond k off, insn.decode = .jcc cond 7 (.imm k) off := by
    refine forall_mem_assemble ?_
    intro p r insn hmem
    rcases List.mem_pair.mp hmem with rfl | rfl
    · exact ⟨_, _, _, decode_jumpLt _ _⟩
    · exact ⟨_, _, _, decode_jumpLe _ _⟩
  obtain ⟨insn, hmem, rfl⟩ := List.mem_map.mp h
  exact hforms insn hmem

theorem fallsThrough_byteChecks (next pc : Nat) (bytes : List (UInt8 × Nat)) :
    ∀ instr ∈ (byteChecks (mismatchJump next) pc bytes).map BpfInsn.decode,
      instr.fallsThrough = true := by
  intro instr hmem
  rcases mem_byteChecks hmem with ⟨off, rfl⟩ | ⟨k, off, rfl⟩
  · rfl
  · rfl

/-- Putting the result into `R0` leads to the exit. -/
theorem connected_ret {pc : Nat} {k : Int} (hcode : CodeAt prog pc [.mov 0 (.imm k), .exit])
    (h : Connected prog pc) : Connected prog (pc + 1) :=
  h.step hcode.head (by simp [Instr.succs])

theorem connected_jump {pc target : Nat} {cond : Cond} {dst : Reg} {src : Src}
    (hcode : prog[pc]? = some (.jcc cond dst src (jumpOffset pc target).toInt))
    (h : Connected prog pc) (hpc : pc < 2 ^ 15) (htarget : target < 2 ^ 15) :
    Connected prog target := by
  refine h.step hcode ?_
  simp [Instr.succs, ← jumpOffset_target hpc htarget]

theorem connected_mismatch {next pc : Nat} {bytes : List (UInt8 × Nat)} (hne : bytes ≠ [])
    (hcode : CodeAt prog pc ((byteChecks (mismatchJump next) pc bytes).map BpfInsn.decode))
    (h : Connected prog pc) (hpc : pc + 1 < 2 ^ 15) (hnext : next < 2 ^ 15) :
    Connected prog next := by
  cases bytes with
  | nil => exact absurd rfl hne
  | cons item bytes =>
    simp only [byteChecks, assemble, byteCheck, mismatchJump, List.map_cons, decode_loadByte,
      decode_jumpNe, List.cons_append, List.nil_append] at hcode
    have hcompare : Connected prog (pc + 1) := h.step hcode.head (by simp [Instr.succs])
    exact connected_jump hcode.tail.head hcompare hpc hnext

theorem connected_literalProgram {pattern : List UInt8} (hne : pattern ≠ [])
    (hlen : pattern.length ≤ MAX_BPF_PATTERN_LEN) {i : Nat} (hi : i < 14 + 2 * pattern.length) :
    Connected (decodeProgram (literalProgram pattern)) i := by
  have code := searchCode_literalProgram hlen
  unfold MAX_BPF_PATTERN_LEN at hlen
  have hhead : ∀ k, k ≤ 8 → Connected (decodeProgram (literalProgram pattern)) k := by
    intro k hk
    have := Connected.entry.straight code.head (by simp [Instr.fallsThrough]) hk
    rwa [Nat.zero_add] at this
  have hchecks : ∀ k, k ≤ 2 * pattern.length →
      Connected (decodeProgram (literalProgram pattern)) (8 + k) := by
    intro k hk
    refine (hhead 8 (Nat.le_refl 8)).straight code.checks (fallsThrough_byteChecks _ _ _) ?_
    rwa [List.length_map, length_byteChecks, List.length_zipIdx]
  have hpos : 0 < pattern.length := List.length_pos_iff.mpr hne
  -- The first comparison already leads to the next iteration.
  have hagain : Connected (decodeProgram (literalProgram pattern)) (10 + 2 * pattern.length) := by
    refine connected_mismatch ?_ code.checks (hhead 8 (Nat.le_refl 8)) (by omega) (by omega)
    exact fun hnil => hne (List.zipIdx_eq_nil_iff.mp hnil)
  have hfail : Connected (decodeProgram (literalProgram pattern)) (12 + 2 * pattern.length) :=
    connected_jump code.head.tail.tail.tail.tail.tail.tail.tail.head (hhead 7 (by omega))
      (by omega) (by omega)
  have hlast : Connected (decodeProgram (literalProgram pattern)) (11 + 2 * pattern.length) := by
    have := hagain.step code.again.head (j := 10 + 2 * pattern.length + 1) (by simp [Instr.succs])
    rwa [Nat.add_right_comm] at this
  have hcases : i ≤ 8 ∨ (8 ≤ i ∧ i ≤ 8 + 2 * pattern.length) ∨ i = 8 + 2 * pattern.length + 1 ∨
      i = 10 + 2 * pattern.length ∨ i = 11 + 2 * pattern.length ∨ i = 12 + 2 * pattern.length ∨
      i = 12 + 2 * pattern.length + 1 := by omega
  rcases hcases with h | ⟨hlo, hhi⟩ | rfl | rfl | rfl | rfl | rfl
  · exact hhead i h
  · have := hchecks (i - 8) (by omega)
    rwa [Nat.add_sub_cancel' hlo] at this
  · exact connected_ret code.found (hchecks _ (Nat.le_refl _))
  · exact hagain
  · exact hlast
  · exact hfail
  · exact connected_ret code.fail hfail

theorem connected_emptyLiteralProgram {i : Nat} (hi : i < 4) :
    Connected (decodeProgram emptyLiteralProgram) i := by
  have hcode : CodeAt (decodeProgram emptyLiteralProgram) 0
      ([.ldx .word 2 1 0, .ldx .word 3 1 4, .mov 0 (.imm 1)] ++ [.exit]) := CodeAt.refl _
  have := Connected.entry.straight hcode.left (by simp [Instr.fallsThrough])
    (Nat.le_of_lt_succ hi)
  rwa [Nat.zero_add] at this

theorem connected_decode_ret (value : Int32) {i : Nat} (hi : i < 2) :
    Connected (decodeProgram (ret value)) i := by
  have hcode : CodeAt (decodeProgram (ret value)) 0 ((ret value).map BpfInsn.decode) :=
    CodeAt.refl _
  rw [decode_ret] at hcode
  have hcases : i = 0 ∨ i = 0 + 1 := by omega
  rcases hcases with rfl | rfl
  · exact Connected.entry
  · exact connected_ret hcode Connected.entry

/-- A connected block is connected throughout, and so are both its exits. -/
theorem connected_altBlock {alt : List UInt8} {success pc : Nat}
    (hcode : CodeAt prog pc ((altBlock success pc alt).map BpfInsn.decode))
    (hpc : pc + altSize alt < 2 ^ 15) (hsuccess : success < 2 ^ 15) (h : Connected prog pc) :
    (∀ k, k ≤ altSize alt → Connected prog (pc + k)) ∧ Connected prog success := by
  have hsize : altSize alt = 4 + 2 * alt.length := rfl
  obtain ⟨hhead, hchecks, hmatch⟩ := altBlockCode hcode
  have hstart : ∀ k, k ≤ 3 → Connected prog (pc + k) := fun k hk =>
    h.straight hhead (by simp [Instr.fallsThrough]) hk
  have hmiddle : ∀ k, k ≤ 2 * alt.length → Connected prog (pc + 3 + k) := by
    intro k hk
    refine (hstart 3 (Nat.le_refl 3)).straight hchecks (fallsThrough_byteChecks _ _ _) ?_
    rwa [List.length_map, length_byteChecks, List.length_zipIdx]
  have hnext : Connected prog (pc + altSize alt) :=
    connected_jump hhead.tail.tail.head (hstart 2 (by omega)) (by omega) hpc
  refine ⟨?_, ?_⟩
  · intro k hk
    have hcases : k ≤ 3 ∨ (3 ≤ k ∧ k - 3 ≤ 2 * alt.length) ∨ k = altSize alt := by omega
    rcases hcases with h3 | ⟨hlo, hhi⟩ | rfl
    · exact hstart k h3
    · have := hmiddle (k - 3) hhi
      rwa [Nat.add_assoc, Nat.add_sub_cancel' hlo] at this
    · exact hnext
  · refine (hmiddle _ (Nat.le_refl _)).step hmatch.head ?_
    simp [Instr.succs, ← jumpOffset_target (by omega : pc + 3 + 2 * alt.length < 2 ^ 15) hsuccess]

theorem connected_alternatives {alternatives : List (List UInt8)} {success pc : Nat}
    (hcode : CodeAt prog pc
      ((assemble altSize (altBlock success) pc alternatives).map BpfInsn.decode))
    (hpc : pc + extent altSize alternatives < 2 ^ 15) (hsuccess : success < 2 ^ 15)
    (h : Connected prog pc) :
    (∀ k, k ≤ extent altSize alternatives → Connected prog (pc + k)) ∧
    (alternatives ≠ [] → Connected prog success) := by
  induction alternatives generalizing pc with
  | nil =>
    refine ⟨?_, fun hne => absurd rfl hne⟩
    intro k hk
    rw [Nat.le_zero.mp hk]
    exact h
  | cons alt alternatives ih =>
    rw [assemble, List.map_append] at hcode
    rw [extent_cons] at hpc ⊢
    have hrest := hcode.right
    rw [List.length_map, length_altBlock] at hrest
    obtain ⟨hblock, hmatched⟩ := connected_altBlock hcode.left (by omega) hsuccess h
    obtain ⟨hlater, -⟩ := ih hrest (by omega) (hblock _ (Nat.le_refl _))
    refine ⟨?_, fun _ => hmatched⟩
    intro k hk
    rcases Nat.le_total k (altSize alt) with hle | hge
    · exact hblock k hle
    · have := hlater (k - altSize alt) (by omega)
      rwa [Nat.add_assoc, Nat.add_sub_cancel' hge] at this

/-- A program that ends with the two results is connected if what comes before
    them is, and leads to both. -/
theorem connected_results {body : List Instr} {n i : Nat} (code : ResultCode prog body n)
    (hbefore : ∀ k, k ≤ n → Connected prog k) (hsuccess : Connected prog (n + 2))
    (hi : i < n + 4) : Connected prog i := by
  have hcases : i ≤ n ∨ i = n + 1 ∨ i = n + 2 ∨ i = n + 2 + 1 := by omega
  rcases hcases with h | rfl | rfl | rfl
  · exact hbefore i h
  · exact connected_ret code.fail (hbefore n (Nat.le_refl n))
  · exact hsuccess
  · exact connected_ret code.success hsuccess

theorem connected_altProgram {alternatives : List (List UInt8)} (hne : alternatives ≠ [])
    (hlimit : extent altSize alternatives + 4 ≤ MAX_BPF_INSTRUCTION_LEN) {i : Nat}
    (hi : i < extent altSize alternatives + 4) :
    Connected (decodeProgram (altProgram alternatives)) i := by
  have code := resultCode_altProgram alternatives
  unfold MAX_BPF_INSTRUCTION_LEN at hlimit
  obtain ⟨hbefore, hsuccess⟩ := connected_alternatives code.body (by omega) (by omega)
    Connected.entry
  refine connected_results code ?_ (hsuccess hne) hi
  intro k hk
  have := hbefore k hk
  rwa [Nat.zero_add] at this

theorem fallsThrough_rangeChecks (success pc : Nat) (ranges : List CharRange) :
    ∀ instr ∈ (assemble (fun _ => 2) (rangeCheck success) pc ranges).map BpfInsn.decode,
      instr.fallsThrough = true := by
  intro instr hmem
  obtain ⟨cond, k, off, rfl⟩ := mem_rangeChecks hmem
  rfl

theorem connected_classProgram {ranges : List CharRange} (hne : ranges ≠ [])
    (hlimit : 2 * ranges.length + 4 ≤ MAX_BPF_INSTRUCTION_LEN) {i : Nat}
    (hi : i < 2 * ranges.length + 4) : Connected (decodeProgram (classProgram ranges)) i := by
  have code := resultCode_classProgram ranges
  unfold MAX_BPF_INSTRUCTION_LEN at hlimit
  have hbefore : ∀ k, k ≤ 2 * ranges.length →
      Connected (decodeProgram (classProgram ranges)) k := by
    intro k hk
    have := Connected.entry.straight code.body (fallsThrough_rangeChecks _ _ _) (k := k)
      (by rwa [List.length_map, length_assemble (length_rangeCheck _), extent_const])
    rwa [Nat.zero_add] at this
  refine connected_results code hbefore ?_ hi
  -- The first range already leads to the match block.
  cases ranges with
  | nil => exact absurd rfl hne
  | cons r ranges =>
    have hfirst := code.body
    simp only [assemble, rangeCheck, List.map_cons, List.cons_append, List.nil_append,
      decode_jumpLt, decode_jumpLe] at hfirst
    refine connected_jump hfirst.tail.head (hbefore 1 ?_) (by omega) (by omega)
    rw [List.length_cons]
    omega

end Connected

/-! ## Every compiled program -/

/-- What a verifier checks of the control flow of a program. Every placeholder has
    the offset zero, so a jump that has another one was patched. -/
structure ControlFlowSafe (prog : Prog) : Prop where
  jumps : ∀ (i : Nat) insn, prog[i]? = some insn → insn.isJump = true →
    0 ≤ (i : Int) + 1 + insn.off.toInt ∧ (i : Int) + 1 + insn.off.toInt < prog.length
  patched : ∀ (i : Nat) insn, prog[i]? = some insn → insn.isJump = true → insn.off.toInt ≠ 0
  last : prog.getLast? = some exit
  connected : ∀ i, i < prog.length → Connected (decodeProgram prog) i

/-- The address holds a jump to an earlier instruction or to itself. -/
def BackwardJump (prog : Prog) (i : Nat) : Prop :=
  ∃ insn, prog[i]? = some insn ∧ insn.isJump = true ∧ insn.off.toInt < 0

/-- Only a search loops, and it has a single unconditional jump to do so. -/
def Request.LoopsAtMost (prog : Prog) : Request → Prop
  | .literalSearch _ =>
    (∀ i j, BackwardJump prog i → BackwardJump prog j → i = j) ∧
    ∀ i insn, BackwardJump prog i → prog[i]? = some insn → insn.code = BPF_JMP ||| BPF_JA
  | _ => ∀ i, ¬ BackwardJump prog i

section Safe

variable {prog : Prog} {mayGoBack : Nat → Prop}

theorem ControlFlowSafe.of_eachAt (hjumps : EachAt (JumpsInto prog.length mayGoBack) 0 prog)
    (hlen : prog.length ≤ MAX_BPF_INSTRUCTION_LEN) (hlast : prog.getLast? = some exit)
    (hconnected : ∀ i, i < prog.length → Connected (decodeProgram prog) i) :
    ControlFlowSafe prog := by
  have hgoes : ∀ (i : Nat) insn, prog[i]? = some insn → insn.isJump = true →
      ∃ target, target < prog.length ∧ (i : Int) + 1 + insn.off.toInt = target ∧ target ≠ i + 1 := by
    intro i insn hget hjump
    have hi : i < prog.length := (List.getElem?_eq_some_iff.mp hget).1
    obtain ⟨target, htarget, hoff, hdirection⟩ := hjumps i insn hget hjump
    unfold MAX_BPF_INSTRUCTION_LEN at hlen
    rw [Nat.zero_add] at hoff hdirection
    refine ⟨target, htarget, ?_, by omega⟩
    rw [hoff, jumpOffset_target (by omega) (by omega)]
  refine ⟨?_, ?_, hlast, hconnected⟩
  · intro i insn hget hjump
    obtain ⟨target, htarget, heq, -⟩ := hgoes i insn hget hjump
    omega
  · intro i insn hget hjump
    obtain ⟨target, htarget, heq, hne⟩ := hgoes i insn hget hjump
    omega

/-- A jump that goes back is one that may. -/
theorem BackwardJump.allowed {i : Nat}
    (hjumps : EachAt (JumpsInto prog.length mayGoBack) 0 prog)
    (hlen : prog.length ≤ MAX_BPF_INSTRUCTION_LEN) (h : BackwardJump prog i) :
    mayGoBack i ∧ ∀ insn, prog[i]? = some insn → insn.code = BPF_JMP ||| BPF_JA := by
  obtain ⟨insn, hget, hjump, hneg⟩ := h
  have hi : i < prog.length := (List.getElem?_eq_some_iff.mp hget).1
  obtain ⟨target, htarget, hoff, hdirection⟩ := hjumps i insn hget hjump
  unfold MAX_BPF_INSTRUCTION_LEN at hlen
  rw [Nat.zero_add] at hoff hdirection
  have hgoes := jumpOffset_target (by omega : i < 2 ^ 15) (by omega : target < 2 ^ 15)
  rw [← hoff] at hgoes
  rcases hdirection with hforward | ⟨-, hback, hcode⟩
  · omega
  · refine ⟨hback, ?_⟩
    intro insn' hget'
    rw [hget, Option.some.injEq] at hget'
    rw [← hget', hcode]

end Safe

/-- Programs whose jumps all go forward. -/
theorem forward_safe {prog : Prog}
    (hjumps : EachAt (JumpsInto prog.length fun _ => False) 0 prog)
    (hlen : prog.length ≤ MAX_BPF_INSTRUCTION_LEN) (hlast : prog.getLast? = some exit)
    (hconnected : ∀ i, i < prog.length → Connected (decodeProgram prog) i) :
    ControlFlowSafe prog ∧ ∀ i, ¬ BackwardJump prog i := by
  refine ⟨.of_eachAt hjumps hlen hlast hconnected, ?_⟩
  intro i hback
  exact (hback.allowed hjumps hlen).1

theorem ret_safe (value : Int32) :
    ControlFlowSafe (ret value) ∧ ∀ i, ¬ BackwardJump (ret value) i :=
  forward_safe (eachAt_jumps_ret value) (by rw [length_ret]; decide) rfl
    fun _ hi => connected_decode_ret value hi

theorem classProgram_safe {ranges : List CharRange} (hne : ranges ≠ [])
    (hlimit : 2 * ranges.length + 4 ≤ MAX_BPF_INSTRUCTION_LEN) :
    ControlFlowSafe (classProgram ranges) ∧ ∀ i, ¬ BackwardJump (classProgram ranges) i := by
  have hlen := length_classProgram ranges
  refine forward_safe ?_ (by rwa [hlen]) (by simp [classProgram, ret]) ?_
  · rw [hlen]
    exact eachAt_jumps_classProgram ranges
  · intro i hi
    rw [hlen] at hi
    exact connected_classProgram hne hlimit hi

theorem altProgram_safe {alternatives : List (List UInt8)} (hne : alternatives ≠ [])
    (hlimit : extent altSize alternatives + 4 ≤ MAX_BPF_INSTRUCTION_LEN) :
    ControlFlowSafe (altProgram alternatives) ∧
      ∀ i, ¬ BackwardJump (altProgram alternatives) i := by
  have hlen := length_altProgram alternatives
  refine forward_safe ?_ (by rwa [hlen]) (by simp [altProgram, ret]) ?_
  · rw [hlen]
    exact eachAt_jumps_altProgram alternatives
  · intro i hi
    rw [hlen] at hi
    exact connected_altProgram hne hlimit hi

theorem emptyLiteralProgram_safe :
    ControlFlowSafe emptyLiteralProgram ∧ ∀ i, ¬ BackwardJump emptyLiteralProgram i :=
  forward_safe eachAt_jumps_emptyLiteralProgram (by decide) rfl
    fun _ hi => connected_emptyLiteralProgram hi

theorem literalProgram_safe {pattern : List UInt8} (hne : pattern ≠ [])
    (hlen : pattern.length ≤ MAX_BPF_PATTERN_LEN) :
    ControlFlowSafe (literalProgram pattern) ∧
      (Request.literalSearch pattern).LoopsAtMost (literalProgram pattern) := by
  have hjumps := eachAt_jumps_literalProgram pattern
  rw [← length_literalProgram] at hjumps
  have hlimit : (literalProgram pattern).length ≤ MAX_BPF_INSTRUCTION_LEN := by
    rw [length_literalProgram]
    unfold MAX_BPF_PATTERN_LEN at hlen
    unfold MAX_BPF_INSTRUCTION_LEN
    omega
  refine ⟨.of_eachAt hjumps hlimit (by simp [literalProgram, literalTail, ret]) ?_, ?_, ?_⟩
  · intro i hi
    rw [length_literalProgram] at hi
    exact connected_literalProgram hne hlen hi
  · intro i j hi hj
    exact (hi.allowed hjumps hlimit).1.trans (hj.allowed hjumps hlimit).1.symm
  · intro i insn hi hget
    exact (hi.allowed hjumps hlimit).2 insn hget

theorem Shape.controlFlow {req : Request} {prog : Prog} (h : Shape req prog) :
    ControlFlowSafe prog ∧ req.LoopsAtMost prog := by
  cases h with
  | emptyLiteral =>
    obtain ⟨hsafe, hnone⟩ := emptyLiteralProgram_safe
    exact ⟨hsafe, fun i _ hi => absurd hi (hnone i), fun i _ hi => absurd hi (hnone i)⟩
  | literal hne hlen => exact literalProgram_safe hne hlen
  | constant value => exact ret_safe value
  | alternation hne hlimit => exact altProgram_safe hne hlimit
  | charClass hne hlimit => exact classProgram_safe hne hlimit
  | emptyText => exact ret_safe 0
  | text hne hlimit => exact classProgram_safe hne hlimit

/-- Every compiled program keeps to what a verifier asks of its control flow, and
    only a search has a jump that goes back. -/
theorem compile_controlFlow (u : Usize) (req : Request) (prog : Prog)
    (h : req.compile u = .ok prog) : ControlFlowSafe prog ∧ req.LoopsAtMost prog :=
  (Request.shape h).controlFlow

/-- A search for one byte, an alternative of one byte, and a class of one range, as text and not. -/
theorem compile_controlFlow_a :
    (∃ prog, (Request.literalSearch [0x61]).compile (.wrapping .bits32) = .ok prog ∧
      ControlFlowSafe prog ∧ (Request.literalSearch [0x61]).LoopsAtMost prog) ∧
    (∃ prog, (Request.alternation [[0x61]]).compile (.wrapping .bits32) = .ok prog ∧
      ControlFlowSafe prog ∧ (Request.alternation [[0x61]]).LoopsAtMost prog) ∧
    (∃ prog, (Request.charClass [⟨0x61, 0x61⟩]).compile (.wrapping .bits32) = .ok prog ∧
      ControlFlowSafe prog ∧ (Request.charClass [⟨0x61, 0x61⟩]).LoopsAtMost prog) ∧
    ∃ prog, (Request.characterClass [0x61]).compile (.wrapping .bits32) = .ok prog ∧
      ControlFlowSafe prog ∧ (Request.characterClass [0x61]).LoopsAtMost prog := by
  refine ⟨⟨emitLiteralSearch [0x61], by decide, ?_⟩, ⟨emitAlternation [[0x61]], by decide, ?_⟩,
    ⟨emitCharClass [⟨0x61, 0x61⟩], by decide, ?_⟩, emitCharClass [⟨0x61, 0x61⟩], by decide, ?_⟩
  · exact compile_controlFlow (.wrapping .bits32) _ _ (by decide)
  · exact compile_controlFlow (.wrapping .bits32) _ _ (by decide)
  · exact compile_controlFlow (.wrapping .bits32) _ _ (by decide)
  · exact compile_controlFlow (.wrapping .bits32) _ _ (by decide)

end Ebpfkit
