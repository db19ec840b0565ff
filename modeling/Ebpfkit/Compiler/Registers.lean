-- SUMMARY: Compiled programs initialise registers before reading them, and change nothing but their scratch registers.
import Ebpfkit.Compiler.ControlFlow

/-!
# Register discipline of compiled programs

Alternations and classes pass nothing from one instruction to a later one than
the next, except in the registers the caller sets up, so every edge can be
checked on its own. A search keeps its pointers across the loop and needs a
dataflow solution, `searchInit`.
-/

namespace Ebpfkit

open Bpf

/-- The registers the caller sets up. -/
def Request.entryRegs : Request → List Reg
  | .literalSearch _ => [1]
  | .alternation _ => [3, 5]
  | .charClass _ | .characterClass _ => [7]

/-- The registers a program may change. -/
def Request.scratchRegs : Request → List Reg
  | .literalSearch _ => [0, 2, 3, 4, 5, 6, 7]
  | .alternation _ => [0, 6, 7]
  | .charClass _ | .characterClass _ => [0]

namespace BpfInsn

/-- The instruction is a store. -/
def writesMemory (insn : BpfInsn) : Bool :=
  insn.code &&& 0x07 == BPF_ST || insn.code &&& 0x07 == BPF_STX

/-- The instruction calls a helper. -/
def callsHelper (insn : BpfInsn) : Bool :=
  insn.code &&& 0x07 == BPF_JMP && insn.code &&& 0xF0 == BPF_CALL

end BpfInsn

/-! ## Effects -/

/-- The opcodes that `decode` gives a meaning to. -/
def knownCodes : List UInt8 :=
  [BPF_JMP ||| BPF_EXIT, BPF_LDX ||| BPF_MEM ||| BPF_B, BPF_LDX ||| BPF_MEM ||| BPF_W,
    BPF_ALU64 ||| BPF_MOV ||| BPF_K, BPF_ALU64 ||| BPF_MOV ||| BPF_X,
    BPF_ALU64 ||| BPF_ADD ||| BPF_K, BPF_ALU64 ||| BPF_ADD ||| BPF_X, BPF_JMP ||| BPF_JA,
    BPF_JMP ||| BPF_JEQ ||| BPF_K, BPF_JMP ||| BPF_JNE ||| BPF_K, BPF_JMP ||| BPF_JGT ||| BPF_X,
    BPF_JMP ||| BPF_JLT ||| BPF_K, BPF_JMP ||| BPF_JLE ||| BPF_K]

theorem code_mem_knownCodes {insn : BpfInsn} (h : insn.decode ≠ .unknown) :
    insn.code ∈ knownCodes := by
  by_contra hnot
  simp only [knownCodes, List.mem_cons, List.not_mem_nil, or_false, not_or] at hnot
  obtain ⟨h1, h2, h3, h4, h5, h6, h7, h8, h9, h10, h11, h12, h13⟩ := hnot
  apply h
  rw [BpfInsn.decode, if_neg h1, if_neg h2, if_neg h3, if_neg h4, if_neg h5, if_neg h6, if_neg h7,
    if_neg h8, if_neg h9, if_neg h10, if_neg h11, if_neg h12, if_neg h13]

/-- The fragment has neither stores nor calls. -/
theorem no_effects_of_known {insn : BpfInsn} (h : insn.decode ≠ .unknown) :
    insn.writesMemory = false ∧ insn.callsHelper = false := by
  have hstores : knownCodes.all (fun code => !(code &&& 0x07 == BPF_ST || code &&& 0x07 == BPF_STX)) :=
    rfl
  have hcalls : knownCodes.all (fun code => !(code &&& 0x07 == BPF_JMP && code &&& 0xF0 == BPF_CALL)) :=
    rfl
  have hmem := code_mem_knownCodes h
  refine ⟨?_, ?_⟩
  · exact Bool.not_eq_true' _ ▸ List.all_eq_true.mp hstores insn.code hmem
  · exact Bool.not_eq_true' _ ▸ List.all_eq_true.mp hcalls insn.code hmem

/-- The instruction belongs to the fragment and writes nothing outside `scratch`. -/
def Within (scratch : List Reg) (instr : Instr) : Prop :=
  instr ≠ .unknown ∧ ∀ r ∈ instr.writes, r ∈ scratch

section Within

variable {scratch : List Reg}

theorem within_ret (value : Int32) (h : 0 ∈ scratch) :
    ∀ instr ∈ (ret value).map BpfInsn.decode, Within scratch instr := by
  simp [Within, Instr.writes, h]

theorem within_byteChecks (next pc : Nat) (bytes : List (UInt8 × Nat)) (h : 7 ∈ scratch) :
    ∀ instr ∈ (byteChecks (mismatchJump next) pc bytes).map BpfInsn.decode,
      Within scratch instr := by
  intro instr hmem
  rcases mem_byteChecks hmem with ⟨off, rfl⟩ | ⟨k, off, rfl⟩
  · simp [Within, Instr.writes, h]
  · simp [Within, Instr.writes]

theorem within_append {a b : Prog} (ha : ∀ instr ∈ a.map BpfInsn.decode, Within scratch instr)
    (hb : ∀ instr ∈ b.map BpfInsn.decode, Within scratch instr) :
    ∀ instr ∈ (a ++ b).map BpfInsn.decode, Within scratch instr := by
  rw [List.map_append]
  exact List.forall_mem_append.mpr ⟨ha, hb⟩

theorem within_literalProgram (pattern : List UInt8) :
    ∀ instr ∈ decodeProgram (literalProgram pattern), Within [0, 2, 3, 4, 5, 6, 7] instr := by
  refine within_append ?_ (within_append (within_byteChecks _ _ _ (by decide))
    (within_append (within_append (within_ret 1 (by decide)) ?_) (within_ret 0 (by decide))))
  · simp [literalHead, Within, Instr.writes]
  · simp [Within, Instr.writes]

theorem within_alternatives (success pc : Nat) (alternatives : List (List UInt8)) :
    ∀ instr ∈ (assemble altSize (altBlock success) pc alternatives).map BpfInsn.decode,
      Within [0, 6, 7] instr := by
  refine List.forall_mem_map.mpr (forall_mem_assemble ?_)
  intro start alt
  refine List.forall_mem_map.mp (within_append ?_
    (within_append (within_byteChecks _ _ _ (by decide)) ?_))
  · simp [Within, Instr.writes]
  · simp [Within, Instr.writes]

theorem within_altProgram (alternatives : List (List UInt8)) :
    ∀ instr ∈ decodeProgram (altProgram alternatives), Within [0, 6, 7] instr :=
  within_append (within_alternatives _ _ _)
    (within_append (within_ret 0 (by decide)) (within_ret 1 (by decide)))

theorem within_rangeChecks (success pc : Nat) (ranges : List CharRange) :
    ∀ instr ∈ (assemble (fun _ => 2) (rangeCheck success) pc ranges).map BpfInsn.decode,
      Within scratch instr := by
  intro instr hmem
  obtain ⟨cond, k, off, rfl⟩ := mem_rangeChecks hmem
  simp [Within, Instr.writes]

theorem within_classProgram (ranges : List CharRange) :
    ∀ instr ∈ decodeProgram (classProgram ranges), Within [0] instr :=
  within_append (within_rangeChecks _ _ _)
    (within_append (within_ret 0 (by decide)) (within_ret 1 (by decide)))

theorem Shape.within {req : Request} {prog : Prog} (h : Shape req prog) :
    ∀ instr ∈ decodeProgram prog, Within req.scratchRegs instr := by
  cases h with
  | emptyLiteral =>
    refine within_append ?_ (within_ret 1 (by decide))
    simp [Within, Instr.writes, Request.scratchRegs]
  | literal hne hlen => exact within_literalProgram _
  | constant value => exact within_ret value (by simp [Request.scratchRegs])
  | alternation hne hlimit => exact within_altProgram _
  | charClass hne hlimit => exact within_classProgram _
  | emptyText => exact within_ret 0 (by simp [Request.scratchRegs])
  | text hne hlimit => exact within_classProgram _

end Within

/-! ## Reads of alternations and classes -/

section Local

variable {prog : Program} {entry : List Reg} {pc : Nat}

theorem eachAt_local_ret {k : Int} (hcode : CodeAt prog pc [.mov 0 (.imm k), .exit]) :
    EachAt (ReadsLocal prog entry) pc [.mov 0 (.imm k), .exit] := by
  refine .cons (.fall rfl hcode.tail.head ?_) (.cons (.clean ?_) .nil)
  · simp [Instr.reads, Instr.writes]
  · simp [Instr.succs]

theorem clean_ret {k : Int} (hcode : CodeAt prog pc [.mov 0 (.imm k), .exit]) :
    Clean prog entry pc :=
  .of_reads hcode.head (by simp [Instr.reads])

theorem clean_byteChecks {next : Nat} {bytes : List (UInt8 × Nat)}
    (hcode : CodeAt prog pc ((byteChecks (mismatchJump next) pc bytes).map BpfInsn.decode))
    (hend : Clean prog [3, 5] (pc + 2 * bytes.length)) : Clean prog [3, 5] pc := by
  cases bytes with
  | nil => exact hend
  | cons item bytes =>
    simp only [byteChecks, assemble, byteCheck, List.map_cons, List.cons_append,
      decode_loadByte] at hcode
    exact .of_reads hcode.head (by simp [Instr.reads])

theorem eachAt_local_byteChecks {next : Nat} {bytes : List (UInt8 × Nat)}
    (hcode : CodeAt prog pc ((byteChecks (mismatchJump next) pc bytes).map BpfInsn.decode))
    (hpc : pc + 2 * bytes.length ≤ 2 ^ 15) (hnext : next < 2 ^ 15)
    (hend : Clean prog [3, 5] (pc + 2 * bytes.length)) (hclean : Clean prog [3, 5] next) :
    EachAt (ReadsLocal prog [3, 5]) pc
      ((byteChecks (mismatchJump next) pc bytes).map BpfInsn.decode) := by
  induction bytes generalizing pc with
  | nil => exact .nil
  | cons item bytes ih =>
    rw [List.length_cons] at hpc hend
    simp only [byteChecks, assemble, byteCheck, mismatchJump, List.map_cons, List.cons_append,
      List.nil_append, decode_loadByte, decode_jumpNe] at hcode ⊢
    have hrest := hcode.tail.tail
    have hend' : Clean prog [3, 5] (pc + 1 + 1 + 2 * bytes.length) := by
      rwa [show pc + 1 + 1 + 2 * bytes.length = pc + 2 * (bytes.length + 1) by omega]
    refine .cons (.fall rfl hcode.tail.head ?_) (.cons ?_ (ih hrest (by omega) hend'))
    · simp [Instr.reads, Instr.writes]
    · exact .jcc (jumpOffset_target (by omega) hnext) (clean_byteChecks hrest hend') hclean

theorem eachAt_local_altBlock {alt : List UInt8} {success : Nat}
    (hcode : CodeAt prog pc ((altBlock success pc alt).map BpfInsn.decode))
    (hpc : pc + altSize alt < 2 ^ 15) (hsuccess : success < 2 ^ 15)
    (hend : Clean prog [3, 5] (pc + altSize alt)) (hclean : Clean prog [3, 5] success) :
    EachAt (ReadsLocal prog [3, 5]) pc ((altBlock success pc alt).map BpfInsn.decode) := by
  have hsize : altSize alt = 4 + 2 * alt.length := rfl
  obtain ⟨hhead, hchecks, hmatch⟩ := altBlockCode hcode
  simp only [altBlock, altCode, List.map_append, List.map_cons, List.map_nil, decode_copyPointer,
    decode_addLength, decode_boundsCheck, decode_jump]
  have hmatchClean : Clean prog [3, 5] (pc + 3 + 2 * alt.zipIdx.length) := by
    rw [List.length_zipIdx]
    exact .of_reads hmatch.head (by simp [Instr.reads])
  refine .append (.cons (.fall rfl hhead.tail.head ?_) (.cons (.fall rfl hhead.tail.tail.head ?_)
    (.cons ?_ .nil))) (.append ?_ ?_)
  · simp [Instr.reads, Instr.writes]
  · simp [Instr.reads, Instr.writes]
  · exact .jcc (jumpOffset_target (by omega) hpc) (clean_byteChecks hchecks hmatchClean) hend
  · refine eachAt_local_byteChecks hchecks ?_ hpc hmatchClean hend
    simp only [List.length_zipIdx, List.length_cons, List.length_nil]
    omega
  · refine .cons ?_ .nil
    simp only [List.length_map, List.length_cons, List.length_nil, length_byteChecks,
      List.length_zipIdx]
    exact .ja (jumpOffset_target (by omega) hsuccess) hclean

theorem eachAt_local_alternatives {alternatives : List (List UInt8)} {success : Nat}
    (hcode : CodeAt prog pc
      ((assemble altSize (altBlock success) pc alternatives).map BpfInsn.decode))
    (hpc : pc + extent altSize alternatives < 2 ^ 15) (hsuccess : success < 2 ^ 15)
    (hend : Clean prog [3, 5] (pc + extent altSize alternatives))
    (hclean : Clean prog [3, 5] success) :
    Clean prog [3, 5] pc ∧ EachAt (ReadsLocal prog [3, 5]) pc
      ((assemble altSize (altBlock success) pc alternatives).map BpfInsn.decode) := by
  induction alternatives generalizing pc with
  | nil => exact ⟨hend, .nil⟩
  | cons alt alternatives ih =>
    rw [assemble, List.map_append] at hcode ⊢
    rw [extent_cons] at hpc hend
    have hrest := hcode.right
    rw [List.length_map, length_altBlock] at hrest
    rw [← Nat.add_assoc] at hend
    obtain ⟨hnext, hlater⟩ := ih hrest (by omega) hend
    refine ⟨?_, .append ?_ ?_⟩
    · have hfirst := hcode.left
      simp only [altBlock, altCode, List.map_cons, List.cons_append, decode_copyPointer] at hfirst
      exact .of_reads hfirst.head (by simp [Instr.reads])
    · exact eachAt_local_altBlock hcode.left (by omega) hsuccess hnext hclean
    · rw [List.length_map, length_altBlock]
      exact hlater

theorem clean_rangeChecks {success : Nat} {ranges : List CharRange}
    (hcode : CodeAt prog pc
      ((assemble (fun _ => 2) (rangeCheck success) pc ranges).map BpfInsn.decode))
    (hend : Clean prog [7] (pc + 2 * ranges.length)) : Clean prog [7] pc := by
  cases ranges with
  | nil => exact hend
  | cons r ranges =>
    simp only [assemble, rangeCheck, List.map_cons, List.cons_append, decode_jumpLt] at hcode
    exact .of_reads hcode.head (by simp [Instr.reads])

theorem eachAt_local_rangeChecks {success : Nat} {ranges : List CharRange}
    (hcode : CodeAt prog pc
      ((assemble (fun _ => 2) (rangeCheck success) pc ranges).map BpfInsn.decode))
    (hpc : pc + 2 * ranges.length < 2 ^ 15) (hsuccess : success < 2 ^ 15)
    (hend : Clean prog [7] (pc + 2 * ranges.length)) (hclean : Clean prog [7] success) :
    EachAt (ReadsLocal prog [7]) pc
      ((assemble (fun _ => 2) (rangeCheck success) pc ranges).map BpfInsn.decode) := by
  induction ranges generalizing pc with
  | nil => exact .nil
  | cons r ranges ih =>
    rw [List.length_cons] at hpc hend
    simp only [assemble, rangeCheck, List.map_cons, List.cons_append, List.nil_append,
      decode_jumpLt, decode_jumpLe] at hcode ⊢
    have hrest := hcode.tail.tail
    have hend' : Clean prog [7] (pc + 1 + 1 + 2 * ranges.length) := by
      rwa [show pc + 1 + 1 + 2 * ranges.length = pc + 2 * (ranges.length + 1) by omega]
    have hupper : Clean prog [7] (pc + 1) := .of_reads hcode.tail.head (by simp [Instr.reads])
    have hskip : (pc : Int) + 1 + (1 : Int16).toInt = (pc + 1 + 1 : Nat) := by
      rw [show (1 : Int16).toInt = 1 from rfl]
      omega
    have hnext := clean_rangeChecks hrest hend'
    refine .cons (.jcc hskip hupper hnext) (.cons ?_ (ih hrest (by omega) hend'))
    exact .jcc (jumpOffset_target (by omega) hsuccess) hnext hclean

/-- A program that ends with the two results, each edge checked on its own. -/
theorem initialised_of_local {code : Prog} {n : Nat} (hlen : code.length = n)
    (hbody : Clean (decodeProgram (code ++ (ret 0 ++ ret 1))) entry n →
      Clean (decodeProgram (code ++ (ret 0 ++ ret 1))) entry (n + 2) →
      Clean (decodeProgram (code ++ (ret 0 ++ ret 1))) entry 0 ∧
      EachAt (ReadsLocal (decodeProgram (code ++ (ret 0 ++ ret 1))) entry) 0
        (code.map BpfInsn.decode)) :
    Initialised (decodeProgram (code ++ (ret 0 ++ ret 1))) entry := by
  have hcode := resultCode hlen
  obtain ⟨hfirst, heach⟩ := hbody (clean_ret hcode.fail) (clean_ret hcode.success)
  refine .of_local hfirst ?_
  nth_rewrite 2 [decodeProgram]
  rw [List.map_append, List.map_append, decode_ret, decode_ret]
  refine .append heach (.append ?_ ?_)
  · rw [List.length_map, hlen, Nat.zero_add]
    exact eachAt_local_ret hcode.fail
  · rw [List.length_map, hlen, Nat.zero_add]
    exact eachAt_local_ret hcode.success

end Local

theorem initialised_altProgram {alternatives : List (List UInt8)}
    (hlimit : extent altSize alternatives + 4 ≤ MAX_BPF_INSTRUCTION_LEN) :
    Initialised (decodeProgram (altProgram alternatives)) [3, 5] := by
  have hlen := length_assemble (length_altBlock (extent altSize alternatives + 2)) 0 alternatives
  unfold MAX_BPF_INSTRUCTION_LEN at hlimit
  refine initialised_of_local hlen ?_
  intro hend hclean
  have hbody := (resultCode_altProgram alternatives).body
  refine eachAt_local_alternatives hbody (by omega) (by omega) ?_ hclean
  rw [Nat.zero_add]
  exact hend

theorem initialised_classProgram {ranges : List CharRange}
    (hlimit : 2 * ranges.length + 4 ≤ MAX_BPF_INSTRUCTION_LEN) :
    Initialised (decodeProgram (classProgram ranges)) [7] := by
  have hlen := length_assemble (length_rangeCheck (2 * ranges.length + 2)) 0 ranges
  rw [extent_const] at hlen
  unfold MAX_BPF_INSTRUCTION_LEN at hlimit
  refine initialised_of_local hlen ?_
  intro hend hclean
  have hbody := (resultCode_classProgram ranges).body
  have hend' : Clean (decodeProgram (classProgram ranges)) [7] (0 + 2 * ranges.length) := by
    rw [Nat.zero_add]
    exact hend
  exact ⟨clean_rangeChecks hbody hend',
    eachAt_local_rangeChecks hbody (by omega) (by omega) hend' hclean⟩

theorem initialised_ret (value : Int32) {entry : List Reg} :
    Initialised (decodeProgram (ret value)) entry := by
  have hcode : CodeAt (decodeProgram (ret value)) 0 ((ret value).map BpfInsn.decode) :=
    CodeAt.refl _
  rw [decode_ret] at hcode
  refine .of_local (clean_ret hcode) ?_
  nth_rewrite 2 [decodeProgram]
  rw [decode_ret]
  exact eachAt_local_ret hcode

/-! ## Reads of searches -/

/-- The registers of a search for `n` bytes that are initialised at address `i`.
    The pointers stay initialised from their first write on, also around the loop. -/
def searchInit (n i : Nat) : Reg → Prop
  | 0 => i = 9 + 2 * n ∨ i = 13 + 2 * n
  | 1 => True
  | 2 => 1 ≤ i
  | 3 => 2 ≤ i
  | 4 => 3 ≤ i
  | 5 => 4 ≤ i
  | 6 => 6 ≤ i
  | 7 => 8 ≤ i ∧ i < 8 + 2 * n ∧ i % 2 = 1
  | _ => False

theorem forall_searchInit {n i : Nat} {P : Reg → Prop}
    (h : (i = 9 + 2 * n ∨ i = 13 + 2 * n → P 0) ∧ P 1 ∧ (1 ≤ i → P 2) ∧ (2 ≤ i → P 3) ∧
      (3 ≤ i → P 4) ∧ (4 ≤ i → P 5) ∧ (6 ≤ i → P 6) ∧
      (8 ≤ i ∧ i < 8 + 2 * n ∧ i % 2 = 1 → P 7)) (r : Reg) (hr : searchInit n i r) : P r := by
  obtain ⟨h0, h1, h2, h3, h4, h5, h6, h7⟩ := h
  match r with
  | 0 => exact h0 hr
  | 1 => exact h1
  | 2 => exact h2 hr
  | 3 => exact h3 hr
  | 4 => exact h4 hr
  | 5 => exact h5 hr
  | 6 => exact h6 hr
  | 7 => exact h7 hr
  | _ + 8 => exact hr.elim

/-- `searchInit` accounts for what the instruction at `i` reads, and for what is
    claimed where it leads. -/
def SearchFlow (n i : Nat) (instr : Instr) : Prop :=
  (∀ j : Nat, (j : Int) ∈ instr.succs i → ∀ r, searchInit n j r →
    searchInit n i r ∨ r ∈ instr.writes) ∧
  ∀ r ∈ instr.reads, searchInit n i r

section Flow

variable {n i : Nat} {instr : Instr}

theorem SearchFlow.straight (hsuccs : instr.succs i = [(i : Int) + 1])
    (hnext : ∀ r, searchInit n (i + 1) r → searchInit n i r ∨ r ∈ instr.writes)
    (hreads : ∀ r ∈ instr.reads, searchInit n i r) : SearchFlow n i instr := by
  refine ⟨?_, hreads⟩
  intro j hj
  rw [hsuccs, List.mem_singleton] at hj
  rw [show j = i + 1 by omega]
  exact hnext

theorem SearchFlow.jcc {cond : Cond} {dst : Reg} {src : Src} {off : Int} {target : Nat}
    (ht : (i : Int) + 1 + off = target) (hnext : ∀ r, searchInit n (i + 1) r → searchInit n i r)
    (htarget : ∀ r, searchInit n target r → searchInit n i r)
    (hreads : ∀ r ∈ (Instr.jcc cond dst src off).reads, searchInit n i r) :
    SearchFlow n i (.jcc cond dst src off) := by
  refine ⟨?_, hreads⟩
  intro j hj r hr
  simp only [Instr.succs, ht, List.mem_cons, List.not_mem_nil, or_false] at hj
  rcases hj with hj | hj
  · rw [show j = i + 1 by omega] at hr
    exact .inl (hnext r hr)
  · rw [Int.ofNat_inj.mp hj] at hr
    exact .inl (htarget r hr)

theorem SearchFlow.ja {off : Int} {target : Nat} (ht : (i : Int) + 1 + off = target)
    (htarget : ∀ r, searchInit n target r → searchInit n i r) : SearchFlow n i (.ja off) := by
  refine ⟨?_, by simp [Instr.reads]⟩
  intro j hj r hr
  simp only [Instr.succs, ht, List.mem_singleton] at hj
  rw [Int.ofNat_inj.mp hj] at hr
  exact .inl (htarget r hr)

theorem eachAt_flow_byteChecks {n next pc : Nat} {bytes : List (UInt8 × Nat)}
    (hpc : pc + 2 * bytes.length = 8 + 2 * n) (heven : pc % 2 = 0) (hle : 8 ≤ pc)
    (hnext : next = 10 + 2 * n) (hn : n ≤ 1024) :
    EachAt (SearchFlow n) pc ((byteChecks (mismatchJump next) pc bytes).map BpfInsn.decode) := by
  induction bytes generalizing pc with
  | nil => exact .nil
  | cons item bytes ih =>
    rw [List.length_cons] at hpc
    simp only [byteChecks, assemble, byteCheck, mismatchJump, List.map_cons, List.cons_append,
      List.nil_append, decode_loadByte, decode_jumpNe]
    have htarget := jumpOffset_target (by omega : pc + 1 < 2 ^ 15) (by omega : next < 2 ^ 15)
    refine .cons (.straight rfl (forall_searchInit ?_) ?_)
      (.cons (.jcc htarget (forall_searchInit ?_) (forall_searchInit ?_) ?_)
        (ih (by omega) (by omega) (by omega)))
    all_goals simp [searchInit, Instr.reads, Instr.writes]
    all_goals omega

theorem eachAt_flow_literalHead {pattern : List UInt8} {boundsCheck : BpfInsn}
    (hlast : SearchFlow pattern.length 7 boundsCheck.decode) :
    EachAt (SearchFlow pattern.length) 0
      ((literalHead pattern boundsCheck).map BpfInsn.decode) := by
  simp only [literalHead, List.map_cons, List.map_nil, decode_loadData, decode_loadDataEnd,
    decode_setIndex, decode_copyData, decode_advance, decode_copyPointer, decode_addLength]
  refine .cons (.straight rfl (forall_searchInit ?_) ?_)
    (.cons (.straight rfl (forall_searchInit ?_) ?_)
    (.cons (.straight rfl (forall_searchInit ?_) ?_)
    (.cons (.straight rfl (forall_searchInit ?_) ?_)
    (.cons (.straight rfl (forall_searchInit ?_) ?_)
    (.cons (.straight rfl (forall_searchInit ?_) ?_)
    (.cons (.straight rfl (forall_searchInit ?_) ?_)
    (.cons hlast .nil)))))))
  all_goals simp [searchInit, Instr.reads, Instr.writes]
  all_goals omega

theorem eachAt_flow_literalProgram {pattern : List UInt8}
    (hlen : pattern.length ≤ MAX_BPF_PATTERN_LEN) :
    EachAt (SearchFlow pattern.length) 0 (decodeProgram (literalProgram pattern)) := by
  unfold MAX_BPF_PATTERN_LEN at hlen
  have hpast := jumpOffset_target (by omega : 7 < 2 ^ 15)
    (by omega : 12 + 2 * pattern.length < 2 ^ 15)
  have hresult : ∀ k i, i = 8 + 2 * pattern.length ∨ i = 12 + 2 * pattern.length →
      EachAt (SearchFlow pattern.length) i [.mov 0 (.imm k), .exit] := by
    intro k i hi
    refine .cons (.straight rfl (forall_searchInit ?_) ?_)
      (.cons ⟨by simp [Instr.succs], ?_⟩ .nil)
    all_goals simp [searchInit, Instr.reads, Instr.writes] <;> omega
  have hbounds : SearchFlow pattern.length 7
      (.jcc .gt 6 (.reg 3) (jumpOffset 7 (12 + 2 * pattern.length)).toInt) := by
    refine .jcc hpast (forall_searchInit ?_) (forall_searchInit ?_) ?_
    all_goals simp [searchInit, Instr.reads] <;> omega
  have hagain : EachAt (SearchFlow pattern.length) (10 + 2 * pattern.length)
      [.add 4 (.imm 1), .ja (jumpOffset (11 + 2 * pattern.length) 3).toInt] := by
    refine .cons (.straight rfl (forall_searchInit ?_) ?_)
      (.cons (.ja (jumpBack_target hlen) (forall_searchInit ?_)) .nil)
    all_goals simp [searchInit, Instr.reads, Instr.writes]
    all_goals omega
  simp only [decodeProgram, literalProgram, literalTail, List.map_append, List.map_cons,
    List.map_nil, decode_ret, decode_addIndex, decode_jump]
  refine .append_at (q := 8) (eachAt_flow_literalHead ?_) (by simp [literalHead])
    (.append_at (q := 8 + 2 * pattern.length) (eachAt_flow_byteChecks ?_ rfl (by omega) rfl hlen)
      (by simp) (.append_at (q := 12 + 2 * pattern.length)
        (.append_at (q := 10 + 2 * pattern.length) (hresult _ _ (.inl rfl)) ?_ hagain) ?_
        (hresult _ _ (.inr rfl))))
  · rw [decode_boundsCheck]
    exact hbounds
  · rw [List.length_zipIdx]
  · simp only [List.length_cons, List.length_nil]
    omega
  · simp only [List.length_append, List.length_cons, List.length_nil]
    omega

end Flow

theorem initialised_literalProgram {pattern : List UInt8}
    (hlen : pattern.length ≤ MAX_BPF_PATTERN_LEN) :
    Initialised (decodeProgram (literalProgram pattern)) [1] := by
  have hflow := eachAt_flow_literalProgram hlen
  refine .of_dataflow (searchInit pattern.length) ?_ ?_ ?_
  · refine forall_searchInit ?_
    simp
    omega
  · intro i j instr hi hj
    have := (hflow i instr hi).1 j
    rw [Nat.zero_add] at this
    exact this hj
  · intro i instr hi
    have := (hflow i instr hi).2
    rwa [Nat.zero_add] at this

theorem initialised_emptyLiteralProgram :
    Initialised (decodeProgram emptyLiteralProgram) [1] := by
  have hcode : CodeAt (decodeProgram emptyLiteralProgram) 0
      [.ldx .word 2 1 0, .ldx .word 3 1 4, .mov 0 (.imm 1), .exit] := CodeAt.refl _
  refine .of_local (Clean.of_reads hcode.head (by decide)) ?_
  exact .cons (.fall rfl hcode.tail.head (by decide)) (.cons (.fall rfl hcode.tail.tail.head
    (by decide)) (eachAt_local_ret hcode.tail.tail))

/-! ## Every compiled program -/

theorem Shape.initialised {req : Request} {prog : Prog} (h : Shape req prog) :
    Initialised (decodeProgram prog) req.entryRegs := by
  cases h with
  | emptyLiteral => exact initialised_emptyLiteralProgram
  | literal hne hlen => exact initialised_literalProgram hlen
  | constant value => exact initialised_ret value
  | alternation hne hlimit => exact initialised_altProgram hlimit
  | charClass hne hlimit => exact initialised_classProgram hlimit
  | emptyText => exact initialised_ret 0
  | text hne hlimit => exact initialised_classProgram hlimit

theorem Request.entryRegs_not_scratch (req : Request) : ∀ r ∈ req.entryRegs, r ∉ req.scratchRegs := by
  cases req <;> simp [entryRegs, scratchRegs]

theorem Request.zero_not_entryRegs (req : Request) : 0 ∉ req.entryRegs := by
  cases req <;> simp [entryRegs]

/-- Along every path of a compiled program registers are written before they are
    read, except for those the caller sets up, and `R0` before every exit. No run
    changes anything but the scratch registers. -/
theorem compile_registers (u : Usize) (req : Request) (prog : Prog)
    (h : req.compile u = .ok prog) :
    Initialised (decodeProgram prog) req.entryRegs ∧
    (∀ visited i, Path (decodeProgram prog) visited i →
      (decodeProgram prog)[i]? = some .exit →
      ∃ j ∈ visited, ∃ earlier, (decodeProgram prog)[j]? = some earlier ∧ 0 ∈ earlier.writes) ∧
    (∀ insn ∈ prog, insn.decode ≠ .unknown ∧ insn.writesMemory = false ∧
      insn.callsHelper = false) ∧
    ∀ (mem : Memory) (n : Nat) (s t : State),
      run (decodeProgram prog) mem n s = .running t ∨
        run (decodeProgram prog) mem n s = .exited t →
      (∀ r, r ∉ req.scratchRegs → t.regs r = s.regs r) ∧
      ∀ r ∈ req.entryRegs, t.regs r = s.regs r := by
  have hshape := Request.shape h
  have hwithin := hshape.within
  have hinit := hshape.initialised
  refine ⟨hinit, ?_, ?_, ?_⟩
  · intro visited i hpath hexit
    rcases hinit visited i .exit hpath hexit 0 (by decide) with hentry | hwritten
    · exact absurd hentry req.zero_not_entryRegs
    · exact hwritten
  · intro insn hmem
    have hknown := (hwithin insn.decode (List.mem_map_of_mem hmem)).1
    exact ⟨hknown, no_effects_of_known hknown⟩
  · intro mem n s t hrun
    have hkept : ∀ r, r ∉ req.scratchRegs → t.regs r = s.regs r := by
      intro r hr
      refine run_frame ?_ n s t hrun
      intro instr hmem hwrite
      exact hr ((hwithin instr hmem).2 r hwrite)
    exact ⟨hkept, fun r hr => hkept r (req.entryRegs_not_scratch r hr)⟩

/-- Two alternatives: `R3` and `R5` are read, nothing is stored, and both are kept. -/
theorem compile_registers_ab :
    ∃ prog, (Request.alternation [[0x61], [0x62]]).compile .exact = .ok prog ∧
      Initialised (decodeProgram prog) [3, 5] ∧
      (∀ visited i, Path (decodeProgram prog) visited i → (decodeProgram prog)[i]? = some .exit →
        ∃ j ∈ visited, ∃ earlier, (decodeProgram prog)[j]? = some earlier ∧ 0 ∈ earlier.writes) ∧
      (∀ insn ∈ prog, insn.writesMemory = false ∧ insn.callsHelper = false) ∧
      ∀ mem n s t, run (decodeProgram prog) mem n s = .exited t →
        t.regs 1 = s.regs 1 ∧ t.regs 3 = s.regs 3 ∧ t.regs 5 = s.regs 5 := by
  obtain ⟨hinit, hresult, heffects, hframe⟩ :=
    compile_registers .exact (.alternation [[0x61], [0x62]]) (emitAlternation [[0x61], [0x62]]) (by decide)
  refine ⟨emitAlternation [[0x61], [0x62]], by decide, hinit, hresult, ?_, ?_⟩
  · exact fun insn hmem => (heffects insn hmem).2
  · intro mem n s t hrun
    obtain ⟨hkept, hentry⟩ := hframe mem n s t (.inr hrun)
    exact ⟨hkept 1 (by decide), hentry 3 (by decide), hentry 5 (by decide)⟩

end Ebpfkit
