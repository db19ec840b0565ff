-- SUMMARY: Compiled literal searches decide whether the pattern occurs in the buffer.
import Ebpfkit.Compiler.Blocks
import Mathlib.Data.List.Infix

/-!
# Correctness of literal search

The program loads the two ends of the buffer from its context and tries every
offset in turn. `SearchInv` is what holds each time control comes to the head of
the loop; the offsets that are left are the measure.
-/

namespace Ebpfkit

open Bpf

section Search

variable (content : Nat → UInt8) (data dataEnd : BitVec 32) (pattern : List UInt8)

/-- The answer a search has to give in `R0`. -/
def SearchResult (regs : Regs) : Prop :=
  regs 0 = if pattern <:+: bytesBetween content data.toNat dataEnd.toNat then 1 else 0

/-- At the head of the loop: `R4` counts the offsets tried so far, none of which
    matched, and `left` offsets remain. -/
structure SearchInv (left : Nat) (regs : Regs) : Prop where
  dataReg : regs 2 = data.setWidth 64
  dataEndReg : regs 3 = dataEnd.setWidth 64
  inside : (regs 4).toNat + left = dataEnd.toNat - data.toNat
  tried : ∀ k, k < (regs 4).toNat →
    window content (data.toNat + k) pattern.length ≠ pattern

variable {content data dataEnd pattern}

/-- The invariant holds when the loop is entered. -/
theorem SearchInv.init {regs : Regs} (hdata : regs 2 = data.setWidth 64)
    (hdataEnd : regs 3 = dataEnd.setWidth 64) (hindex : regs 4 = 0) :
    SearchInv content data dataEnd pattern (dataEnd.toNat - data.toNat) regs := by
  have hzero : (regs 4).toNat = 0 := by rw [hindex]; rfl
  refine ⟨hdata, hdataEnd, by omega, ?_⟩
  intro k hk
  omega

theorem SearchInv.index_lt {left : Nat} {regs : Regs}
    (inv : SearchInv content data dataEnd pattern left regs) : (regs 4).toNat < 2 ^ 32 := by
  have hend := dataEnd.isLt
  have := inv.inside
  omega

/-- The pointer the comparisons use. -/
theorem SearchInv.pointer {left : Nat} {regs : Regs}
    (inv : SearchInv content data dataEnd pattern left regs) :
    (regs 2 + regs 4).toNat = data.toNat + (regs 4).toNat := by
  have hindex := inv.index_lt
  have hdata := data.isLt
  rw [inv.dataReg, BitVec.toNat_add, BitVec.toNat_setWidth]
  omega

/-- An offset that did not match is passed over. -/
theorem SearchInv.advance {left : Nat} {regs regs' : Regs}
    (inv : SearchInv content data dataEnd pattern (left + 1) regs)
    (hdata : regs' 2 = regs 2) (hdataEnd : regs' 3 = regs 3) (hindex : regs' 4 = regs 4 + 1)
    (hmiss : window content (data.toNat + (regs 4).toNat) pattern.length ≠ pattern) :
    SearchInv content data dataEnd pattern left regs' := by
  have hnat : (regs' 4).toNat = (regs 4).toNat + 1 := by
    have := inv.index_lt
    rw [hindex, BitVec.toNat_add, show BitVec.toNat (1 : Word) = 1 from rfl]
    omega
  refine ⟨by rw [hdata, inv.dataReg], by rw [hdataEnd, inv.dataEndReg], ?_, ?_⟩
  · have := inv.inside
    omega
  · intro k hk
    rcases Nat.lt_succ_iff_lt_or_eq.mp (hnat ▸ hk) with hlt | rfl
    · exact inv.tried k hlt
    · exact hmiss

/-- No offset is left once the pattern reaches past the end of the buffer. -/
theorem SearchInv.not_found {left : Nat} {regs : Regs}
    (inv : SearchInv content data dataEnd pattern left regs) (hne : pattern ≠ [])
    (hpast : dataEnd.toNat < data.toNat + (regs 4).toNat + pattern.length) :
    ¬ pattern <:+: bytesBetween content data.toNat dataEnd.toNat := by
  rw [bytesBetween, isInfix_window]
  rintro ⟨k, hk, hmatch⟩
  have hpos : 0 < pattern.length := List.length_pos_iff.mpr hne
  exact inv.tried k (by omega) hmatch

theorem SearchInv.found {left : Nat} {regs : Regs}
    (inv : SearchInv content data dataEnd pattern left regs)
    (hfits : data.toNat + (regs 4).toNat + pattern.length ≤ dataEnd.toNat)
    (hmatch : window content (data.toNat + (regs 4).toNat) pattern.length = pattern) :
    pattern <:+: bytesBetween content data.toNat dataEnd.toNat := by
  rw [bytesBetween, isInfix_window]
  have := inv.inside
  exact ⟨(regs 4).toNat, by omega, hmatch⟩

/-! ## The loop -/

/-- The parts of a search program and their addresses. -/
structure SearchCode (prog : Program) (pattern : List UInt8) : Prop where
  head : CodeAt prog 0 [.ldx .word 2 1 0, .ldx .word 3 1 4, .mov 4 (.imm 0),
    .mov 5 (.reg 2), .add 5 (.reg 4), .mov 6 (.reg 5), .add 6 (.imm pattern.length),
    .jcc .gt 6 (.reg 3) (jumpOffset 7 (12 + 2 * pattern.length)).toInt]
  checks : CodeAt prog 8 ((byteChecks (mismatchJump (10 + 2 * pattern.length)) 8
    pattern.zipIdx).map BpfInsn.decode)
  found : CodeAt prog (8 + 2 * pattern.length) [.mov 0 (.imm 1), .exit]
  again : CodeAt prog (10 + 2 * pattern.length)
    [.add 4 (.imm 1), .ja (jumpOffset (11 + 2 * pattern.length) 3).toInt]
  fail : CodeAt prog (12 + 2 * pattern.length) [.mov 0 (.imm 0), .exit]

theorem searchCode_literalProgram (hlen : pattern.length ≤ MAX_BPF_PATTERN_LEN) :
    SearchCode (decodeProgram (literalProgram pattern)) pattern := by
  have hall : CodeAt (decodeProgram (literalProgram pattern)) 0
      ((literalProgram pattern).map BpfInsn.decode) := CodeAt.refl _
  have himm : (Int32.ofNat pattern.length).toInt = pattern.length := by
    unfold MAX_BPF_PATTERN_LEN at hlen
    exact toInt_ofNat32 (by omega)
  simp only [literalProgram, List.map_append] at hall
  have hhead := hall.left
  have hchecks := hall.right.left
  have htail := hall.right.right
  simp only [literalHead, literalTail, List.length_map, List.length_cons, List.length_nil,
    length_byteChecks, List.length_zipIdx, List.map_append, List.map_cons, List.map_nil,
    decode_ret, decode_loadData, decode_loadDataEnd, decode_setIndex, decode_copyData,
    decode_advance, decode_copyPointer, decode_addLength, decode_boundsCheck, decode_addIndex,
    decode_jump, himm, Nat.zero_add, Nat.reduceAdd] at hhead hchecks htail
  have hagain := htail.left.right
  have hfail := htail.right
  simp only [List.length_append, List.length_cons, List.length_nil, Nat.zero_add, Nat.reduceAdd]
    at hagain hfail
  rw [show 8 + 2 * pattern.length + 2 = 10 + 2 * pattern.length by omega] at hagain
  rw [show 8 + 2 * pattern.length + 4 = 12 + 2 * pattern.length by omega] at hfail
  exact ⟨hhead, hchecks, htail.left.left, hagain, hfail⟩

/-- The jump after the next index is set goes back to the start of the loop. -/
theorem jumpBack_target {n : Nat} (hlen : n ≤ MAX_BPF_PATTERN_LEN) :
    ((10 + 2 * n + 1 : Nat) : Int) + 1 + (jumpOffset (11 + 2 * n) 3).toInt = (3 : Nat) := by
  unfold MAX_BPF_PATTERN_LEN at hlen
  rw [Nat.add_right_comm]
  exact jumpOffset_target (by omega) (by omega)

/-- The head of the loop: either the pattern would reach past the end of the
    buffer, or the comparisons start with `R5` at the current offset. -/
theorem exits_searchHead {prog : Program} {mem : Memory} {Q : Regs → Prop} {left : Nat}
    {regs : Regs} (code : SearchCode prog pattern)
    (hlen : pattern.length ≤ MAX_BPF_PATTERN_LEN)
    (inv : SearchInv content data dataEnd pattern left regs)
    (past : dataEnd.toNat < data.toNat + (regs 4).toNat + pattern.length →
      ∀ regs', Exits prog mem ⟨12 + 2 * pattern.length, regs'⟩ Q)
    (fits : data.toNat + (regs 4).toNat + pattern.length ≤ dataEnd.toNat →
      ∀ regs', (∀ r, r ≠ 5 → r ≠ 6 → regs' r = regs r) →
        (regs' 5).toNat = data.toNat + (regs 4).toNat → Exits prog mem ⟨8, regs'⟩ Q) :
    Exits prog mem ⟨3, regs⟩ Q := by
  unfold MAX_BPF_PATTERN_LEN at hlen
  have hindex := inv.index_lt
  have hdata := data.isLt
  have hend : (regs 3).toNat = dataEnd.toNat := by
    rw [inv.dataEndReg, BitVec.toNat_setWidth]
    have := dataEnd.isLt
    omega
  have hlimit : (regs 2 + regs 4 + BitVec.ofInt 64 pattern.length).toNat =
      data.toNat + (regs 4).toNat + pattern.length := by
    rw [BitVec.toNat_add, inv.pointer, BitVec.ofInt_natCast, BitVec.toNat_ofNat]
    omega
  have hhead := code.head.tail.tail.tail
  refine .mov hhead.head (.add hhead.tail.head (.mov hhead.tail.tail.head
    (.add hhead.tail.tail.tail.head (.jcc hhead.tail.tail.tail.tail.head
      (jumpOffset_target (by omega) (by omega)) ?_ ?_))))
  · intro htaken
    simp only [Cond.holds, Src.eval, Function.update_apply, reduceIte, Nat.reduceEqDiff, hlimit,
      hend, decide_eq_true_eq] at htaken
    exact past htaken _
  · intro hfall
    simp only [Cond.holds, Src.eval, Function.update_apply, reduceIte, Nat.reduceEqDiff, hlimit,
      hend, decide_eq_false_iff_not, Nat.not_lt] at hfall
    refine fits hfall _ ?_ ?_
    · intro r h5 h6
      simp [h5, h6]
    · simp only [Src.eval, Function.update_apply, reduceIte, Nat.reduceEqDiff, inv.pointer]

/-- The search loop of a non-empty pattern, entered with its invariant. -/
theorem exits_searchLoop {prog : Program} {ctx : Word} {left : Nat} {regs : Regs}
    (code : SearchCode prog pattern)
    (hne : pattern ≠ []) (hlen : pattern.length ≤ MAX_BPF_PATTERN_LEN)
    (inv : SearchInv content data dataEnd pattern left regs) :
    Exits prog (contextMemory content ctx data dataEnd) ⟨3, regs⟩
      (SearchResult content data dataEnd pattern) := by
  refine Exits.loop (SearchInv content data dataEnd pattern) ?_ inv
  intro left regs inv again
  refine exits_searchHead code hlen inv ?_ ?_
  · intro hpast regs'
    refine .ret code.fail ?_
    rw [SearchResult, if_neg (inv.not_found hne hpast)]
    rfl
  · intro hfits regs' hsame hpointer
    have hend := dataEnd.isLt
    have hload : ∀ k, k < pattern.length →
        (contextMemory content ctx data dataEnd).byte (regs' 5 + BitVec.ofNat 64 (0 + k)) =
          some (content (data.toNat + (regs 4).toNat + (0 + k))) := by
      intro k hk
      rw [Nat.zero_add, ← hpointer]
      exact bufferByte_at (by omega) (by omega) (by omega)
    unfold MAX_BPF_PATTERN_LEN at hlen
    refine exits_byteChecks code.checks hload (by omega) (by omega) (by omega) ?_ ?_
    · intro hmatch regs'' _
      refine .ret code.found ?_
      rw [SearchResult, if_pos (inv.found hfits hmatch)]
      rfl
    · intro hmiss regs'' hsame'
      have hpos : 0 < pattern.length := List.length_pos_iff.mpr hne
      obtain ⟨left, rfl⟩ : ∃ n, left = n + 1 := by
        refine Nat.exists_eq_succ_of_ne_zero ?_
        have := inv.inside
        omega
      have hold : ∀ r, r ≠ 5 → r ≠ 6 → r ≠ 7 → regs'' r = regs r := by
        intro r h5 h6 h7
        rw [hsame' r h7, hsame r h5 h6]
      refine .add code.again.head (.ja code.again.tail.head (jumpBack_target hlen) ?_)
      refine again left _ (Nat.lt_succ_self left) (inv.advance ?_ ?_ ?_ hmiss)
      · rw [Function.update_of_ne (by decide), hold 2 (by decide) (by decide) (by decide)]
      · rw [Function.update_of_ne (by decide), hold 3 (by decide) (by decide) (by decide)]
      · rw [Function.update_self, hold 4 (by decide) (by decide) (by decide)]
        rfl

end Search

/-! ## Whole programs -/

section Context

variable (content : Nat → UInt8) (data dataEnd : BitVec 32) {ctx : Word} {regs : Regs}

/-- While `R1` points to the context, the ends of the buffer can be loaded. -/
theorem load_data (h : regs 1 = ctx) :
    (contextMemory content ctx data dataEnd).load .word (regs 1 + BitVec.ofInt 64 0) =
      some (data.setWidth 64) := by
  simp [h, Memory.load, contextMemory]

theorem load_dataEnd (h : regs 1 = ctx) :
    (contextMemory content ctx data dataEnd).load .word (regs 1 + BitVec.ofInt 64 4) =
      some (dataEnd.setWidth 64) := by
  simp [h, Memory.load, contextMemory]

theorem exits_emptyLiteralProgram (regs : Regs) :
    Exits (decodeProgram emptyLiteralProgram) (contextMemory content (regs 1) data dataEnd)
      ⟨0, regs⟩ (SearchResult content data dataEnd []) := by
  have hcode : CodeAt (decodeProgram emptyLiteralProgram) 0
      [.ldx .word 2 1 0, .ldx .word 3 1 4, .mov 0 (.imm 1), .exit] := CodeAt.refl _
  refine .ldx hcode.head (load_data content data dataEnd rfl) (.ldx hcode.tail.head
    (load_dataEnd content data dataEnd (Function.update_of_ne (by decide) _ _))
    (.ret hcode.tail.tail ?_))
  rw [SearchResult, if_pos List.nil_infix]
  rfl

theorem exits_literalProgram {pattern : List UInt8} (hne : pattern ≠ [])
    (hlen : pattern.length ≤ MAX_BPF_PATTERN_LEN) (regs : Regs) :
    Exits (decodeProgram (literalProgram pattern)) (contextMemory content (regs 1) data dataEnd)
      ⟨0, regs⟩ (SearchResult content data dataEnd pattern) := by
  have code := searchCode_literalProgram hlen
  refine .ldx code.head.head (load_data content data dataEnd rfl) (.ldx code.head.tail.head
    (load_dataEnd content data dataEnd (Function.update_of_ne (by decide) _ _))
    (.mov code.head.tail.tail.head (exits_searchLoop code hne hlen (.init rfl rfl rfl))))

end Context

/-- A compiled search always runs to an exit, and answers whether the pattern
    occurs in the buffer its context describes. -/
theorem compileLiteralSearch_correct (u : Usize) (pattern : List UInt8)
    (hlen : pattern.length ≤ MAX_BPF_PATTERN_LEN) :
    ∃ prog, compileLiteralSearch u pattern = .ok prog ∧
      ∀ (content : Nat → UInt8) (data dataEnd : BitVec 32) (regs : Regs),
        Exits (decodeProgram prog) (contextMemory content (regs 1) data dataEnd) ⟨0, regs⟩
          fun final => final 0 =
            if pattern <:+: bytesBetween content data.toNat dataEnd.toNat then 1 else 0 := by
  refine ⟨literalOf pattern, compileLiteralSearch_of_le hlen, ?_⟩
  intro content data dataEnd regs
  cases pattern with
  | nil => exact exits_emptyLiteralProgram content data dataEnd regs
  | cons b bs => exact exits_literalProgram content data dataEnd (List.cons_ne_nil b bs) hlen regs

/-- Searching for `ab` in the two bytes `xa` that start at address 100. -/
theorem compileLiteralSearch_ab_in_xa :
    ∃ prog, compileLiteralSearch (.wrapping .bits64) [0x61, 0x62] = .ok prog ∧
      Exits (decodeProgram prog)
        (contextMemory (fun a => if a = 100 then 0x78 else 0x61) 8 100 102) ⟨0, fun _ => 8⟩
        fun final => final 0 = 0 := by
  obtain ⟨prog, hok, hexits⟩ :=
    compileLiteralSearch_correct (.wrapping .bits64) [0x61, 0x62] (by decide)
  refine ⟨prog, hok, (hexits (fun a => if a = 100 then 0x78 else 0x61) 100 102
    fun _ => 8).mono ?_⟩
  intro final hfinal
  rw [hfinal, if_neg (by decide)]

end Ebpfkit
