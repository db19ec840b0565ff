-- SUMMARY: Compiled alternations decide whether some alternative is a prefix of the buffer.
import Ebpfkit.Compiler.Blocks

/-!
# Correctness of alternation

The program tries the alternatives in order against the bytes between `R5` and
`R3`. The block of an alternative either goes to the success block or to the
block after it; the induction over the alternatives follows the layout.
-/

namespace Ebpfkit

open Bpf

section Blocks

variable {content : Nat → UInt8} {prog : Program} {start stop : Word} {Q : Regs → Prop}

/-- One block: an alternative that starts the buffer goes to `success`, any other
    goes to the end of the block. Both pointers are kept. -/
theorem exits_altBlock {alt : List UInt8} {success pc : Nat} {regs : Regs}
    (hcode : CodeAt prog pc ((altBlock success pc alt).map BpfInsn.decode))
    (hne : alt ≠ []) (hpc : pc + altSize alt < 2 ^ 15) (hsuccess : success < 2 ^ 15)
    (hroom : start.toNat + alt.length ≤ 2 ^ 64 - 1)
    (hstart : regs 5 = start) (hstop : regs 3 = stop)
    (matched : alt <+: bytesBetween content start.toNat stop.toNat →
      ∀ regs', regs' 5 = start → regs' 3 = stop →
        Exits prog (bufferMemory content start.toNat stop.toNat) ⟨success, regs'⟩ Q)
    (missed : ¬ alt <+: bytesBetween content start.toNat stop.toNat →
      ∀ regs', regs' 5 = start → regs' 3 = stop →
        Exits prog (bufferMemory content start.toNat stop.toNat) ⟨pc + altSize alt, regs'⟩ Q) :
    Exits prog (bufferMemory content start.toNat stop.toNat) ⟨pc, regs⟩ Q := by
  have hsize : altSize alt = 4 + 2 * alt.length := rfl
  have himm : (Int32.ofNat alt.length).toInt = alt.length := toInt_ofNat32 (by omega)
  obtain ⟨hhead, hchecks, hmatch⟩ := altBlockCode hcode
  rw [himm] at hhead
  rw [bytesBetween, isPrefix_window] at matched missed
  have hlimit : (start + BitVec.ofInt 64 alt.length).toNat = start.toNat + alt.length := by
    rw [BitVec.toNat_add, BitVec.ofInt_natCast, BitVec.toNat_ofNat]
    omega
  have hpos : 0 < alt.length := List.length_pos_iff.mpr hne
  refine .mov hhead.head (.add hhead.tail.head (.jcc hhead.tail.tail.head
    (jumpOffset_target (by omega) hpc) ?_ ?_))
  · intro hpast
    simp only [Cond.holds, Src.eval, Function.update_apply, reduceIte, Nat.reduceEqDiff, hstart,
      hstop, hlimit, decide_eq_true_eq] at hpast
    refine missed ?_ _ (by simp [hstart]) (by simp [hstop])
    rintro ⟨hle, -⟩
    omega
  · intro hfits
    simp only [Cond.holds, Src.eval, Function.update_apply, reduceIte, Nat.reduceEqDiff, hstart,
      hstop, hlimit, decide_eq_false_iff_not, Nat.not_lt] at hfits
    have hkept : ∀ regs', regs' 5 = start → regs' 3 = stop →
        Exits prog (bufferMemory content start.toNat stop.toNat) ⟨pc + 3, regs'⟩ Q := by
      intro regs' hstart' hstop'
      have hload : ∀ k, k < alt.length → (bufferMemory content start.toNat stop.toNat).byte
          (regs' 5 + BitVec.ofNat 64 (0 + k)) = some (content (start.toNat + (0 + k))) := by
        intro k hk
        have := stop.isLt
        rw [hstart', Nat.zero_add]
        exact bufferByte_at (Nat.le_refl _) (by omega) (by omega)
      refine exits_byteChecks hchecks hload (by omega) (by omega) hpc ?_ ?_
      · intro heq regs'' hsame
        refine .ja hmatch.head (jumpOffset_target (by omega) hsuccess)
          (matched ⟨by omega, heq⟩ regs'' ?_ ?_)
        · rw [hsame 5 (by decide), hstart']
        · rw [hsame 3 (by decide), hstop']
      · intro hne regs'' hsame
        refine missed (fun hprefix => hne hprefix.2) regs'' ?_ ?_
        · rw [hsame 5 (by decide), hstart']
        · rw [hsame 3 (by decide), hstop']
    exact hkept _ (by simp [hstart]) (by simp [hstop])

/-- The blocks of the alternatives, one after the other. -/
theorem exits_alternatives {alternatives : List (List UInt8)} {success pc : Nat} {regs : Regs}
    (hcode : CodeAt prog pc
      ((assemble altSize (altBlock success) pc alternatives).map BpfInsn.decode))
    (hne : [] ∉ alternatives) (hpc : pc + extent altSize alternatives < 2 ^ 15)
    (hsuccess : success < 2 ^ 15)
    (hroom : ∀ alt ∈ alternatives, start.toNat + alt.length ≤ 2 ^ 64 - 1)
    (hstart : regs 5 = start) (hstop : regs 3 = stop)
    (matched : (∃ alt ∈ alternatives, alt <+: bytesBetween content start.toNat stop.toNat) →
      ∀ regs', Exits prog (bufferMemory content start.toNat stop.toNat) ⟨success, regs'⟩ Q)
    (missed : (∀ alt ∈ alternatives, ¬ alt <+: bytesBetween content start.toNat stop.toNat) →
      ∀ regs', Exits prog (bufferMemory content start.toNat stop.toNat)
        ⟨pc + extent altSize alternatives, regs'⟩ Q) :
    Exits prog (bufferMemory content start.toNat stop.toNat) ⟨pc, regs⟩ Q := by
  induction alternatives generalizing pc regs with
  | nil => exact missed (by simp) regs
  | cons alt alternatives ih =>
    rw [assemble, List.map_append] at hcode
    rw [extent_cons] at hpc missed
    have hrest := hcode.right
    rw [List.length_map, length_altBlock] at hrest
    have halt : alt ≠ [] := fun heq => hne (heq ▸ List.mem_cons_self)
    refine exits_altBlock hcode.left halt (by omega) hsuccess (hroom alt List.mem_cons_self)
      hstart hstop ?_ ?_
    · intro hprefix regs' _ _
      exact matched ⟨alt, List.mem_cons_self, hprefix⟩ regs'
    · intro hnot regs' hstart' hstop'
      refine ih hrest (fun hmem => hne (List.mem_cons_of_mem _ hmem)) (by omega)
        (fun a ha => hroom a (List.mem_cons_of_mem _ ha)) hstart' hstop' ?_ ?_
      · rintro ⟨a, ha, hprefix⟩
        exact matched ⟨a, List.mem_cons_of_mem _ ha, hprefix⟩
      · intro hall regs''
        rw [Nat.add_assoc]
        refine missed ?_ regs''
        intro a ha
        rcases List.mem_cons.mp ha with rfl | ha
        · exact hnot
        · exact hall a ha

end Blocks

/-! ## Whole programs -/

theorem exits_ret (value : Int32) (mem : Memory) (regs : Regs) {Q : Regs → Prop}
    (hQ : Q (Function.update regs 0 (BitVec.ofInt 64 value.toInt))) :
    Exits (decodeProgram (ret value)) mem ⟨0, regs⟩ Q := by
  refine .ret (k := value.toInt) ?_ hQ
  rw [← decode_ret]
  exact CodeAt.refl _

theorem exits_altProgram {alternatives : List (List UInt8)} (hne : [] ∉ alternatives)
    (hlimit : extent altSize alternatives + 4 ≤ MAX_BPF_INSTRUCTION_LEN)
    (content : Nat → UInt8) (regs : Regs)
    (hroom : ∀ alt ∈ alternatives, (regs 5).toNat + alt.length ≤ 2 ^ 64 - 1) :
    Exits (decodeProgram (altProgram alternatives))
      (bufferMemory content (regs 5).toNat (regs 3).toNat) ⟨0, regs⟩
      fun final => final 0 =
        if ∃ alt ∈ alternatives, alt <+: bytesBetween content (regs 5).toNat (regs 3).toNat
        then 1 else 0 := by
  have code := resultCode_altProgram alternatives
  unfold MAX_BPF_INSTRUCTION_LEN at hlimit
  refine exits_alternatives code.body hne (by omega) (by omega) hroom rfl rfl ?_ ?_
  · intro hmatched regs'
    refine .ret code.success ?_
    rw [if_pos hmatched]
    rfl
  · intro hmissed regs'
    rw [Nat.zero_add]
    refine .ret code.fail ?_
    rw [if_neg (by simpa using hmissed)]
    rfl

/-- A compiled alternation always runs to an exit, and answers whether one of the
    alternatives starts the buffer between `R5` and `R3`. -/
theorem compileAlternation_correct (u : Usize) (alternatives : List (List UInt8)) (prog : Prog)
    (hok : compileAlternation u alternatives = .ok prog) (content : Nat → UInt8) (regs : Regs)
    (hroom : ∀ alt ∈ alternatives, (regs 5).toNat + alt.length ≤ 2 ^ 64 - 1) :
    Exits (decodeProgram prog) (bufferMemory content (regs 5).toNat (regs 3).toNat) ⟨0, regs⟩
      fun final => final 0 =
        if ∃ alt ∈ alternatives, alt <+: bytesBetween content (regs 5).toNat (regs 3).toNat
        then 1 else 0 := by
  rcases compileAlternation_eq_ok hok with ⟨rfl, rfl⟩ | ⟨hempty, rfl⟩ | ⟨hne, -, hlimit, rfl⟩
  · exact exits_ret 0 _ regs rfl
  · refine exits_ret 1 _ regs ?_
    rw [if_pos ⟨[], hempty, List.nil_prefix⟩]
    rfl
  · exact exits_altProgram hne hlimit content regs hroom

/-- The alternatives `b` and `ab` on the bytes `ab` at address 16. -/
theorem compileAlternation_ab :
    ∃ prog, compileAlternation (.wrapping .bits64) [[0x62], [0x61, 0x62]] = .ok prog ∧
      Exits (decodeProgram prog)
        (bufferMemory (fun a => if a = 16 then 0x61 else 0x62) 16 18)
        ⟨0, fun r => if r = 5 then 16 else 18⟩ fun final => final 0 = 1 := by
  refine ⟨emitAlternation [[0x62], [0x61, 0x62]], by decide, ?_⟩
  refine (compileAlternation_correct (.wrapping .bits64) [[0x62], [0x61, 0x62]] _ (by decide)
    (fun a => if a = 16 then 0x61 else 0x62) (fun r => if r = 5 then 16 else 18) (by decide)).mono ?_
  intro final hfinal
  rw [hfinal, if_pos (by decide)]

end Ebpfkit
