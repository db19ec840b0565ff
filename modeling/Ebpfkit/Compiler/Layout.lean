-- SUMMARY: The programs the emitters produce, written out with their jumps resolved.
import Ebpfkit.Bpf.Layout
import Ebpfkit.Compiler.Codegen

/-!
# Program layout

What the emitters of `Ebpfkit/Compiler/Codegen.lean` end up with after patching,
as a plain list of instructions whose jumps name their targets. Everything that
is proved about compiled programs is proved about these lists; the equations
`emitLiteralSearch_eq`, `emitAlternation_eq` and `emitCharClass_eq` carry it over.
-/

namespace Ebpfkit

open Bpf

/-- Set `R0` and exit. -/
def ret (value : Int32) : Prog := [alu64Imm BPF_MOV R0 value, exit]

/-- A comparison of `R7` with `byte` at address `idx` that goes to `next` on mismatch. -/
def mismatchJump (next idx : Nat) (byte : UInt8) : BpfInsn :=
  jmpImm BPF_JNE R7 (Int32.ofNat byte.toNat) (jumpOffset idx next)

/-- Load the byte at an offset from `R5` and compare it. -/
def byteCheck (compare : Nat → UInt8 → BpfInsn) (pc : Nat) (item : UInt8 × Nat) : Prog :=
  [ldxMem BPF_B R7 R5 (Int16.ofNat item.2), compare (pc + 1) item.1]

/-- The unrolled comparison of `bytes` with the buffer at `R5`. -/
def byteChecks (compare : Nat → UInt8 → BpfInsn) (pc : Nat) (bytes : List (UInt8 × Nat)) : Prog :=
  assemble (fun _ => 2) (byteCheck compare) pc bytes

/-! ## Literal search -/

/-- Setup, and the head of the loop with its bounds check. -/
def literalHead (pattern : List UInt8) (boundsCheck : BpfInsn) : Prog :=
  [ldxMem BPF_W R2 R1 0, ldxMem BPF_W R3 R1 4, alu64Imm BPF_MOV R4 0,
    alu64Reg BPF_MOV R5 R2, alu64Reg BPF_ADD R5 R4, alu64Reg BPF_MOV R6 R5,
    alu64Imm BPF_ADD R6 (Int32.ofNat pattern.length), boundsCheck]

/-- Found, next iteration, and not found. -/
def literalTail (pattern : List UInt8) : Prog :=
  ret 1 ++
    [alu64Imm BPF_ADD R4 1, jmpImm BPF_JA R0 0 (jumpOffset (11 + 2 * pattern.length) 3)] ++
    ret 0

/-- The loop starts at 3, the comparisons at 8, and the next iteration at
    `10 + 2 * n` for a pattern of `n` bytes. -/
def literalProgram (pattern : List UInt8) : Prog :=
  literalHead pattern (jmpReg BPF_JGT R6 R3 (jumpOffset 7 (12 + 2 * pattern.length))) ++
    (byteChecks (mismatchJump (10 + 2 * pattern.length)) 8 pattern.zipIdx ++ literalTail pattern)

/-- The program for the empty pattern. -/
def emptyLiteralProgram : Prog :=
  [ldxMem BPF_W R2 R1 0, ldxMem BPF_W R3 R1 4] ++ ret 1

/-! ## Alternation -/

def altSize (alt : List UInt8) : Nat := 4 + 2 * alt.length

/-- The block of an alternative: bounds check, comparisons, and the jump taken
    when all of them fell through. -/
def altCode (boundJump matchJump : BpfInsn) (compare : Nat → UInt8 → BpfInsn) (start : Nat)
    (alt : List UInt8) : Prog :=
  [alu64Reg BPF_MOV R6 R5, alu64Imm BPF_ADD R6 (Int32.ofNat alt.length), boundJump] ++
    (byteChecks compare (start + 3) alt.zipIdx ++ [matchJump])

/-- A block gives up by going to the block after it. -/
def altBlock (success start : Nat) (alt : List UInt8) : Prog :=
  altCode (jmpReg BPF_JGT R6 R3 (jumpOffset (start + 2) (start + altSize alt)))
    (jmpImm BPF_JA R0 0 (jumpOffset (start + 3 + 2 * alt.length) success))
    (mismatchJump (start + altSize alt)) start alt

def altProgram (alternatives : List (List UInt8)) : Prog :=
  assemble altSize (altBlock (extent altSize alternatives + 2)) 0 alternatives ++ (ret 0 ++ ret 1)

/-! ## Character classes -/

/-- The two comparisons of a range. -/
def rangeCheck (success pc : Nat) (r : CharRange) : Prog :=
  [jmpImm BPF_JLT R7 (Int32.ofNat r.lo.toNat) 1,
    jmpImm BPF_JLE R7 (Int32.ofNat r.hi.toNat) (jumpOffset (pc + 1) success)]

def classProgram (ranges : List CharRange) : Prog :=
  assemble (fun _ => 2) (rangeCheck (2 * ranges.length + 2)) 0 ranges ++ (ret 0 ++ ret 1)

/-! ## Emitting -/

theorem length_byteCheck (compare : Nat → UInt8 → BpfInsn) (pc : Nat) (item : UInt8 × Nat) :
    (byteCheck compare pc item).length = 2 := rfl

@[simp] theorem length_byteChecks (compare : Nat → UInt8 → BpfInsn) (pc : Nat)
    (bytes : List (UInt8 × Nat)) : (byteChecks compare pc bytes).length = 2 * bytes.length := by
  rw [byteChecks, length_assemble (length_byteCheck compare), extent_const]

/-- The addresses of the comparisons. -/
def checkIndices (pc : Nat) (bytes : List (UInt8 × Nat)) : List Nat :=
  (placed (fun _ => 2) pc bytes).map fun item => item.1 + 1

theorem foldl_emitByteCheck (placeholder : UInt8 → BpfInsn) (prog : Prog) (indices : List Nat)
    (bytes : List (UInt8 × Nat)) :
    bytes.foldl (emitByteCheck placeholder) (prog, indices) =
      (prog ++ byteChecks (fun _ => placeholder) prog.length bytes,
        indices ++ checkIndices prog.length bytes) := by
  obtain ⟨hprog, htable⟩ := foldl_emit (emitByteCheck placeholder) Prod.fst Prod.snd
    (fun item => item.1 + 1) (length_byteCheck fun _ => placeholder)
    (by intro s x; simp [emitByteCheck, push, byteCheck])
    (by intro s x; simp [emitByteCheck, push]) (prog, indices) bytes
  exact Prod.ext hprog htable

theorem set_append_add {α : Type} (pre l : List α) (k : Nat) (x : α) :
    (pre ++ l).set (pre.length + k) x = pre ++ l.set k x := by
  rw [List.set_append_right _ _ (Nat.le_add_right _ _), Nat.add_sub_cancel_left]

/-- A forward offset computed by subtracting sizes is the same offset. -/
theorem ofNat_sub_eq_jumpOffset {start stop : Nat} (h : start < stop) :
    Int16.ofNat (stop - start - 1) = jumpOffset start stop := by
  have hcast : ((stop - start - 1 : Nat) : Int) = stop - start - 1 := by omega
  rw [jumpOffset, ← hcast, Int16.ofInt_eq_ofNat]

/-- So is one computed by subtracting truncated indices. -/
theorem ofNat_sub_ofNat_eq_jumpOffset (start stop : Nat) :
    Int16.ofNat stop - Int16.ofNat start - 1 = jumpOffset start stop := by
  rw [jumpOffset, Int16.ofInt_sub, Int16.ofInt_sub, Int16.ofInt_eq_ofNat, Int16.ofInt_eq_ofNat]
  rfl

theorem emitLiteralSearch_nil : emitLiteralSearch [] = emptyLiteralProgram := rfl

theorem foldl_patch_byteChecks (placeholder : UInt8 → BpfInsn) (next : Nat)
    (patch : Prog → Nat × UInt8 × Nat → Prog) (pc : Nat) (bytes : List (UInt8 × Nat))
    (hpatch : ∀ p byte offset pre post, (p, byte, offset) ∈ placed (fun _ => 2) pc bytes →
      pre.length = p →
      patch (pre ++ ldxMem BPF_B R7 R5 (Int16.ofNat offset) :: placeholder byte :: post)
        (p, byte, offset) =
      pre ++ ldxMem BPF_B R7 R5 (Int16.ofNat offset) :: mismatchJump next (p + 1) byte :: post)
    (pre post : Prog) (hpre : pre.length = pc) :
    (placed (fun _ => 2) pc bytes).foldl patch
        (pre ++ (byteChecks (fun _ => placeholder) pc bytes ++ post)) =
      pre ++ (byteChecks (mismatchJump next) pc bytes ++ post) := by
  apply foldl_patch _ _ patch pc bytes (length_byteCheck _) _ pre post hpre
  rintro p ⟨byte, offset⟩ pre' post' hmem hlen
  exact hpatch p byte offset pre' post' hmem hlen

/-- Overwrite the comparison of a placed byte with its final form. -/
def patchCheck (next : Nat) (prog : Prog) (item : Nat × UInt8 × Nat) : Prog :=
  prog.set (item.1 + 1) (mismatchJump next (item.1 + 1) item.2.1)

theorem emitLiteralSearch_eq {pattern : List UInt8} (hne : pattern ≠ []) :
    emitLiteralSearch pattern = literalProgram pattern := by
  have hempty : pattern.isEmpty = false := by simp [hne]
  have hlen : ∀ compare, (byteChecks compare 8 pattern.zipIdx).length = 2 * pattern.length := by
    intro compare
    rw [length_byteChecks, List.length_zipIdx]
  have hfound : 8 + 2 * pattern.length + 1 + 1 = 10 + 2 * pattern.length := by omega
  have hback : 10 + 2 * pattern.length + 1 = 11 + 2 * pattern.length := by omega
  have hfail : 11 + 2 * pattern.length + 1 = 12 + 2 * pattern.length := by omega
  simp only [emitLiteralSearch, hempty, Bool.false_eq_true, if_false, foldl_emitByteCheck,
    push, List.length_append, List.length_cons, List.length_nil, Nat.zero_add, Nat.reduceAdd,
    hlen, List.nil_append, hfound, hback, hfail]
  rw [ofNat_sub_eq_jumpOffset (by omega), checkIndices, List.zipIdx_map, List.foldl_map]
  -- The position in the table is the position of the byte in the pattern.
  rw [foldl_zipIdx (g := patchCheck (10 + 2 * pattern.length))]
  · refine Eq.trans ?_ (foldl_patch_byteChecks (fun _ => exit) (10 + 2 * pattern.length)
      (patchCheck (10 + 2 * pattern.length)) 8 pattern.zipIdx ?_
      (literalHead pattern (jmpReg BPF_JGT R6 R3 (jumpOffset 7 (12 + 2 * pattern.length))))
      (literalTail pattern) rfl)
    · congr 1
      simp [literalHead, literalTail, ret, jumpOffset]
    · rintro p byte offset pre post - rfl
      rw [patchCheck, set_append_add]
      rfl
  · rintro k ⟨p, byte, offset⟩ hget prog
    have hbyte : pattern[k]? = some byte := by
      have hitem := getElem?_placed hget
      rw [List.getElem?_zipIdx] at hitem
      cases hk : pattern[k]? with
      | none => simp [hk] at hitem
      | some b =>
        simp only [hk, Option.map_some, Option.some.injEq, Prod.mk.injEq] at hitem
        rw [hitem.1]
    have hbound := (placed_bounds (List.mem_of_getElem? hget)).2
    rw [extent_const, List.length_zipIdx] at hbound
    simp only [Prod.map, id, Nat.zero_add, patchCheck, mismatchJump, List.getD, hbyte,
      Option.getD_some]
    rw [ofNat_sub_eq_jumpOffset (by omega)]

/-! ### Alternation -/

theorem length_altCode (boundJump matchJump : BpfInsn) (compare : Nat → UInt8 → BpfInsn)
    (start : Nat) (alt : List UInt8) :
    (altCode boundJump matchJump compare start alt).length = altSize alt := by
  simp only [altCode, List.length_append, List.length_cons, List.length_nil, length_byteChecks,
    List.length_zipIdx, altSize]
  omega

theorem length_altBlock (success start : Nat) (alt : List UInt8) :
    (altBlock success start alt).length = altSize alt :=
  length_altCode ..

/-- A comparison before it is patched. -/
def mismatchPlaceholder (byte : UInt8) : BpfInsn :=
  jmpImm BPF_JNE R7 (Int32.ofNat byte.toNat) 0

def boundPlaceholder : BpfInsn := jmpReg BPF_JGT R6 R3 0

def matchPlaceholder : BpfInsn := jmpImm BPF_JA R0 0 0

/-- The block of an alternative as it is first pushed. -/
def altPlaceholder (start : Nat) (alt : List UInt8) : Prog :=
  altCode boundPlaceholder matchPlaceholder (fun _ => mismatchPlaceholder) start alt

/-- The emitter keeps the program and its four tables in step. -/
theorem foldl_emitAlt (alternatives : List (List UInt8)) :
    let e := alternatives.foldl emitAlt {}
    e.prog = assemble altSize altPlaceholder 0 alternatives ∧
    e.mismatchJumpIndices = (placed altSize 0 alternatives).map
      (fun item => checkIndices (item.1 + 3) item.2.zipIdx) ∧
    e.boundJumpIndices = (placed altSize 0 alternatives).map (fun item => item.1 + 2) ∧
    e.matchJumpIndices = (placed altSize 0 alternatives).map
      (fun item => item.1 + 3 + 2 * item.2.length) ∧
    e.alternativeStartIndices = (placed altSize 0 alternatives).map Prod.fst := by
  have hsize : ∀ start alt, (altPlaceholder start alt).length = altSize alt :=
    length_altCode _ _ _
  have hprog : ∀ (s : AltEmission) alt,
      (emitAlt s alt).prog = s.prog ++ altPlaceholder s.prog.length alt := by
    intro s alt
    simp [emitAlt, push, foldl_emitByteCheck, altPlaceholder, altCode, boundPlaceholder,
      matchPlaceholder]
    rfl
  have hmismatch := foldl_emit emitAlt AltEmission.prog AltEmission.mismatchJumpIndices
    (fun item => checkIndices (item.1 + 3) item.2.zipIdx) hsize hprog
    (by intro s alt; simp [emitAlt, push, foldl_emitByteCheck]) {} alternatives
  have hbound := foldl_emit emitAlt AltEmission.prog AltEmission.boundJumpIndices
    (fun item => item.1 + 2) hsize hprog
    (by intro s alt; simp [emitAlt]) {} alternatives
  have hmatch := foldl_emit emitAlt AltEmission.prog AltEmission.matchJumpIndices
    (fun item => item.1 + 3 + 2 * item.2.length) hsize hprog
    (by intro s alt; simp [emitAlt, push, foldl_emitByteCheck]; omega) {} alternatives
  have hstart := foldl_emit emitAlt AltEmission.prog AltEmission.alternativeStartIndices
    Prod.fst hsize hprog (by intro s alt; simp [emitAlt]) {} alternatives
  exact ⟨hmismatch.1, hmismatch.2, hbound.2, hmatch.2, hstart.2⟩

theorem getD_append_add {α : Type} (pre l : List α) (k : Nat) (d : α) :
    (pre ++ l).getD (pre.length + k) d = l.getD k d := by
  rw [List.getD, List.getD, List.getElem?_append_right (Nat.le_add_right _ _),
    Nat.add_sub_cancel_left]

/-- Patching the comparisons of one block. The byte compared with is read back
    from the placeholder. -/
theorem patch_mismatches (boundJump matchJump : BpfInsn) (next p : Nat) (alt : List UInt8)
    (pre post : Prog) (hpre : pre.length = p) :
    (checkIndices (p + 3) alt.zipIdx).foldl (fun prog jumpIdx =>
        patchImmJump prog jumpIdx next R7 (prog.getD jumpIdx exit).imm BPF_JNE)
      (pre ++ (altCode boundJump matchJump (fun _ => mismatchPlaceholder) p alt ++ post)) =
    pre ++ (altCode boundJump matchJump (mismatchJump next) p alt ++ post) := by
  rw [checkIndices, List.foldl_map]
  have hpatch := foldl_patch_byteChecks mismatchPlaceholder next
    (fun prog item => patchImmJump prog (item.1 + 1) next R7
      (prog.getD (item.1 + 1) exit).imm BPF_JNE) (p + 3) alt.zipIdx
    (by
      rintro q byte offset pre' post' - rfl
      simp only [patchImmJump, set_append_add, getD_append_add]
      rfl)
    (pre ++ [alu64Reg BPF_MOV R6 R5, alu64Imm BPF_ADD R6 (Int32.ofNat alt.length), boundJump])
    (matchJump :: post) (by simp [hpre])
  simpa [altCode] using hpatch

/-- The jump of a matched block is the last instruction of the block. -/
theorem set_matchJump (boundJump old new : BpfInsn) (compare : Nat → UInt8 → BpfInsn)
    (alt : List UInt8) (pre post : Prog) :
    (pre ++ (altCode boundJump old compare pre.length alt ++ post)).set
        (pre.length + 3 + 2 * alt.length) new =
      pre ++ (altCode boundJump new compare pre.length alt ++ post) := by
  have hset := set_append_add
    ([alu64Reg BPF_MOV R6 R5, alu64Imm BPF_ADD R6 (Int32.ofNat alt.length), boundJump] ++
      byteChecks compare (pre.length + 3) alt.zipIdx) (old :: post) 0 new
  rw [List.length_append, length_byteChecks, List.length_zipIdx] at hset
  rw [Nat.add_assoc, set_append_add]
  simpa [altCode, Nat.add_comm] using hset

theorem patchMatchJump_eq (prog : Prog) (start matchIdx : Nat) :
    patchMatchJump prog start matchIdx =
      prog.set start (jmpImm BPF_JA R0 0 (jumpOffset start matchIdx)) := by
  have hcode : BPF_JMP ||| BPF_JA ||| BPF_K = BPF_JMP ||| BPF_JA := by decide
  rw [patchMatchJump, jmpImm, hcode]

/-- The three patching passes over the placed alternatives. -/
theorem foldl_patchAlternatives (alternatives : List (List UInt8)) (success : Nat) (post : Prog) :
    let items := placed altSize 0 alternatives
    let mismatches := fun prog (item : Nat × List UInt8) =>
      (checkIndices (item.1 + 3) item.2.zipIdx).foldl (fun prog jumpIdx =>
        patchImmJump prog jumpIdx (item.1 + altSize item.2) R7
          (prog.getD jumpIdx exit).imm BPF_JNE) prog
    let bounds := fun prog (item : Nat × List UInt8) =>
      patchRegJump prog (item.1 + 2) (item.1 + altSize item.2) R6 R3 BPF_JGT
    let matches_ := fun prog (item : Nat × List UInt8) =>
      patchMatchJump prog (item.1 + 3 + 2 * item.2.length) success
    items.foldl matches_ (items.foldl bounds (items.foldl mismatches
      (assemble altSize altPlaceholder 0 alternatives ++ post))) =
    assemble altSize (altBlock success) 0 alternatives ++ post := by
  intro items mismatches bounds matches_
  have hmismatches := foldl_patch altPlaceholder
    (fun start alt => altCode boundPlaceholder matchPlaceholder
      (mismatchJump (start + altSize alt)) start alt)
    mismatches 0 alternatives (fun _ _ => length_altCode ..)
    (by
      rintro p alt pre post - hpre
      exact patch_mismatches _ _ _ _ _ _ _ hpre) [] post rfl
  have hbounds := foldl_patch
    (fun start alt => altCode boundPlaceholder matchPlaceholder
      (mismatchJump (start + altSize alt)) start alt)
    (fun start alt => altCode
      (jmpReg BPF_JGT R6 R3 (jumpOffset (start + 2) (start + altSize alt))) matchPlaceholder
      (mismatchJump (start + altSize alt)) start alt)
    bounds 0 alternatives (fun _ _ => length_altCode ..)
    (by
      rintro p alt pre post - rfl
      simp only [bounds, patchRegJump, set_append_add]
      rfl) [] post rfl
  have hmatches := foldl_patch
    (fun start alt => altCode
      (jmpReg BPF_JGT R6 R3 (jumpOffset (start + 2) (start + altSize alt))) matchPlaceholder
      (mismatchJump (start + altSize alt)) start alt)
    (altBlock success) matches_ 0 alternatives (fun _ _ => length_altCode ..)
    (by
      rintro p alt pre post - rfl
      simp only [matches_, patchMatchJump_eq]
      exact set_matchJump ..) [] post rfl
  simp only [List.nil_append] at hmismatches hbounds hmatches
  rw [hmismatches, hbounds, hmatches]

theorem emitAlternation_eq (alternatives : List (List UInt8)) :
    emitAlternation alternatives = altProgram alternatives := by
  obtain ⟨hprog, hmismatch, hbound, hmatch, hstart⟩ := foldl_emitAlt alternatives
  have hsize : ∀ start alt, (altPlaceholder start alt).length = altSize alt :=
    length_altCode _ _ _
  have hnext : ∀ k item, (placed altSize 0 alternatives)[k]? = some item →
      ((placed altSize 0 alternatives).map Prod.fst)[0 + k + 1]?.getD
        (extent altSize alternatives) = item.1 + altSize item.2 := by
    rintro k ⟨p, alt⟩ hk
    simpa using placed_next hk
  simp only [emitAlternation, hprog, hmismatch, hbound, hmatch, hstart, push, List.length_append,
    length_assemble hsize, List.length_cons, List.length_nil, List.zipIdx_map, List.foldl_map,
    Prod.map, id]
  rw [foldl_zipIdx (g := fun prog item =>
    patchRegJump prog (item.1 + 2) (item.1 + altSize item.2) R6 R3 BPF_JGT)
    (fun k item hk prog => by rw [hnext k item hk])]
  rw [foldl_zipIdx (g := fun prog item => (checkIndices (item.1 + 3) item.2.zipIdx).foldl
    (fun prog jumpIdx => patchImmJump prog jumpIdx (item.1 + altSize item.2) R7
      (prog.getD jumpIdx exit).imm BPF_JNE) prog)
    (fun k item hk prog => by rw [hnext k item hk])]
  have hpasses := foldl_patchAlternatives alternatives (extent altSize alternatives + 2)
    (ret 0 ++ ret 1)
  simpa [altProgram, ret] using hpasses

/-! ### Character classes -/

/-- The comparisons of a range before the second one is patched. -/
def rangePlaceholder (_pc : Nat) (r : CharRange) : Prog :=
  [jmpImm BPF_JLT R7 (Int32.ofNat r.lo.toNat) 1, jmpImm BPF_JLE R7 (Int32.ofNat r.hi.toNat) 0]

theorem modify_append_add {α : Type} (pre l : List α) (k : Nat) (f : α → α) :
    (pre ++ l).modify (pre.length + k) f = pre ++ l.modify k f := by
  induction pre with
  | nil => simp
  | cons a pre ih => rw [List.length_cons, Nat.succ_add]; simp [ih]

theorem length_rangeCheck (success pc : Nat) (r : CharRange) :
    (rangeCheck success pc r).length = 2 := rfl

theorem emitCharClass_eq (ranges : List CharRange) :
    emitCharClass ranges = classProgram ranges := by
  have hsize : ∀ pc r, (rangePlaceholder pc r).length = 2 := fun _ _ => rfl
  obtain ⟨hprog, hjumps⟩ := foldl_emit emitRange Prod.fst Prod.snd (fun item => item.1 + 1)
    hsize (by intro s r; simp [emitRange, push, rangePlaceholder])
    (by intro s r; simp [emitRange, push]) ([], []) ranges
  simp only [List.nil_append, List.length_nil] at hprog hjumps
  simp only [emitCharClass, hprog, hjumps, push, List.length_append, length_assemble hsize,
    extent_const, List.length_cons, List.length_nil, List.foldl_map,
    ofNat_sub_ofNat_eq_jumpOffset]
  have hpatch := foldl_patch rangePlaceholder (rangeCheck (2 * ranges.length + 2))
    (fun prog item => prog.modify (item.1 + 1) fun insn =>
      { insn with off := jumpOffset (item.1 + 1) (2 * ranges.length + 2) })
    0 ranges (length_rangeCheck _)
    (by
      rintro p r pre post - rfl
      rw [modify_append_add]
      rfl) [] (ret 0 ++ ret 1) rfl
  simpa [classProgram, ret] using hpatch

/-! ## Sizes -/

@[simp] theorem length_ret (value : Int32) : (ret value).length = 2 := rfl

theorem length_literalProgram (pattern : List UInt8) :
    (literalProgram pattern).length = 14 + 2 * pattern.length := by
  simp only [literalProgram, List.length_append, length_byteChecks, List.length_zipIdx]
  simp only [literalHead, literalTail, List.length_append, List.length_cons, List.length_nil,
    length_ret]
  omega

theorem length_altProgram (alternatives : List (List UInt8)) :
    (altProgram alternatives).length = extent altSize alternatives + 4 := by
  rw [altProgram, List.length_append, length_assemble (length_altBlock _)]
  rfl

theorem length_classProgram (ranges : List CharRange) :
    (classProgram ranges).length = 2 * ranges.length + 4 := by
  rw [classProgram, List.length_append, length_assemble (length_rangeCheck _), extent_const]
  rfl

/-! ## Compile functions -/

theorem compileWithLimit_eq_ok {n : Nat} :
    compileWithLimit n = .ok () ↔ n ≤ MAX_BPF_INSTRUCTION_LEN := by
  unfold compileWithLimit
  split
  · simp; omega
  · simp; omega

theorem finish_eq_ok {u : Usize} {prog prog' : Prog} (h : finish u prog = .ok prog') :
    u.fitsVec 8 prog.length = true ∧ prog' = prog := by
  unfold finish at h
  split at h
  · next hfits => cases h; exact ⟨hfits, rfl⟩
  · cases h

/-- The program of a literal, for any pattern. -/
def literalOf (pattern : List UInt8) : Prog :=
  if pattern.isEmpty then emptyLiteralProgram else literalProgram pattern

theorem emitLiteralSearch_eq_literalOf (pattern : List UInt8) :
    emitLiteralSearch pattern = literalOf pattern := by
  cases pattern with
  | nil => exact emitLiteralSearch_nil
  | cons b bs => exact emitLiteralSearch_eq (List.cons_ne_nil b bs)

theorem length_literalOf_le (pattern : List UInt8) :
    (literalOf pattern).length ≤ 14 + 2 * pattern.length := by
  unfold literalOf
  split
  · exact Nat.le_trans (show (4 : Nat) ≤ 14 by omega) (Nat.le_add_right _ _)
  · exact Nat.le_of_eq (length_literalProgram pattern)

theorem compileLiteralSearch_of_le {u : Usize} {pattern : List UInt8}
    (h : pattern.length ≤ MAX_BPF_PATTERN_LEN) :
    compileLiteralSearch u pattern = .ok (literalOf pattern) := by
  have hcount : literalSearchInstructionCount u pattern.length ≤ MAX_BPF_INSTRUCTION_LEN := by
    simp only [literalSearchInstructionCount, MAX_BPF_INSTRUCTION_LEN, MAX_BPF_PATTERN_LEN] at *
    split
    · omega
    · rw [u.wrap_of_lt (by omega : pattern.length * 2 < 2 ^ 32), u.wrap_of_lt (by omega)]
      omega
  have hfits : u.fitsVec 8 (literalOf pattern).length = true := by
    have hlen := length_literalOf_le pattern
    apply u.fitsVec_of_lt
    simp only [MAX_BPF_PATTERN_LEN] at h
    omega
  rw [compileLiteralSearch, compileWithLimit_eq_ok.mpr hcount, Outcome.ok_andThen,
    if_neg (by omega), emitLiteralSearch_eq_literalOf, finish, if_pos hfits]

theorem compileLiteralSearch_eq_ok {u : Usize} {pattern : List UInt8} {prog : Prog}
    (h : compileLiteralSearch u pattern = .ok prog) :
    pattern.length ≤ MAX_BPF_PATTERN_LEN ∧ prog = literalOf pattern := by
  obtain ⟨-, -, hk⟩ := Outcome.andThen_eq_ok.mp h
  split at hk
  · cases hk
  · next hle =>
    rw [emitLiteralSearch_eq_literalOf] at hk
    exact ⟨by omega, (finish_eq_ok hk).2⟩

/-- The estimate of an alternation is the size of its program, as `usize` sees it. -/
theorem estimateAlternationInstructions_eq {u : Usize} {alternatives : List (List UInt8)}
    (hne : alternatives ≠ []) (hsome : [] ∉ alternatives) :
    estimateAlternationInstructions u alternatives = u.wrap (extent altSize alternatives + 4) := by
  have hfold : ∀ (alts : List (List UInt8)) acc, [] ∉ alts →
      u.wrap (4 + (alts.map fun alt => if alt.isEmpty then 0
        else u.wrap (4 + u.wrap (alt.length * 2))).foldl (fun acc n => u.wrap (acc + n)) acc) =
      u.wrap (4 + (acc + extent altSize alts)) := by
    intro alts
    induction alts with
    | nil => intro acc _; rfl
    | cons alt alts ih =>
      intro acc hnot
      have hempty : alt.isEmpty = false := by
        cases alt with
        | nil => exact absurd List.mem_cons_self hnot
        | cons => rfl
      simp only [List.map_cons, List.foldl_cons, hempty, Bool.false_eq_true, if_false, extent_cons]
      rw [ih _ (fun hmem => hnot (List.mem_cons_of_mem _ hmem))]
      have hone : u.wrap (4 + u.wrap (alt.length * 2)) = u.wrap (altSize alt) := by
        rw [u.wrap_add_wrap, altSize, Nat.mul_comm]
      calc u.wrap (4 + (u.wrap (acc + u.wrap (4 + u.wrap (alt.length * 2))) + extent altSize alts))
          = u.wrap (4 + extent altSize alts + u.wrap (acc + altSize alt)) := by
            rw [hone, u.wrap_add_wrap, Nat.add_comm (u.wrap _), Nat.add_assoc]
        _ = u.wrap (4 + extent altSize alts + (acc + altSize alt)) := u.wrap_add_wrap _ _
        _ = u.wrap (4 + (acc + (altSize alt + extent altSize alts))) := by
            congr 1
            omega
  have hany : alternatives.any List.isEmpty = false := by
    rw [List.any_eq_false]
    intro alt hmem hempty
    rw [List.isEmpty_iff.mp hempty] at hmem
    exact hsome hmem
  have hempty : alternatives.isEmpty = false := by simp [hne]
  simp only [estimateAlternationInstructions, hempty, hany, Bool.or_self, Bool.false_eq_true,
    if_false]
  rw [hfold alternatives 0 hsome, Nat.zero_add, Nat.add_comm]

/-- The three kinds of program an alternation compiles to. -/
theorem compileAlternation_eq_ok {u : Usize} {alternatives : List (List UInt8)} {prog : Prog}
    (h : compileAlternation u alternatives = .ok prog) :
    (alternatives = [] ∧ prog = ret 0) ∨ ([] ∈ alternatives ∧ prog = ret 1) ∨
    ([] ∉ alternatives ∧ alternatives ≠ [] ∧
      extent altSize alternatives + 4 ≤ MAX_BPF_INSTRUCTION_LEN ∧
      prog = altProgram alternatives) := by
  unfold compileAlternation at h
  split at h
  · next hempty =>
    cases h
    exact .inl ⟨List.isEmpty_iff.mp hempty, rfl⟩
  · next hempty =>
    split at h
    · next hany =>
      cases h
      obtain ⟨alt, hmem, halt⟩ := List.any_eq_true.mp hany
      rw [List.isEmpty_iff.mp halt] at hmem
      exact .inr (.inl ⟨hmem, rfl⟩)
    · next hany =>
      have hne : alternatives ≠ [] := fun heq => hempty (List.isEmpty_iff.mpr heq)
      have hsome : [] ∉ alternatives := fun hmem =>
        hany (List.any_eq_true.mpr ⟨[], hmem, rfl⟩)
      obtain ⟨⟨⟩, hlimit, hfinish⟩ := Outcome.andThen_eq_ok.mp h
      rw [emitAlternation_eq] at hfinish
      obtain ⟨hfits, rfl⟩ := finish_eq_ok hfinish
      rw [length_altProgram] at hfits
      -- A program that exists fits in memory, so its estimate did not wrap.
      rw [compileWithLimit_eq_ok, estimateAlternationInstructions_eq hne hsome,
        Usize.wrap_of_fitsVec (by omega) hfits] at hlimit
      exact .inr (.inr ⟨hsome, hne, hlimit, rfl⟩)

theorem compileCharClass_eq_ok {u : Usize} {ranges : List CharRange} {prog : Prog}
    (h : compileCharClass u ranges = .ok prog) :
    ranges ≠ [] ∧ (∀ r ∈ ranges, r.lo ≤ r.hi) ∧
    2 * ranges.length + 4 ≤ MAX_BPF_INSTRUCTION_LEN ∧ prog = classProgram ranges := by
  unfold compileCharClass at h
  split at h
  · cases h
  · next hempty =>
    split at h
    · cases h
    · next hany =>
      have hne : ranges ≠ [] := fun heq => hempty (List.isEmpty_iff.mpr heq)
      have hle : ∀ r ∈ ranges, r.lo ≤ r.hi := by
        intro r hmem
        by_contra hgt
        exact hany (List.any_eq_true.mpr ⟨r, hmem, by simpa using hgt⟩)
      obtain ⟨⟨⟩, hlimit, hfinish⟩ := Outcome.andThen_eq_ok.mp h
      rw [emitCharClass_eq] at hfinish
      obtain ⟨hfits, rfl⟩ := finish_eq_ok hfinish
      rw [length_classProgram] at hfits
      rw [compileWithLimit_eq_ok, u.wrap_add_wrap, Nat.mul_comm, Nat.add_comm,
        Usize.wrap_of_fitsVec (by omega) hfits] at hlimit
      exact ⟨hne, hle, hlimit, rfl⟩

/-- A text class compiles to the program of the ranges it denotes. -/
theorem compileCharacterClass_eq_ok {u : Usize} {text : List UInt8} {prog : Prog}
    (h : compileCharacterClass u text = .ok prog) :
    prog = ret 0 ∨ ∃ ranges, ranges ≠ [] ∧
      2 * ranges.length + 4 ≤ MAX_BPF_INSTRUCTION_LEN ∧ prog = classProgram ranges := by
  unfold compileCharacterClass at h
  split at h
  · cases h; exact .inl rfl
  · obtain ⟨ranges, -, hclass⟩ := Outcome.andThen_eq_ok.mp h
    obtain ⟨hne, -, hlimit, rfl⟩ := compileCharClass_eq_ok hclass
    exact .inr ⟨_, hne, hlimit, rfl⟩

end Ebpfkit
