-- SUMMARY: The four compile functions, as the source emits and back-patches their programs.
import Ebpfkit.Assembler
import Ebpfkit.Compiler.Verify

/-!
# Code generation

`src/compiler/codegen.rs` and `src/compiler/emit.rs`. A compile function checks
its input, pushes instructions onto a program that starts empty, some of them as
placeholders, and overwrites the placeholders once their jump targets are known.
The emitters below do the same: `push` appends, a patch replaces the instruction
at an index, and the tables of indices are carried along.
-/

namespace Ebpfkit

abbrev Prog := List BpfInsn

def push (prog : Prog) (insn : BpfInsn) : Prog := prog ++ [insn]

/-- A finished program. Growing it panics once it would not fit in a `Vec`; a
    record takes eight bytes. -/
def finish (u : Usize) (prog : Prog) : Outcome CompileError Prog :=
  if u.fitsVec 8 prog.length then .ok prog else .panicked

/-! ## Patching jumps -/

/-- The offset of a jump, truncated to the 16 bits of its field. -/
def jumpOffset (start stop : Nat) : Int16 :=
  Int16.ofInt ((stop : Int) - start - 1)

def patchMatchJump (prog : Prog) (start matchIdx : Nat) : Prog :=
  prog.set start (.new (BPF_JMP ||| BPF_JA) R0 0 (jumpOffset start matchIdx) 0)

def patchRegJump (prog : Prog) (start stop : Nat) (dst src op : UInt8) : Prog :=
  prog.set start (.new (BPF_JMP ||| op ||| BPF_X) dst src (jumpOffset start stop) 0)

def patchImmJump (prog : Prog) (start stop : Nat) (dst : UInt8) (imm : Int32) (op : UInt8) : Prog :=
  prog.set start (.new (BPF_JMP ||| op ||| BPF_K) dst 0 (jumpOffset start stop) imm)

/-! ## Literal search -/

/-- Push the load of the byte at `offset` and a placeholder for its comparison,
    and note where the placeholder stands. Both matchers unroll into this. -/
def emitByteCheck (placeholder : UInt8 → BpfInsn) (acc : Prog × List Nat) (item : UInt8 × Nat) :
    Prog × List Nat :=
  let (prog, jumpIndices) := acc
  let (byte, offset) := item
  let prog := push prog (ldxMem BPF_B R7 R5 (Int16.ofNat offset))
  let jumpIdx := prog.length
  let prog := push prog (placeholder byte)
  (prog, jumpIndices ++ [jumpIdx])

/-- The program of `compile_literal_search` for a pattern that passed the gates. -/
def emitLiteralSearch (pattern : List UInt8) : Prog :=
  -- The context holds `data` and, after it, `data_end`.
  let prog := push [] (ldxMem BPF_W R2 R1 0)
  let prog := push prog (ldxMem BPF_W R3 R1 4)
  if pattern.isEmpty then
    let prog := push prog (alu64Imm BPF_MOV R0 1)
    push prog exit
  else
    let pLen := Int32.ofNat pattern.length
    let prog := push prog (alu64Imm BPF_MOV R4 0)
    let loopStartIdx := prog.length
    let prog := push prog (alu64Reg BPF_MOV R5 R2)
    let prog := push prog (alu64Reg BPF_ADD R5 R4)
    let prog := push prog (alu64Reg BPF_MOV R6 R5)
    let prog := push prog (alu64Imm BPF_ADD R6 pLen)
    let boundsCheckIdx := prog.length
    let prog := push prog exit
    let (prog, jumpToNextTargets) :=
      pattern.zipIdx.foldl (emitByteCheck fun _ => exit) (prog, [])
    -- Every comparison fell through: found.
    let prog := push prog (alu64Imm BPF_MOV R0 1)
    let prog := push prog exit
    let nextIterIdx := prog.length
    let prog := push prog (alu64Imm BPF_ADD R4 1)
    let jumpBackOffset := Int16.ofInt ((loopStartIdx : Int) - prog.length - 1)
    let prog := push prog (jmpImm BPF_JA R0 0 jumpBackOffset)
    let loopFailIdx := prog.length
    let prog := push prog (alu64Imm BPF_MOV R0 0)
    let prog := push prog exit
    let boundsOffset := Int16.ofNat (loopFailIdx - boundsCheckIdx - 1)
    let prog := prog.set boundsCheckIdx (jmpReg BPF_JGT R6 R3 boundsOffset)
    jumpToNextTargets.zipIdx.foldl (fun prog (jumpIdx, i) =>
      let patternByte := Int32.ofNat (pattern.getD i 0).toNat
      let iterOffset := Int16.ofNat (nextIterIdx - jumpIdx - 1)
      prog.set jumpIdx (jmpImm BPF_JNE R7 patternByte iterOffset)) prog

def compileLiteralSearch (u : Usize) (pattern : List UInt8) : Outcome CompileError Prog :=
  (compileWithLimit (literalSearchInstructionCount u pattern.length)).andThen fun _ =>
    if pattern.length > MAX_BPF_PATTERN_LEN then
      .err (.patternTooLong pattern.length MAX_BPF_PATTERN_LEN)
    else
      finish u (emitLiteralSearch pattern)

/-! ## Alternation -/

/-- The program under construction with the tables of the indices to patch. -/
structure AltEmission where
  prog : Prog := []
  mismatchJumpIndices : List (List Nat) := []
  boundJumpIndices : List Nat := []
  matchJumpIndices : List Nat := []
  alternativeStartIndices : List Nat := []

def emitAlt (acc : AltEmission) (alt : List UInt8) : AltEmission :=
  let alternativeStartIndices := acc.alternativeStartIndices ++ [acc.prog.length]
  let boundCheckIdx := acc.prog.length
  let prog := push acc.prog (alu64Reg BPF_MOV R6 R5)
  let prog := push prog (alu64Imm BPF_ADD R6 (Int32.ofNat alt.length))
  let prog := push prog (jmpReg BPF_JGT R6 R3 0)
  let boundJumpIndices := acc.boundJumpIndices ++ [boundCheckIdx + 2]
  let (prog, altMismatches) := alt.zipIdx.foldl
    (emitByteCheck fun expected => jmpImm BPF_JNE R7 (Int32.ofNat expected.toNat) 0) (prog, [])
  let matchIdx := prog.length
  let prog := push prog (jmpImm BPF_JA R0 0 0)
  { prog
    mismatchJumpIndices := acc.mismatchJumpIndices ++ [altMismatches]
    boundJumpIndices
    matchJumpIndices := acc.matchJumpIndices ++ [matchIdx]
    alternativeStartIndices }

/-- The program of `compile_alternation` for alternatives that passed the gate. -/
def emitAlternation (alternatives : List (List UInt8)) : Prog :=
  let e := alternatives.foldl emitAlt {}
  let failIdx := e.prog.length
  let prog := push e.prog (alu64Imm BPF_MOV R0 0)
  let prog := push prog exit
  let successIdx := prog.length
  let prog := push prog (alu64Imm BPF_MOV R0 1)
  let prog := push prog exit
  let prog := e.mismatchJumpIndices.zipIdx.foldl (fun prog (altMismatches, altIdx) =>
    let nextAltIdx := (e.alternativeStartIndices[altIdx + 1]?).getD failIdx
    altMismatches.foldl (fun prog jumpIdx =>
      let expected := (prog.getD jumpIdx exit).imm
      patchImmJump prog jumpIdx nextAltIdx R7 expected BPF_JNE) prog) prog
  let prog := e.boundJumpIndices.zipIdx.foldl (fun prog (boundJumpIdx, altPosition) =>
    let nextAltIdx := (e.alternativeStartIndices[altPosition + 1]?).getD failIdx
    patchRegJump prog boundJumpIdx nextAltIdx R6 R3 BPF_JGT) prog
  e.matchJumpIndices.foldl (fun prog jumpIdx => patchMatchJump prog jumpIdx successIdx) prog

def compileAlternation (u : Usize) (alternatives : List (List UInt8)) :
    Outcome CompileError Prog :=
  if alternatives.isEmpty then
    .ok [alu64Imm BPF_MOV R0 0, exit]
  else if alternatives.any List.isEmpty then
    .ok [alu64Imm BPF_MOV R0 1, exit]
  else
    (compileWithLimit (estimateAlternationInstructions u alternatives)).andThen fun _ =>
      finish u (emitAlternation alternatives)

/-! ## Character classes -/

/-- Push the two comparisons of a range. Only the second is patched later: the
    first skips it to reach the next range. -/
def emitRange (acc : Prog × List Nat) (r : CharRange) : Prog × List Nat :=
  let (prog, matchJumps) := acc
  let prog := push prog (jmpImm BPF_JLT R7 (Int32.ofNat r.lo.toNat) 1)
  let prog := push prog (jmpImm BPF_JLE R7 (Int32.ofNat r.hi.toNat) 0)
  (prog, matchJumps ++ [prog.length - 1])

/-- The program of `compile_char_class` for ranges that passed the gates. -/
def emitCharClass (ranges : List CharRange) : Prog :=
  let (prog, matchJumps) := ranges.foldl emitRange ([], [])
  let prog := push prog (alu64Imm BPF_MOV R0 0)
  let prog := push prog exit
  let matchTarget := prog.length
  let prog := push prog (alu64Imm BPF_MOV R0 1)
  let prog := push prog exit
  matchJumps.foldl (fun prog idx =>
    prog.modify idx fun insn =>
      { insn with off := Int16.ofNat matchTarget - Int16.ofNat idx - 1 }) prog

def compileCharClass (u : Usize) (ranges : List CharRange) : Outcome CompileError Prog :=
  if ranges.isEmpty then
    invalidPattern "character class must have at least one range"
  else if ranges.any fun r => r.lo > r.hi then
    invalidPattern "character class range endpoints are reversed"
  else
    let estimated := u.wrap (4 + u.wrap (ranges.length * 2))
    (compileWithLimit estimated).andThen fun _ =>
      finish u (emitCharClass ranges)

/-- The text interface to `compile_char_class`. Empty text matches no byte. -/
def compileCharacterClass (u : Usize) (text : List UInt8) : Outcome CompileError Prog :=
  if text.isEmpty then
    .ok [alu64Imm BPF_MOV R0 0, exit]
  else
    (parseCharacterClass text).andThen fun ranges =>
      compileCharClass u (ranges.map PatternRange.toCharRange)

end Ebpfkit
