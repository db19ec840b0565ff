-- SUMMARY: A listing shows the decoded instructions, and the listing of a compiled program determines the program and its pattern.
import Ebpfkit.Assembler.Format
import Ebpfkit.Compiler.Registers

/-!
# Listings of compiled programs

A line of a listing consists of words between blanks, and its words are those of
the decoded instruction. Reading a listing back therefore gives the decoded
program. A compiled program is the encoding of its decoding: the fields that a
listing leaves out are zero in everything the emitters push.
-/

namespace Ebpfkit

open Bpf Fmt

/-! ## Words -/

def regWord (r : Reg) : List Char := 'r' :: Nat.toDigits 10 r

def srcWord : Src → List Char
  | .imm k => k.repr.toList
  | .reg r => regWord r

def sizeWord : Size → List Char
  | .byte => ['*', '(', 'u', '8']
  | .word => ['*', '(', 'u', '3', '2']

def condWord : Cond → List Char
  | .eq => ['=', '=']
  | .ne => ['!', '=']
  | .gt => ['>']
  | .lt => ['<']
  | .le => ['<', '=']

def gotoWord : List Char := ['g', 'o', 't', 'o']

/-- The words that an instruction of the fragment is shown as. A displacement
    counts from the jump itself. -/
def instrWords : Instr → List (List Char)
  | .ldx size dst src off =>
    [regWord dst, ['='], sizeWord size, ['*', ')', '('] ++ regWord src, ['+'], off.repr.toList ++ [')']]
  | .mov dst src => [regWord dst, ['='], srcWord src]
  | .add dst src => [regWord dst, ['+', '='], srcWord src]
  | .ja off => [gotoWord, (signed (off + 1)).toList]
  | .jcc cond dst src off =>
    [['i', 'f'], regWord dst, condWord cond, srcWord src, gotoWord, (signed (off + 1)).toList]
  | .exit => [['e', 'x', 'i', 't']]
  | .unknown => []

/-- An instruction of the fragment whose displacement can be shown. -/
def Listable (insn : BpfInsn) : Prop :=
  insn.decode ≠ .unknown ∧ (insn.showsJump → insn.off ≠ Int16.maxValue)

section Words

variable {build : Build} {insn : BpfInsn}

theorem toList_dstText : insn.dstText.toList = regWord insn.dstReg.toNat := by
  simp [BpfInsn.dstText, regWord]

theorem toList_srcText : insn.srcText.toList = regWord insn.srcReg.toNat := by
  simp [BpfInsn.srcText, regWord]

/-- The text of an instruction consists of the words of its decoding. -/
def ShowsWords (build : Build) (insn : BpfInsn) : Prop :=
  ∃ text, insn.display build = some text ∧
    text.toList = [' '].intercalate (instrWords insn.decode)

theorem ShowsWords.of (instr : Instr) {text : String} (hdecode : insn.decode = instr)
    (hdisplay : insn.display build = some text)
    (htext : text.toList = [' '].intercalate (instrWords instr)) : ShowsWords build insn :=
  ⟨text, hdisplay, hdecode ▸ htext⟩

theorem displayJump_eq (build : Build) (hoff : insn.off ≠ Int16.maxValue) (condition : String) :
    insn.displayJump build condition =
      some (condition ++ "goto " ++ signed (insn.off.toInt + 1)) := by
  obtain ⟨hadd, hsum⟩ := @BpfInsn.addI16_one_of_ne build insn.off hoff
  rw [BpfInsn.displayJump, hadd, Option.map_some, hsum]

/-- A jump shows the words of its decoding once its condition shows those in front. -/
theorem ShowsWords.jump (instr : Instr) {condition : String} (hoff : insn.off ≠ Int16.maxValue)
    (hdecode : insn.decode = instr)
    (hdisplay : insn.display build = insn.displayJump build condition)
    (htext : (condition ++ "goto " ++ signed (insn.off.toInt + 1)).toList =
      [' '].intercalate (instrWords instr)) : ShowsWords build insn :=
  .of instr hdecode (hdisplay.trans (displayJump_eq build hoff condition)) htext

/-- Every line of the fragment shows the words of the decoded instruction. -/
theorem Listable.showsWords (h : Listable insn) (build : Build) : ShowsWords build insn := by
  obtain ⟨hknown, hmax⟩ := h
  have hmem := code_mem_knownCodes hknown
  have hdst := @toList_dstText insn
  have hsrc := @toList_srcText insn
  have hoff : insn.offText.toList = insn.off.toInt.repr.toList := rfl
  have himm : insn.immText.toList = srcWord (.imm insn.imm.toInt) := rfl
  simp only [knownCodes, List.mem_cons, List.not_mem_nil, or_false] at hmem
  rcases hmem with h | h | h | h | h | h | h | h | h | h | h | h | h
  · exact .of .exit (by rw [BpfInsn.decode, h]; rfl) (by rw [BpfInsn.display, h]; rfl) rfl
  · refine .of (.ldx .byte insn.dstReg.toNat insn.srcReg.toNat insn.off.toInt) (by rw [BpfInsn.decode, h]; rfl)
      (by rw [BpfInsn.display, h]; rfl) ?_
    simp [instrWords, hdst, hsrc, hoff, sizeWord]
  · refine .of (.ldx .word insn.dstReg.toNat insn.srcReg.toNat insn.off.toInt) (by rw [BpfInsn.decode, h]; rfl)
      (by rw [BpfInsn.display, h]; rfl) ?_
    simp [instrWords, hdst, hsrc, hoff, sizeWord]
  · refine .of (.mov insn.dstReg.toNat (.imm insn.imm.toInt)) (by rw [BpfInsn.decode, h]; rfl)
      (by rw [BpfInsn.display, h]; rfl) ?_
    simp [instrWords, hdst, himm]
  · refine .of (.mov insn.dstReg.toNat (.reg insn.srcReg.toNat)) (by rw [BpfInsn.decode, h]; rfl)
      (by rw [BpfInsn.display, h]; rfl) ?_
    simp [instrWords, hdst, hsrc, srcWord]
  · refine .of (.add insn.dstReg.toNat (.imm insn.imm.toInt)) (by rw [BpfInsn.decode, h]; rfl)
      (by rw [BpfInsn.display, h]; rfl) ?_
    simp [instrWords, hdst, himm]
  · refine .of (.add insn.dstReg.toNat (.reg insn.srcReg.toNat)) (by rw [BpfInsn.decode, h]; rfl)
      (by rw [BpfInsn.display, h]; rfl) ?_
    simp [instrWords, hdst, hsrc, srcWord]
  · refine .jump (.ja insn.off.toInt) (hmax (by rw [BpfInsn.showsJump, h]; decide))
      (by rw [BpfInsn.decode, h]; rfl) (by rw [BpfInsn.display, h]; rfl) ?_
    simp [instrWords, gotoWord]
  · refine .jump (.jcc .eq insn.dstReg.toNat (.imm insn.imm.toInt) insn.off.toInt) (hmax (by rw [BpfInsn.showsJump, h]; decide))
      (by rw [BpfInsn.decode, h]; rfl) (by rw [BpfInsn.display, h]; rfl) ?_
    simp [instrWords, hdst, himm, condWord, gotoWord]
  · refine .jump (.jcc .ne insn.dstReg.toNat (.imm insn.imm.toInt) insn.off.toInt) (hmax (by rw [BpfInsn.showsJump, h]; decide))
      (by rw [BpfInsn.decode, h]; rfl) (by rw [BpfInsn.display, h]; rfl) ?_
    simp [instrWords, hdst, himm, condWord, gotoWord]
  · refine .jump (.jcc .gt insn.dstReg.toNat (.reg insn.srcReg.toNat) insn.off.toInt) (hmax (by rw [BpfInsn.showsJump, h]; decide))
      (by rw [BpfInsn.decode, h]; rfl) (by rw [BpfInsn.display, h]; rfl) ?_
    simp [instrWords, hdst, hsrc, srcWord, condWord, gotoWord]
  · refine .jump (.jcc .lt insn.dstReg.toNat (.imm insn.imm.toInt) insn.off.toInt) (hmax (by rw [BpfInsn.showsJump, h]; decide))
      (by rw [BpfInsn.decode, h]; rfl) (by rw [BpfInsn.display, h]; rfl) ?_
    simp [instrWords, hdst, himm, condWord, gotoWord]
  · refine .jump (.jcc .le insn.dstReg.toNat (.imm insn.imm.toInt) insn.off.toInt) (hmax (by rw [BpfInsn.showsJump, h]; decide))
      (by rw [BpfInsn.decode, h]; rfl) (by rw [BpfInsn.display, h]; rfl) ?_
    simp [instrWords, hdst, himm, condWord, gotoWord]

end Words

/-! ## Reading a line -/

theorem not_mem_regWord {c : Char} (h : NotNumeral c) (hr : c ≠ 'r') (r : Reg) : c ∉ regWord r := by
  simpa [regWord, hr] using not_mem_natRepr h r

theorem not_mem_srcWord {c : Char} (h : NotNumeral c) (hr : c ≠ 'r') (src : Src) : c ∉ srcWord src := by
  cases src with
  | imm k => exact not_mem_intRepr h k
  | reg r => exact not_mem_regWord h hr r

theorem blank_not_mem_condWord (cond : Cond) : ' ' ∉ condWord cond := by
  cases cond <;> decide

theorem blank_not_mem_sizeWord (size : Size) : ' ' ∉ sizeWord size := by
  cases size <;> decide

theorem blank_not_mem_instrWords (instr : Instr) : ∀ word ∈ instrWords instr, ' ' ∉ word := by
  have hreg : ∀ r, ' ' ∉ regWord r := not_mem_regWord (by decide) (by decide)
  have hsrc : ∀ src, ' ' ∉ srcWord src := not_mem_srcWord (by decide) (by decide)
  have hint : ∀ k : Int, ' ' ∉ k.repr.toList := not_mem_intRepr (by decide)
  have hsigned : ∀ k, ' ' ∉ (signed k).toList := not_mem_signed (by decide)
  cases instr with
  | ldx size dst src off => simp [instrWords, hreg, hint, blank_not_mem_sizeWord]
  | mov dst src => simp [instrWords, hreg, hsrc]
  | add dst src => simp [instrWords, hreg, hsrc]
  | ja off => simp [instrWords, gotoWord, hsigned]
  | jcc cond dst src off => simp [instrWords, gotoWord, hreg, hsrc, hsigned, blank_not_mem_condWord]
  | exit => simp [instrWords]
  | unknown => simp [instrWords]

theorem regWord_inj {r r' : Reg} : regWord r = regWord r' ↔ r = r' := by
  rw [regWord, regWord, List.cons_inj_right, ← Nat.toList_repr, ← Nat.toList_repr,
    toList_natRepr_inj]

/-- An immediate does not look like a register. -/
theorem srcWord_inj {src src' : Src} : srcWord src = srcWord src' ↔ src = src' := by
  have hdistinct : ∀ k r, srcWord (.imm k) ≠ srcWord (.reg r) := fun k r =>
    intRepr_ne_cons (by decide) k _
  cases src with
  | imm k =>
    cases src' with
    | imm k' => simp [srcWord, toList_intRepr_inj]
    | reg r' => simp [hdistinct]
  | reg r =>
    cases src' with
    | imm k' => simp [(hdistinct _ _).symm]
    | reg r' => simp [srcWord, regWord_inj]

theorem condWord_inj {cond cond' : Cond} : condWord cond = condWord cond' ↔ cond = cond' := by
  cases cond <;> cases cond' <;> decide

theorem sizeWord_inj {size size' : Size} : sizeWord size = sizeWord size' ↔ size = size' := by
  cases size <;> cases size' <;> decide

/-- An instruction is determined by its words. -/
theorem instrWords_inj {instr instr' : Instr} (h : instrWords instr = instrWords instr') :
    instr = instr' := by
  have hif : ∀ r, regWord r ≠ ['i', 'f'] := by simp [regWord]
  cases instr with
  | ldx size dst src off =>
    cases instr' <;> simp_all [instrWords, regWord_inj, sizeWord_inj, toList_intRepr_inj]
  | mov dst src => cases instr' <;> simp_all [instrWords, regWord_inj, srcWord_inj]
  | add dst src => cases instr' <;> simp_all [instrWords, regWord_inj, srcWord_inj]
  | ja off => cases instr' <;> simp_all [instrWords, toList_signed_inj]
  | jcc cond dst src off =>
    cases instr' <;> simp_all [instrWords, regWord_inj, srcWord_inj, condWord_inj, toList_signed_inj]
  | exit => cases instr' <;> simp_all [instrWords]
  | unknown => cases instr' <;> simp_all [instrWords]

theorem instrWords_ne_nil {instr : Instr} (h : instr ≠ .unknown) : instrWords instr ≠ [] := by
  cases instr with
  | unknown => exact absurd rfl h
  | _ => simp [instrWords]

/-- Instructions that are shown alike decode alike. -/
theorem decode_of_display {build : Build} {insn insn' : BpfInsn} (h : Listable insn)
    (h' : Listable insn') (heq : insn.display build = insn'.display build) :
    insn.decode = insn'.decode := by
  obtain ⟨text, hdisplay, htext⟩ := h.showsWords build
  obtain ⟨text', hdisplay', htext'⟩ := h'.showsWords build
  have hsame : text = text' := by
    rw [hdisplay, hdisplay'] at heq
    exact Option.some.inj heq
  rw [hsame, htext'] at htext
  refine instrWords_inj (intercalate_inj (instrWords_ne_nil h.1) (instrWords_ne_nil h'.1)
    (blank_not_mem_instrWords _) (blank_not_mem_instrWords _) htext.symm)

/-! ## Reading a listing -/

section Listing

variable {build : Build} {p q : Prog}

theorem decode_of_formatLines {index : Nat} {lines : List String} (hp : ∀ insn ∈ p, Listable insn)
    (hq : ∀ insn ∈ q, Listable insn) (hlines : formatLines build index p = some lines)
    (hlines' : formatLines build index q = some lines) : decodeProgram p = decodeProgram q := by
  induction p generalizing q index lines with
  | nil =>
    cases hlines
    have hlength := length_formatLines hlines'
    rw [List.length_eq_zero_iff.mp hlength.symm]
  | cons insn p ih =>
    obtain ⟨text, rest, htext, hrest, rfl⟩ := formatLines_cons hlines
    cases q with
    | nil => cases hlines'
    | cons insn' q =>
      obtain ⟨text', rest', htext', hrest', hcons⟩ := formatLines_cons hlines'
      obtain ⟨hline, rfl⟩ := List.cons.inj hcons
      -- The index is the same on both lines, so the texts are.
      have hsame : text = text' := by
        rw [← String.toList_inj] at hline ⊢
        simpa using hline
      obtain ⟨hinsn, hp⟩ := List.forall_mem_cons.mp hp
      obtain ⟨hinsn', hq⟩ := List.forall_mem_cons.mp hq
      have hdecode := decode_of_display hinsn hinsn' (htext.trans (hsame ▸ htext'.symm))
      have htail := ih hp hq hrest hrest'
      simp only [decodeProgram, List.map_cons] at htail ⊢
      rw [hdecode, htail]

/-- The listing of a program of the fragment determines the decoded program. -/
theorem decode_of_formatProgram (hp : ∀ insn ∈ p, Listable insn) (hq : ∀ insn ∈ q, Listable insn)
    (hpne : p ≠ []) (hqne : q ≠ []) (heq : formatProgram build p = formatProgram build q) :
    decodeProgram p = decodeProgram q := by
  obtain ⟨lines, hlines⟩ := formatLines_isSome 0 fun insn hmem =>
    BpfInsn.display_isSome build (hp insn hmem).2
  obtain ⟨lines', hlines'⟩ := formatLines_isSome 0 fun insn hmem =>
    BpfInsn.display_isSome build (hq insn hmem).2
  have hsame : lines = lines' := by
    rw [formatProgram_of_ne_nil hpne, formatProgram_of_ne_nil hqne, hlines, hlines',
      Option.map_some, Option.map_some] at heq
    have hsplit := congrArg (fun text : String => text.toList.splitOn '\n') (Option.some.inj heq)
    simp only [splitOn_listing hpne hlines, splitOn_listing hqne hlines'] at hsplit
    exact List.map_injective_iff.mpr (fun _ _ => String.toList_inj.mp) hsplit
  exact decode_of_formatLines hp hq hlines (hsame ▸ hlines')

end Listing

/-! ## Encoding -/

/-- The instruction as the macros of the assembler put it together. Fields that it
    does not use are zero. -/
def encode : Instr → BpfInsn
  | .ldx .byte dst src off => ldxMem BPF_B (.ofNat dst) (.ofNat src) (.ofInt off)
  | .ldx .word dst src off => ldxMem BPF_W (.ofNat dst) (.ofNat src) (.ofInt off)
  | .mov dst (.imm k) => alu64Imm BPF_MOV (.ofNat dst) (.ofInt k)
  | .mov dst (.reg src) => alu64Reg BPF_MOV (.ofNat dst) (.ofNat src)
  | .add dst (.imm k) => alu64Imm BPF_ADD (.ofNat dst) (.ofInt k)
  | .add dst (.reg src) => alu64Reg BPF_ADD (.ofNat dst) (.ofNat src)
  | .ja off => jmpImm BPF_JA R0 0 (.ofInt off)
  | .jcc .ne dst (.imm k) off => jmpImm BPF_JNE (.ofNat dst) (.ofInt k) (.ofInt off)
  | .jcc .lt dst (.imm k) off => jmpImm BPF_JLT (.ofNat dst) (.ofInt k) (.ofInt off)
  | .jcc .le dst (.imm k) off => jmpImm BPF_JLE (.ofNat dst) (.ofInt k) (.ofInt off)
  | .jcc .gt dst (.reg src) off => jmpReg BPF_JGT (.ofNat dst) (.ofNat src) (.ofInt off)
  | _ => exit

/-- The instructions that the emitters push. -/
inductive Emitted : BpfInsn → Prop where
  | exit : Emitted exit
  | loadData (off : Int16) : Emitted (ldxMem BPF_W R2 R1 off)
  | loadDataEnd (off : Int16) : Emitted (ldxMem BPF_W R3 R1 off)
  | loadByte (off : Int16) : Emitted (ldxMem BPF_B R7 R5 off)
  | setResult (value : Int32) : Emitted (alu64Imm BPF_MOV R0 value)
  | setIndex (value : Int32) : Emitted (alu64Imm BPF_MOV R4 value)
  | addIndex (value : Int32) : Emitted (alu64Imm BPF_ADD R4 value)
  | addLength (value : Int32) : Emitted (alu64Imm BPF_ADD R6 value)
  | copyData : Emitted (alu64Reg BPF_MOV R5 R2)
  | advance : Emitted (alu64Reg BPF_ADD R5 R4)
  | copyPointer : Emitted (alu64Reg BPF_MOV R6 R5)
  | boundsCheck (off : Int16) : Emitted (jmpReg BPF_JGT R6 R3 off)
  | jump (off : Int16) : Emitted (jmpImm BPF_JA R0 0 off)
  | jumpNe (k : Int32) (off : Int16) : Emitted (jmpImm BPF_JNE R7 k off)
  | jumpLt (k : Int32) (off : Int16) : Emitted (jmpImm BPF_JLT R7 k off)
  | jumpLe (k : Int32) (off : Int16) : Emitted (jmpImm BPF_JLE R7 k off)

/-- Nothing that the emitters push is lost by decoding it. -/
theorem Emitted.encode_decode {insn : BpfInsn} (h : Emitted insn) : encode insn.decode = insn := by
  cases h
  all_goals
    simp only [decode_exit, decode_loadData, decode_loadDataEnd, decode_loadByte, decode_setResult,
      decode_setIndex, decode_addIndex, decode_addLength, decode_copyData, decode_advance,
      decode_copyPointer, decode_boundsCheck, decode_jump, decode_jumpNe, decode_jumpLt,
      decode_jumpLe, encode, Int16.ofInt_toInt, Int32.ofInt_toInt]
    try rfl

section Emitted

theorem emitted_ret (value : Int32) : ∀ insn ∈ ret value, Emitted insn := by
  simp [ret, Emitted.setResult, Emitted.exit]

theorem emitted_byteChecks (next pc : Nat) (bytes : List (UInt8 × Nat)) :
    ∀ insn ∈ byteChecks (mismatchJump next) pc bytes, Emitted insn := by
  refine forall_mem_assemble ?_
  intro p item insn hmem
  rcases List.mem_pair.mp hmem with rfl | rfl
  · exact .loadByte _
  · exact .jumpNe _ _

theorem emitted_literalProgram (pattern : List UInt8) :
    ∀ insn ∈ literalProgram pattern, Emitted insn := by
  have hagain : ∀ insn ∈ [alu64Imm BPF_ADD R4 1,
      jmpImm BPF_JA R0 0 (jumpOffset (11 + 2 * pattern.length) 3)], Emitted insn := by
    simp [Emitted.addIndex, Emitted.jump]
  have htail : ∀ insn ∈ literalTail pattern, Emitted insn :=
    List.forall_mem_append.mpr
      ⟨List.forall_mem_append.mpr ⟨emitted_ret 1, hagain⟩, emitted_ret 0⟩
  refine List.forall_mem_append.mpr
    ⟨?_, List.forall_mem_append.mpr ⟨emitted_byteChecks _ _ _, htail⟩⟩
  simp [literalHead, Emitted.loadData, Emitted.loadDataEnd, Emitted.setIndex, Emitted.copyData,
    Emitted.advance, Emitted.copyPointer, Emitted.addLength, Emitted.boundsCheck]

theorem emitted_emptyLiteralProgram : ∀ insn ∈ emptyLiteralProgram, Emitted insn := by
  refine List.forall_mem_append.mpr ⟨?_, emitted_ret 1⟩
  simp [Emitted.loadData, Emitted.loadDataEnd]

theorem emitted_alternatives (success pc : Nat) (alternatives : List (List UInt8)) :
    ∀ insn ∈ assemble altSize (altBlock success) pc alternatives, Emitted insn := by
  refine forall_mem_assemble ?_
  intro start alt
  refine List.forall_mem_append.mpr
    ⟨?_, List.forall_mem_append.mpr ⟨emitted_byteChecks _ _ _, ?_⟩⟩
  · simp [Emitted.copyPointer, Emitted.addLength, Emitted.boundsCheck]
  · simp [Emitted.jump]

theorem emitted_rangeChecks (success pc : Nat) (ranges : List CharRange) :
    ∀ insn ∈ assemble (fun _ => 2) (rangeCheck success) pc ranges, Emitted insn := by
  refine forall_mem_assemble ?_
  intro start r
  simp [rangeCheck, Emitted.jumpLt, Emitted.jumpLe]

theorem emitted_results {body : Prog} (hbody : ∀ insn ∈ body, Emitted insn) :
    ∀ insn ∈ body ++ (ret 0 ++ ret 1), Emitted insn :=
  List.forall_mem_append.mpr
    ⟨hbody, List.forall_mem_append.mpr ⟨emitted_ret 0, emitted_ret 1⟩⟩

theorem Shape.emitted {req : Request} {prog : Prog} (h : Shape req prog) :
    ∀ insn ∈ prog, Emitted insn := by
  cases h with
  | emptyLiteral => exact emitted_emptyLiteralProgram
  | literal hne hlen => exact emitted_literalProgram _
  | constant value => exact emitted_ret value
  | alternation hne hlimit => exact emitted_results (emitted_alternatives _ _ _)
  | charClass hne hlimit => exact emitted_results (emitted_rangeChecks _ _ _)
  | emptyText => exact emitted_ret 0
  | text hne hlimit => exact emitted_results (emitted_rangeChecks _ _ _)

end Emitted

/-- A program of emitted instructions is determined by its decoding. -/
theorem eq_of_decodeProgram {p q : Prog} (hp : ∀ insn ∈ p, Emitted insn)
    (hq : ∀ insn ∈ q, Emitted insn) (h : decodeProgram p = decodeProgram q) : p = q := by
  have hrestore : ∀ r : Prog, (∀ insn ∈ r, Emitted insn) → (decodeProgram r).map encode = r := by
    intro r hr
    rw [decodeProgram, List.map_map]
    exact (List.map_congr_left fun insn hmem => (hr insn hmem).encode_decode).trans (List.map_id r)
  rw [← hrestore p hp, ← hrestore q hq, h]

/-! ## Compiled programs -/

theorem isJump_of_showsJump {insn : BpfInsn} (h : insn.showsJump) : insn.isJump = true := by
  simp only [BpfInsn.showsJump, List.mem_cons, List.not_mem_nil, or_false] at h
  rw [BpfInsn.isJump]
  rcases h with h | h | h | h | h | h
  all_goals
    rw [h]
    decide

theorem Shape.length_le {req : Request} {prog : Prog} (h : Shape req prog) :
    prog.length ≤ MAX_BPF_INSTRUCTION_LEN := by
  cases h with
  | emptyLiteral => decide
  | @literal pattern hne hlen =>
    rw [length_literalProgram]
    unfold MAX_BPF_PATTERN_LEN at hlen
    unfold MAX_BPF_INSTRUCTION_LEN
    omega
  | constant value => exact show 2 ≤ 4096 by decide
  | alternation hne hlimit => rwa [length_altProgram]
  | charClass hne hlimit => rwa [length_classProgram]
  | emptyText => decide
  | text hne hlimit => rwa [length_classProgram]

/-- No jump of a compiled program is long enough for its displacement to overflow. -/
theorem Shape.listable {req : Request} {prog : Prog} (h : Shape req prog) :
    ∀ insn ∈ prog, Listable insn := by
  intro insn hmem
  refine ⟨(h.within insn.decode (List.mem_map_of_mem hmem)).1, ?_⟩
  intro hjump hmax
  obtain ⟨i, hget⟩ := List.mem_iff_getElem?.mp hmem
  have htarget := (h.controlFlow.1.jumps i insn hget (isJump_of_showsJump hjump)).2
  have hlen := h.length_le
  unfold MAX_BPF_INSTRUCTION_LEN at hlen
  rw [hmax, show Int16.maxValue.toInt = 32767 from rfl] at htarget
  omega

theorem Shape.ne_nil {req : Request} {prog : Prog} (h : Shape req prog) : prog ≠ [] := by
  intro hnil
  have hlast := h.controlFlow.1.last
  rw [hnil] at hlast
  cases hlast

/-- The listing of a compiled program determines it. -/
theorem Shape.eq_of_formatProgram {build : Build} {req req' : Request} {p q : Prog}
    (hp : Shape req p) (hq : Shape req' q)
    (heq : formatProgram build p = formatProgram build q) : p = q :=
  eq_of_decodeProgram hp.emitted hq.emitted
    (decode_of_formatProgram hp.listable hq.listable hp.ne_nil hq.ne_nil heq)

/-! ## Patterns -/

theorem imm_byte_inj {b b' : UInt8} (h : Int32.ofNat b.toNat = Int32.ofNat b'.toNat) : b = b' := by
  have hvalue := congrArg Int32.toInt h
  have hb := b.toNat_lt
  have hb' := b'.toNat_lt
  rw [toInt_ofNat32 (by omega), toInt_ofNat32 (by omega)] at hvalue
  exact UInt8.toNat_inj.mp (Int.ofNat_inj.mp hvalue)

/-- The unrolled comparisons show the bytes that they compare with. -/
theorem byteChecks_inj {next pc k : Nat} {a b : List UInt8}
    (h : byteChecks (mismatchJump next) pc (a.zipIdx k) =
      byteChecks (mismatchJump next) pc (b.zipIdx k)) : a = b := by
  induction a generalizing pc k b with
  | nil =>
    have hlen := congrArg List.length h
    simp only [length_byteChecks, List.length_zipIdx, List.length_nil] at hlen
    exact (List.length_eq_zero_iff.mp (by omega)).symm
  | cons byte a ih =>
    cases b with
    | nil => cases h
    | cons byte' b =>
      simp only [byteChecks, List.zipIdx_cons, assemble, byteCheck, List.cons_append,
        List.nil_append] at h
      obtain ⟨-, hrest⟩ := List.cons.inj h
      obtain ⟨hjump, hrest⟩ := List.cons.inj hrest
      rw [imm_byte_inj (congrArg BpfInsn.imm hjump), ih hrest]

theorem literalProgram_inj {a b : List UInt8} (h : literalProgram a = literalProgram b) : a = b := by
  have hlen : a.length = b.length := by
    have hsize := congrArg List.length h
    rw [length_literalProgram, length_literalProgram] at hsize
    omega
  unfold literalProgram at h
  obtain ⟨-, hbody⟩ := List.append_inj h rfl
  obtain ⟨hchecks, -⟩ := List.append_inj hbody (by simp [hlen])
  rw [hlen] at hchecks
  exact byteChecks_inj hchecks

/-- A search program is compiled from a single pattern. -/
theorem literalOf_inj {a b : List UInt8} (h : literalOf a = literalOf b) : a = b := by
  have hdistinct : ∀ pattern, literalProgram pattern ≠ emptyLiteralProgram := by
    intro pattern heq
    have hsize := congrArg List.length heq
    rw [length_literalProgram, show emptyLiteralProgram.length = 4 from rfl] at hsize
    omega
  cases a with
  | nil =>
    cases b with
    | nil => rfl
    | cons byte b => exact absurd h.symm (hdistinct (byte :: b))
  | cons byte a =>
    cases b with
    | nil => exact absurd h (hdistinct (byte :: a))
    | cons byte' b => exact literalProgram_inj h

/-! ## Listings -/

/-- Compiled programs with the same listing are the same, whatever they were
    compiled from, and two patterns whose searches have the same listing are the
    same pattern. -/
theorem formatProgram_identifies (build : Build) :
    (∀ (u v : Usize) (req req' : Request) (p q : Prog), req.compile u = .ok p →
      req'.compile v = .ok q →
      (∃ text, formatProgram build p = some text) ∧
        (formatProgram build p = formatProgram build q → p = q)) ∧
    ∀ (u v : Usize) (a b : List UInt8), a.length ≤ 1024 → b.length ≤ 1024 →
      ∃ p q, compileLiteralSearch u a = .ok p ∧ compileLiteralSearch v b = .ok q ∧
        (formatProgram build p = formatProgram build q → a = b) := by
  refine ⟨?_, ?_⟩
  · intro u v req req' p q hp hq
    have hshape := Request.shape hp
    refine ⟨formatProgram_isSome build fun insn hmem => (hshape.listable insn hmem).2, ?_⟩
    exact hshape.eq_of_formatProgram (Request.shape hq)
  · intro u v a b ha hb
    have hp : (Request.literalSearch a).compile u = .ok (literalOf a) := compileLiteralSearch_of_le ha
    have hq : (Request.literalSearch b).compile v = .ok (literalOf b) := compileLiteralSearch_of_le hb
    refine ⟨_, _, hp, hq, ?_⟩
    intro heq
    exact literalOf_inj ((Request.shape hp).eq_of_formatProgram (Request.shape hq) heq)

/-- A search and an alternation with the same pattern, and the searches of two
    patterns. -/
theorem formatProgram_identifies_a :
    (∃ p q, (Request.literalSearch [0x61]).compile .exact = .ok p ∧
      (Request.alternation [[0x61]]).compile .exact = .ok q ∧
      formatProgram ⟨.bits64, true⟩ p ≠ formatProgram ⟨.bits64, true⟩ q) ∧
    ∃ p q, compileLiteralSearch .exact [0x61] = .ok p ∧ compileLiteralSearch .exact [0x62] = .ok q ∧
      formatProgram ⟨.bits64, true⟩ p ≠ formatProgram ⟨.bits64, true⟩ q := by
  obtain ⟨hprograms, hpatterns⟩ := formatProgram_identifies ⟨.bits64, true⟩
  refine ⟨⟨emitLiteralSearch [0x61], emitAlternation [[0x61]], by decide, by decide, ?_⟩, ?_⟩
  · intro heq
    have hsame := (hprograms .exact .exact (.literalSearch [0x61]) (.alternation [[0x61]]) _ _
      (by decide) (by decide)).2 heq
    exact absurd hsame (by decide)
  · obtain ⟨p, q, hp, hq, hlisting⟩ := hpatterns .exact .exact [0x61] [0x62] (by decide) (by decide)
    refine ⟨p, q, hp, hq, ?_⟩
    intro heq
    exact absurd (hlisting heq) (by decide)

end Ebpfkit
