-- SUMMARY: The listing of a program, when rendering it overflows, and the jump displacements it shows.
import Ebpfkit.Assembler
import Ebpfkit.Fmt
import Ebpfkit.Rust

/-!
# Program listings

`Display` for `BpfInsn` and `format_program` of `src/assembler.rs`. A jump is
shown relative to itself, one more than the offset in the instruction, and that
addition is done in the 16 bits of the offset.
-/

namespace Ebpfkit

open Fmt

/-- An unmarked addition in `i16`. A build with overflow checks panics where the
    others wrap. -/
def Build.addI16 (build : Build) (a b : Int16) : Option Int16 :=
  if -2 ^ 15 ≤ a.toInt + b.toInt ∧ a.toInt + b.toInt < 2 ^ 15 then some (a + b)
  else if build.overflowChecks then none
  else some (a + b)

namespace BpfInsn

section Display

variable (build : Build) (insn : BpfInsn)

def dstText : String := "r" ++ insn.dstReg.toNat.repr
def srcText : String := "r" ++ insn.srcReg.toNat.repr
def offText : String := insn.off.toInt.repr
def immText : String := insn.imm.toInt.repr

/-- The text of a jump, up to its displacement. -/
def displayJump (condition : String) : Option String :=
  (build.addI16 insn.off 1).map fun displacement =>
    condition ++ "goto " ++ signed displacement.toInt

/-- `Display` for `BpfInsn`; nothing if the build panics. -/
def display : Option String :=
  if insn.code = BPF_JMP ||| BPF_EXIT then
    some "exit"
  else if insn.code = BPF_LDX ||| BPF_MEM ||| BPF_B then
    some (insn.dstText ++ " = *(u8 *)(" ++ insn.srcText ++ " + " ++ insn.offText ++ ")")
  else if insn.code = BPF_LDX ||| BPF_MEM ||| BPF_W then
    some (insn.dstText ++ " = *(u32 *)(" ++ insn.srcText ++ " + " ++ insn.offText ++ ")")
  else if insn.code = BPF_ALU64 ||| BPF_MOV ||| BPF_K then
    some (insn.dstText ++ " = " ++ insn.immText)
  else if insn.code = BPF_ALU64 ||| BPF_MOV ||| BPF_X then
    some (insn.dstText ++ " = " ++ insn.srcText)
  else if insn.code = BPF_ALU64 ||| BPF_ADD ||| BPF_K then
    some (insn.dstText ++ " += " ++ insn.immText)
  else if insn.code = BPF_ALU64 ||| BPF_ADD ||| BPF_X then
    some (insn.dstText ++ " += " ++ insn.srcText)
  else if insn.code = BPF_JMP ||| BPF_JA then
    insn.displayJump build ""
  else if insn.code = BPF_JMP ||| BPF_JEQ ||| BPF_K then
    insn.displayJump build ("if " ++ insn.dstText ++ " == " ++ insn.immText ++ " ")
  else if insn.code = BPF_JMP ||| BPF_JNE ||| BPF_K then
    insn.displayJump build ("if " ++ insn.dstText ++ " != " ++ insn.immText ++ " ")
  else if insn.code = BPF_JMP ||| BPF_JGT ||| BPF_X then
    insn.displayJump build ("if " ++ insn.dstText ++ " > " ++ insn.srcText ++ " ")
  else if insn.code = BPF_JMP ||| BPF_JLT ||| BPF_K then
    insn.displayJump build ("if " ++ insn.dstText ++ " < " ++ insn.immText ++ " ")
  else if insn.code = BPF_JMP ||| BPF_JLE ||| BPF_K then
    insn.displayJump build ("if " ++ insn.dstText ++ " <= " ++ insn.immText ++ " ")
  else
    some ("code=0x" ++ hex insn.code.toNat ++ " dst=" ++ insn.dstText ++ " src=" ++ insn.srcText ++
      " off=" ++ insn.offText ++ " imm=" ++ insn.immText)

end Display

/-- The six opcodes that are shown as a jump. -/
def showsJump (insn : BpfInsn) : Prop :=
  insn.code ∈ [BPF_JMP ||| BPF_JA, BPF_JMP ||| BPF_JEQ ||| BPF_K, BPF_JMP ||| BPF_JNE ||| BPF_K,
    BPF_JMP ||| BPF_JGT ||| BPF_X, BPF_JMP ||| BPF_JLT ||| BPF_K, BPF_JMP ||| BPF_JLE ||| BPF_K]

instance (insn : BpfInsn) : Decidable insn.showsJump := inferInstanceAs (Decidable (_ ∈ _))

end BpfInsn

/-- The lines of a listing whose first instruction has the given index. -/
def formatLines (build : Build) : Nat → List BpfInsn → Option (List String)
  | _, [] => some []
  | index, insn :: program =>
    (insn.display build).bind fun text =>
      (formatLines build (index + 1) program).map fun lines =>
        (padded 4 index ++ ": " ++ text) :: lines

def formatProgram (build : Build) (program : List BpfInsn) : Option String :=
  if program.isEmpty then some "# empty program"
  else (formatLines build 0 program).map fun lines => "\n".intercalate lines

/-! ## One instruction -/

namespace BpfInsn

variable {build : Build} {insn : BpfInsn}

/-- The sum fits unless the offset is the largest one. -/
theorem addI16_one_of_ne {off : Int16} (h : off ≠ Int16.maxValue) :
    build.addI16 off 1 = some (off + 1) ∧ (off + 1).toInt = off.toInt + 1 := by
  have hone : (1 : Int16).toInt = 1 := rfl
  have hlt : off.toInt ≠ 2 ^ 15 - 1 := by
    intro heq
    exact h (Int16.toInt_inj.mp heq)
  have hle := off.toInt_lt
  have hge := off.le_toInt
  refine ⟨if_pos ?_, ?_⟩
  · rw [hone]
    omega
  · rw [Int16.toInt_add, hone]
    exact Int.bmod_eq_of_le (by omega) (by omega)

theorem addI16_checked_max : Build.addI16 build.checked Int16.maxValue 1 = none := rfl

/-! ## Characters -/

section Separators

variable {c : Char}

theorem not_mem_dstText (h : NotNumeral c) (hr : c ≠ 'r') : c ∉ insn.dstText.toList := by
  simpa [dstText, hr] using not_mem_natRepr h insn.dstReg.toNat

theorem not_mem_srcText (h : NotNumeral c) (hr : c ≠ 'r') : c ∉ insn.srcText.toList := by
  simpa [srcText, hr] using not_mem_natRepr h insn.srcReg.toNat

theorem not_mem_offText (h : NotNumeral c) : c ∉ insn.offText.toList := not_mem_intRepr h _

theorem not_mem_immText (h : NotNumeral c) : c ∉ insn.immText.toList := not_mem_intRepr h _

end Separators

theorem newline_not_mem_hex (b : UInt8) : '\n' ∉ (hex b.toNat).toList := by
  have hdigit : ∀ d < 16, '\n' ≠ d.digitChar := by decide
  have hhigh : b.toNat / 16 < 16 := Nat.div_lt_of_lt_mul b.toNat_lt
  have hlow : b.toNat % 16 < 16 := Nat.mod_lt _ (by decide)
  simp [hex, hdigit _ hhigh, hdigit _ hlow]

/-- A jump is shown as a condition, if any, and its displacement. -/
theorem display_jump (h : insn.showsJump) : ∃ condition, '\n' ∉ condition.toList ∧
    ∀ build, insn.display build = insn.displayJump build condition := by
  have hdst : '\n' ∉ insn.dstText.toList := not_mem_dstText (by decide) (by decide)
  have hsrc : '\n' ∉ insn.srcText.toList := not_mem_srcText (by decide) (by decide)
  have himm : '\n' ∉ insn.immText.toList := not_mem_immText (by decide)
  simp only [showsJump, List.mem_cons, List.not_mem_nil, or_false] at h
  rcases h with h | h | h | h | h | h
  all_goals
    refine ⟨_, ?_, fun build => by rw [display, h]; rfl⟩
    simp [hdst, hsrc, himm]

/-- Anything else is shown in the same way in every build. -/
theorem display_not_jump (h : ¬ insn.showsJump) :
    ∃ text, '\n' ∉ text.toList ∧ ∀ build, insn.display build = some text := by
  have hdst : '\n' ∉ insn.dstText.toList := not_mem_dstText (by decide) (by decide)
  have hsrc : '\n' ∉ insn.srcText.toList := not_mem_srcText (by decide) (by decide)
  have hoff : '\n' ∉ insn.offText.toList := not_mem_offText (by decide)
  have himm : '\n' ∉ insn.immText.toList := not_mem_immText (by decide)
  have hhex := newline_not_mem_hex insn.code
  simp only [showsJump, List.mem_cons, List.not_mem_nil, or_false, not_or] at h
  obtain ⟨hja, hjeq, hjne, hjgt, hjlt, hjle⟩ := h
  unfold display
  simp only [hja, hjeq, hjne, hjgt, hjlt, hjle, if_false]
  repeat' split
  all_goals
    refine ⟨_, ?_, fun _ => rfl⟩
    simp [hdst, hsrc, hoff, himm, hhex]

/-- An instruction is shown unless it is a jump with the largest offset. -/
theorem display_isSome (build : Build) (h : insn.showsJump → insn.off ≠ Int16.maxValue) :
    ∃ text, insn.display build = some text := by
  by_cases hjump : insn.showsJump
  · obtain ⟨condition, -, hdisplay⟩ := display_jump hjump
    rw [hdisplay, displayJump, (addI16_one_of_ne (h hjump)).1]
    exact ⟨_, rfl⟩
  · obtain ⟨text, -, hdisplay⟩ := display_not_jump hjump
    exact ⟨text, hdisplay build⟩

/-- A build with overflow checks shows no other. -/
theorem off_ne_maxValue {text : String} (hdisplay : insn.display build.checked = some text)
    (hjump : insn.showsJump) : insn.off ≠ Int16.maxValue := by
  intro hoff
  obtain ⟨condition, -, hcondition⟩ := display_jump hjump
  rw [hcondition, displayJump, hoff, addI16_checked_max] at hdisplay
  cases hdisplay

/-- The text of an instruction is one line. -/
theorem newline_not_mem_display {text : String} (h : insn.display build = some text) :
    '\n' ∉ text.toList := by
  by_cases hjump : insn.showsJump
  · obtain ⟨condition, hcondition, hdisplay⟩ := display_jump hjump
    rw [hdisplay] at h
    obtain ⟨displacement, -, rfl⟩ := Option.map_eq_some_iff.mp h
    have hsigned := not_mem_signed (c := '\n') (by decide) displacement.toInt
    simp [hcondition, hsigned]
  · obtain ⟨text', htext', hdisplay⟩ := display_not_jump hjump
    rw [hdisplay] at h
    cases h
    exact htext'

end BpfInsn

/-! ## The listing -/

section Listing

variable {build : Build} {program : List BpfInsn}

theorem formatLines_isSome (index : Nat)
    (h : ∀ insn ∈ program, ∃ text, insn.display build = some text) :
    ∃ lines, formatLines build index program = some lines := by
  induction program generalizing index with
  | nil => exact ⟨[], rfl⟩
  | cons insn program ih =>
    obtain ⟨hinsn, hprogram⟩ := List.forall_mem_cons.mp h
    obtain ⟨text, htext⟩ := hinsn
    obtain ⟨lines, hlines⟩ := ih (index + 1) hprogram
    exact ⟨_, by rw [formatLines, htext, hlines]; rfl⟩

/-- The first line is that of the first instruction, the others are those of the rest. -/
theorem formatLines_cons {index : Nat} {insn : BpfInsn} {lines : List String}
    (h : formatLines build index (insn :: program) = some lines) :
    ∃ text rest, insn.display build = some text ∧
      formatLines build (index + 1) program = some rest ∧
      lines = (padded 4 index ++ ": " ++ text) :: rest := by
  obtain ⟨text, htext, hmap⟩ := Option.bind_eq_some_iff.mp h
  obtain ⟨rest, hrest, hlines⟩ := Option.map_eq_some_iff.mp hmap
  exact ⟨text, rest, htext, hrest, hlines.symm⟩

/-- A line for every instruction, with its index and its text. -/
theorem getElem?_formatLines {index : Nat} {lines : List String}
    (h : formatLines build index program = some lines) {i : Nat} {insn : BpfInsn}
    (hinsn : program[i]? = some insn) :
    ∃ text, insn.display build = some text ∧
      lines[i]? = some (padded 4 (index + i) ++ ": " ++ text) := by
  induction program generalizing index lines i with
  | nil => cases hinsn
  | cons first program ih =>
    obtain ⟨text, rest, htext, hrest, rfl⟩ := formatLines_cons h
    cases i with
    | zero =>
      cases hinsn
      exact ⟨text, htext, rfl⟩
    | succ i =>
      obtain ⟨text', htext', hline⟩ := ih hrest hinsn
      refine ⟨text', htext', ?_⟩
      rw [List.getElem?_cons_succ, hline, Nat.add_right_comm]
      rfl

theorem length_formatLines {index : Nat} {lines : List String}
    (h : formatLines build index program = some lines) : lines.length = program.length := by
  induction program generalizing index lines with
  | nil =>
    cases h
    rfl
  | cons insn program ih =>
    obtain ⟨text, rest, -, hrest, rfl⟩ := formatLines_cons h
    rw [List.length_cons, List.length_cons, ih hrest]

theorem newline_not_mem_formatLines {index : Nat} {lines : List String}
    (h : formatLines build index program = some lines) :
    ∀ line ∈ lines, '\n' ∉ line.toList := by
  induction program generalizing index lines with
  | nil =>
    cases h
    simp
  | cons insn program ih =>
    obtain ⟨text, rest, htext, hrest, rfl⟩ := formatLines_cons h
    refine List.forall_mem_cons.mpr ⟨?_, ih hrest⟩
    have hpadded := not_mem_padded (c := '\n') (by decide) 4 index
    simp [hpadded, BpfInsn.newline_not_mem_display htext]

/-- The lines of a listing can be read off its text. -/
theorem splitOn_listing {lines : List String} (hne : program ≠ [])
    (h : formatLines build 0 program = some lines) :
    ("\n".intercalate lines).toList.splitOn '\n' = lines.map String.toList := by
  rw [String.toList_intercalate]
  refine List.splitOn_intercalate '\n' ?_ ?_
  · intro line hmem
    obtain ⟨text, htext, rfl⟩ := List.mem_map.mp hmem
    exact newline_not_mem_formatLines h text htext
  · intro hnil
    have hlength := length_formatLines h
    rw [List.map_eq_nil_iff.mp hnil] at hlength
    exact hne (List.length_eq_zero_iff.mp hlength.symm)

theorem formatProgram_of_ne_nil (hne : program ≠ []) :
    formatProgram build program =
      (formatLines build 0 program).map fun lines => "\n".intercalate lines :=
  if_neg (by simpa using hne)

theorem formatProgram_isSome (build : Build)
    (h : ∀ insn ∈ program, insn.showsJump → insn.off ≠ Int16.maxValue) :
    ∃ text, formatProgram build program = some text := by
  unfold formatProgram
  split
  · exact ⟨_, rfl⟩
  · obtain ⟨lines, hlines⟩ := formatLines_isSome 0 fun insn hmem =>
      BpfInsn.display_isSome build (h insn hmem)
    rw [hlines]
    exact ⟨_, rfl⟩

/-- What a build with overflow checks renders holds no jump that overflows. -/
theorem off_ne_of_formatProgram {text : String}
    (h : formatProgram build.checked program = some text) :
    ∀ insn ∈ program, insn.showsJump → insn.off ≠ Int16.maxValue := by
  intro insn hmem
  rw [formatProgram_of_ne_nil (List.ne_nil_of_mem hmem)] at h
  obtain ⟨lines, hlines, -⟩ := Option.map_eq_some_iff.mp h
  obtain ⟨i, hi⟩ := List.getElem?_of_mem hmem
  obtain ⟨text', hdisplay, -⟩ := getElem?_formatLines hlines hi
  exact BpfInsn.off_ne_maxValue hdisplay

/-! ## Jump targets -/

/-- The line at an index ends in a signed displacement from that index to where
    the jump with the given offset goes. -/
def ShowsTarget (text : String) (i : Nat) (off : Int16) : Prop :=
  ∃ line displacement, (text.toList.splitOn '\n')[i]? = some line ∧
    lastPart ' ' line = some (signed displacement).toList ∧
    (i : Int) + displacement = i + 1 + off.toInt

/-- Rendering does not overflow, which a build with overflow checks would notice,
    and shows where the jumps go. -/
def ShowsTargets (build : Build) (program : List BpfInsn) : Prop :=
  (∃ text, formatProgram build.checked program = some text) ∧
  ∃ text, formatProgram build program = some text ∧
    ∀ i insn, program[i]? = some insn → insn.showsJump → ShowsTarget text i insn.off

theorem showsTarget_of_formatProgram {text : String}
    (h : formatProgram build program = some text) {i : Nat} {insn : BpfInsn}
    (hinsn : program[i]? = some insn) (hjump : insn.showsJump) (hoff : insn.off ≠ Int16.maxValue) :
    ShowsTarget text i insn.off := by
  have hne : program ≠ [] := by
    rintro rfl
    cases hinsn
  rw [formatProgram_of_ne_nil hne] at h
  obtain ⟨lines, hlines, rfl⟩ := Option.map_eq_some_iff.mp h
  obtain ⟨text, hdisplay, hline⟩ := getElem?_formatLines hlines hinsn
  obtain ⟨condition, -, hcondition⟩ := BpfInsn.display_jump hjump
  obtain ⟨hadd, hsum⟩ := @BpfInsn.addI16_one_of_ne build insn.off hoff
  rw [hcondition, BpfInsn.displayJump, hadd] at hdisplay
  cases hdisplay
  have hread : (("\n".intercalate lines).toList.splitOn '\n')[i]? =
      some ((padded 4 (0 + i) ++ ": " ++ (condition ++ "goto")).toList ++
        ' ' :: (signed (insn.off + 1).toInt).toList) := by
    rw [splitOn_listing hne hlines, List.getElem?_map, hline]
    simp
  have hsigned : ' ' ∉ (signed (insn.off + 1).toInt).toList := not_mem_signed (by decide) _
  exact ⟨_, (insn.off + 1).toInt, hread, lastPart_append hsigned, by omega⟩

/-- A listing is rendered without overflow and shows where the jumps go exactly if
    no jump has the largest offset. -/
theorem formatProgram_showsTargets (build : Build) (program : List BpfInsn) :
    ShowsTargets build program ↔
      ∀ insn ∈ program, insn.showsJump → insn.off ≠ Int16.maxValue := by
  refine ⟨?_, ?_⟩
  · rintro ⟨⟨text, htext⟩, -⟩
    exact off_ne_of_formatProgram htext
  · intro hoff
    obtain ⟨text, htext⟩ := formatProgram_isSome build hoff
    refine ⟨formatProgram_isSome build.checked hoff, text, htext, ?_⟩
    intro i insn hinsn hjump
    exact showsTarget_of_formatProgram htext hinsn hjump (hoff insn (List.mem_of_getElem? hinsn) hjump)

/-- The jump with the largest offset: a checked build panics on it, and any other
    shows it going backwards. -/
theorem formatProgram_misses_target :
    formatProgram ⟨.bits64, true⟩ [.new (BPF_JMP ||| BPF_JA) R0 0 32767 0] = none ∧
    formatProgram ⟨.bits64, false⟩ [.new (BPF_JMP ||| BPF_JA) R0 0 32767 0] =
      some "0000: goto -32768" ∧
    ¬ ShowsTargets ⟨.bits64, false⟩ [.new (BPF_JMP ||| BPF_JA) R0 0 32767 0] := by
  have hnone : formatProgram ⟨.bits64, true⟩ [.new (BPF_JMP ||| BPF_JA) R0 0 32767 0] = none := rfl
  refine ⟨hnone, rfl, ?_⟩
  rintro ⟨⟨text, htext⟩, -⟩
  rw [hnone] at htext
  cases htext

end Listing

end Ebpfkit
