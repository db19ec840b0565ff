-- SUMMARY: The size estimates against the compiled programs, the gates they feed, and what wrapping does to them.
import Ebpfkit.Compiler.CharClass
import Ebpfkit.Fmt
import Ebpfkit.Loader.Prog

/-!
# Size limits

A compile function estimates the size of its program and refuses the input if
that exceeds the limit; `load_filter` checks the size of the program it gets.
The estimates are exact as integers. As `usize` they may wrap, which matters for
alternations, whose slices may alias one another.
-/

namespace Ebpfkit

open Bpf

/-- The instructions of an alternation, counted in exact arithmetic. Without
    alternatives, or with an empty one, the program is a constant. -/
def alternationInstructionCount (alternatives : List (List UInt8)) : Nat :=
  if alternatives.isEmpty || alternatives.any List.isEmpty then 2
  else 4 + (alternatives.map fun alt => 4 + 2 * alt.length).sum

/-! ## Estimates -/

section Estimates

variable {u : Usize} {alternatives : List (List UInt8)}

/-- Alternatives that do not make the program a constant. -/
theorem not_constant_iff :
    (alternatives.isEmpty || alternatives.any List.isEmpty) = false ↔
      alternatives ≠ [] ∧ [] ∉ alternatives := by
  rw [Bool.or_eq_false_iff, List.any_eq_false]
  refine and_congr (by simp) ⟨?_, ?_⟩
  · intro hall hmem
    exact hall [] hmem rfl
  · intro hnot alt hmem hempty
    rw [List.isEmpty_iff.mp hempty] at hmem
    exact hnot hmem

theorem alternationInstructionCount_eq (hne : alternatives ≠ []) (hsome : [] ∉ alternatives) :
    alternationInstructionCount alternatives = extent altSize alternatives + 4 := by
  rw [alternationInstructionCount, not_constant_iff.mpr ⟨hne, hsome⟩, if_neg Bool.false_ne_true,
    Nat.add_comm]
  rfl

/-- The estimate of an alternation is its count as `usize` sees it. -/
theorem estimateAlternationInstructions_eq_wrap :
    estimateAlternationInstructions u alternatives =
      u.wrap (alternationInstructionCount alternatives) := by
  cases hconst : alternatives.isEmpty || alternatives.any List.isEmpty with
  | true =>
    rw [estimateAlternationInstructions, alternationInstructionCount, hconst, if_pos rfl, if_pos rfl,
      u.wrap_of_lt (by decide)]
  | false =>
    obtain ⟨hne, hsome⟩ := not_constant_iff.mp hconst
    rw [estimateAlternationInstructions_eq hne hsome, alternationInstructionCount_eq hne hsome]

theorem literalSearchInstructionCount_eq {n : Nat} (hn : n ≠ 0) :
    literalSearchInstructionCount u n = u.wrap (14 + 2 * n) := by
  rw [literalSearchInstructionCount, if_neg hn, u.wrap_add_wrap, Nat.mul_comm]

/-- The gate refuses exactly what exceeds the limit. -/
theorem compileWithLimit_eq_err {n len max : Nat} :
    compileWithLimit n = .err (.patternTooLong len max) ↔
      MAX_BPF_INSTRUCTION_LEN < n ∧ len = n ∧ max = MAX_BPF_INSTRUCTION_LEN := by
  unfold compileWithLimit
  split
  · next hlt =>
    simp [hlt, eq_comm]
  · next hle =>
    simp only [reduceCtorEq, false_iff]
    exact fun h => hle h.1

end Estimates

/-! ## Gates -/

section Gates

variable (u : Usize)

/-- The checks of `compile_literal_search` before it emits. -/
def literalSearchGate (pattern : List UInt8) : Outcome CompileError Unit :=
  (compileWithLimit (literalSearchInstructionCount u pattern.length)).andThen fun _ =>
    if pattern.length > MAX_BPF_PATTERN_LEN then
      .err (.patternTooLong pattern.length MAX_BPF_PATTERN_LEN)
    else
      .ok ()

/-- The check of `compile_alternation` before it emits. -/
def alternationGate (alternatives : List (List UInt8)) : Outcome CompileError Unit :=
  compileWithLimit (estimateAlternationInstructions u alternatives)

/-- The check of `compile_char_class` on well-formed ranges before it emits. -/
def charClassGate (ranges : List CharRange) : Outcome CompileError Unit :=
  compileWithLimit (u.wrap (4 + u.wrap (ranges.length * 2)))

/-- A compile function goes on to emit only if its gate lets the input through, for
    all inputs that come to the gate at all. -/
def EmitsAfterGate {α : Type} (Reaches : α → Prop) (gate : α → Outcome CompileError Unit)
    (emission compile : α → Outcome CompileError Prog) : Prop :=
  ∀ input, Reaches input → compile input = (gate input).andThen fun _ => emission input

/-- The gate refuses the input as too long, and so the compile function does. -/
def RefusedBeforeEmission (gate : Outcome CompileError Unit) (compiled : Outcome CompileError Prog) :
    Prop :=
  ∃ len max, gate = .err (.patternTooLong len max) ∧ compiled = .err (.patternTooLong len max)

theorem compileLiteralSearch_eq_gate (pattern : List UInt8) :
    compileLiteralSearch u pattern =
      (literalSearchGate u pattern).andThen fun _ => finish u (emitLiteralSearch pattern) := by
  unfold compileLiteralSearch literalSearchGate
  cases compileWithLimit (literalSearchInstructionCount u pattern.length) with
  | ok _ =>
    simp only [Outcome.ok_andThen]
    split
    · rfl
    · rfl
  | err _ => rfl
  | panicked => rfl

theorem compileAlternation_eq_gate {alternatives : List (List UInt8)} (hne : alternatives ≠ [])
    (hsome : [] ∉ alternatives) :
    compileAlternation u alternatives =
      (alternationGate u alternatives).andThen fun _ => finish u (emitAlternation alternatives) := by
  have hconst := Bool.or_eq_false_iff.mp (not_constant_iff.mpr ⟨hne, hsome⟩)
  rw [compileAlternation, hconst.1, hconst.2, if_neg Bool.false_ne_true,
    if_neg Bool.false_ne_true, alternationGate]

theorem compileCharClass_eq_gate {ranges : List CharRange} (h : WellFormedRanges ranges) :
    compileCharClass u ranges =
      (charClassGate u ranges).andThen fun _ => finish u (emitCharClass ranges) := by
  rw [compileCharClass_wellFormed h, emitCharClass_eq, charClassGate]

variable {u}

/-- It is enough that the gate refuses the input. -/
theorem RefusedBeforeEmission.of_gate {gate : Outcome CompileError Unit}
    {emission compiled : Outcome CompileError Prog} {len max : Nat}
    (hcompiled : compiled = gate.andThen fun _ => emission)
    (hgate : gate = .err (.patternTooLong len max)) : RefusedBeforeEmission gate compiled := by
  refine ⟨len, max, hgate, ?_⟩
  rw [hcompiled, hgate]
  rfl

end Gates

/-! ## Errors of the loader -/

/-- How many hyphens a text has. The line that introduces the verifier's log has two,
    and the errors of the gates have fewer. -/
def hyphens (s : String) : Nat := s.toList.count '-'

theorem hyphens_append (s t : String) : hyphens (s ++ t) = hyphens s + hyphens t := by
  rw [hyphens, String.toList_append, List.count_append]
  rfl

theorem hyphens_natRepr (n : Nat) : hyphens (toString n) = 0 := by
  refine List.count_eq_zero.mpr ?_
  intro hmem
  exact absurd (Fmt.isDigit_of_mem_natRepr hmem) (by decide)

theorem hyphens_programTooLongError (n : Nat) : hyphens (programTooLongError n).message = 1 := by
  simp only [programTooLongError, hyphens_append, hyphens_natRepr]
  decide

/-- Whatever the kernel answers, it does not look like a refusal by a gate. -/
theorem submitProgram_not_gated {kernel : FilterKernel} {insns : List BpfInsn}
    (hlen : insns.length ≤ MAX_BPF_INSNS) :
    (submitProgram kernel insns).result ≠ .err emptyProgramError ∧
      ∀ n, (submitProgram kernel insns).result ≠ .err (programTooLongError n) := by
  have hmany : ∀ error, (submitProgram kernel insns).result = .err error →
      2 ≤ hyphens error.message := by
    intro error herror
    unfold MAX_BPF_INSNS at hlen
    rw [submitProgram, if_neg (by omega)] at herror
    split at herror
    · cases herror
    · cases herror
      have hline : hyphens " -- BPF verifier log: " = 2 := by decide
      simp only [verifierError, hyphens_append, hline]
      omega
  refine ⟨?_, ?_⟩
  · intro herror
    exact absurd (hmany _ herror) (by decide)
  · intro n herror
    have htwo := hmany _ herror
    rw [hyphens_programTooLongError] at htwo
    exact absurd htwo (by decide)

/-! ## Exact arithmetic -/

/-- The program is no shorter than a constant one and no longer than the limit,
    so that the gates of `load_filter` have nothing against it: whatever the kernel
    answers, the program is submitted, and neither of their errors is returned. -/
def PassesLoadGate (prog : Prog) : Prop :=
  2 ≤ prog.length ∧ prog.length ≤ MAX_BPF_INSNS ∧
    ∀ kernel, loadFilter kernel prog = submitProgram kernel prog ∧
      (loadFilter kernel prog).result ≠ .err emptyProgramError ∧
      ∀ n, (loadFilter kernel prog).result ≠ .err (programTooLongError n)

theorem PassesLoadGate.of_length {prog : Prog} (hmin : 2 ≤ prog.length)
    (hmax : prog.length ≤ MAX_BPF_INSNS) : PassesLoadGate prog := by
  refine ⟨hmin, hmax, ?_⟩
  intro kernel
  have hne : prog ≠ [] := by
    rintro rfl
    exact absurd hmin (by decide)
  rw [loadFilter_eq_submitProgram hne hmax]
  exact ⟨rfl, submitProgram_not_gated hmax⟩

theorem passesLoadGate_ret (value : Int32) : PassesLoadGate (ret value) :=
  .of_length (by simp) (by simp [MAX_BPF_INSNS])

theorem literal_length {pattern : List UInt8} {prog : Prog}
    (h : compileLiteralSearch .exact pattern = .ok prog) :
    prog.length = literalSearchInstructionCount .exact pattern.length ∧ PassesLoadGate prog := by
  obtain ⟨hle, rfl⟩ := compileLiteralSearch_eq_ok h
  unfold MAX_BPF_PATTERN_LEN at hle
  have hlen : (literalOf pattern).length = literalSearchInstructionCount .exact pattern.length := by
    cases pattern with
    | nil => rfl
    | cons b bytes =>
      rw [literalSearchInstructionCount_eq (by simp), Usize.wrap_exact]
      exact length_literalProgram (b :: bytes)
  have hbounds : 2 ≤ literalSearchInstructionCount .exact pattern.length ∧
      literalSearchInstructionCount .exact pattern.length ≤ MAX_BPF_INSNS := by
    unfold literalSearchInstructionCount MAX_BPF_INSNS
    simp only [Usize.wrap_exact]
    split
    · decide
    · omega
  rw [← hlen] at hbounds
  exact ⟨hlen, .of_length hbounds.1 hbounds.2⟩

theorem alternation_length {alternatives : List (List UInt8)} {prog : Prog}
    (h : compileAlternation .exact alternatives = .ok prog) :
    prog.length = estimateAlternationInstructions .exact alternatives ∧ PassesLoadGate prog := by
  rcases compileAlternation_eq_ok h with ⟨rfl, rfl⟩ | ⟨hmem, rfl⟩ | ⟨hsome, hne, hle, rfl⟩
  · exact ⟨rfl, passesLoadGate_ret 0⟩
  · refine ⟨?_, passesLoadGate_ret 1⟩
    rw [estimateAlternationInstructions, if_pos]
    · rfl
    · rw [Bool.or_eq_true]
      exact .inr (List.any_eq_true.mpr ⟨[], hmem, rfl⟩)
  · have hlen := length_altProgram alternatives
    refine ⟨?_, .of_length (by omega) (by rw [hlen]; exact hle)⟩
    rw [hlen, estimateAlternationInstructions_eq hne hsome, Usize.wrap_exact]

theorem charClass_length {ranges : List CharRange} {prog : Prog}
    (h : compileCharClass .exact ranges = .ok prog) :
    prog.length = 4 + 2 * ranges.length ∧ PassesLoadGate prog := by
  obtain ⟨-, -, hle, rfl⟩ := compileCharClass_eq_ok h
  have hlen := length_classProgram ranges
  exact ⟨by omega, .of_length (by omega) (by rw [hlen]; exact hle)⟩

theorem characterClass_length {text : List UInt8} {prog : Prog}
    (h : compileCharacterClass .exact text = .ok prog) :
    (text = [] → prog.length = 2) ∧
    (text ≠ [] → ∃ ranges, parseCharacterClass text = .ok ranges ∧
      prog.length = 4 + 2 * ranges.length ∧
      prog.length = estimateCharacterClassInstructions .exact ranges) ∧
    PassesLoadGate prog := by
  unfold compileCharacterClass at h
  split at h
  · next hempty =>
    cases h
    exact ⟨fun _ => rfl, fun hne => absurd (List.isEmpty_iff.mp hempty) hne, passesLoadGate_ret 0⟩
  · next hempty =>
    obtain ⟨ranges, hparse, hclass⟩ := Outcome.andThen_eq_ok.mp h
    obtain ⟨hlen, hloads⟩ := charClass_length hclass
    rw [List.length_map] at hlen
    have hne : ranges ≠ [] := by
      rintro rfl
      cases hclass
    have hestimate : estimateCharacterClassInstructions .exact ranges = 4 + 2 * ranges.length := by
      rw [estimateCharacterClassInstructions, if_neg (by simpa using hne), Usize.wrap_exact,
        Usize.wrap_exact, Nat.mul_comm]
    exact ⟨fun heq => absurd (List.isEmpty_iff.mpr heq) hempty,
      fun _ => ⟨ranges, hparse, hlen, hlen.trans hestimate.symm⟩, hloads⟩

/-- In exact arithmetic emission never panics, so a gate that refuses is the only
    way to fail as too long. -/
theorem andThen_finish_eq_tooLong {n : Nat} {prog : Prog} :
    (∃ len max, ((compileWithLimit n).andThen fun _ => finish .exact prog) =
      .err (.patternTooLong len max)) ↔ MAX_BPF_INSTRUCTION_LEN < n := by
  unfold compileWithLimit
  split
  · next hlt => simpa using hlt
  · next hle => simpa [finish, Usize.fitsVec] using hle

theorem alternation_tooLong (alternatives : List (List UInt8)) :
    (∃ len max, compileAlternation .exact alternatives = .err (.patternTooLong len max)) ↔
      MAX_BPF_INSTRUCTION_LEN < estimateAlternationInstructions .exact alternatives := by
  cases hconst : alternatives.isEmpty || alternatives.any List.isEmpty with
  | true =>
    have hestimate : estimateAlternationInstructions .exact alternatives = 2 := by
      rw [estimateAlternationInstructions, hconst, if_pos rfl]
    have hok : ∃ prog, compileAlternation .exact alternatives = .ok prog := by
      unfold compileAlternation
      split
      · exact ⟨_, rfl⟩
      · next hempty =>
        rw [Bool.eq_false_of_not_eq_true hempty, Bool.false_or] at hconst
        rw [if_pos hconst]
        exact ⟨_, rfl⟩
    obtain ⟨prog, hok⟩ := hok
    simp [hok, hestimate, MAX_BPF_INSTRUCTION_LEN]
  | false =>
    obtain ⟨hne, hsome⟩ := not_constant_iff.mp hconst
    rw [compileAlternation_eq_gate _ hne hsome]
    exact andThen_finish_eq_tooLong

theorem charClass_tooLong {ranges : List CharRange} (h : WellFormedRanges ranges) :
    (∃ len max, compileCharClass .exact ranges = .err (.patternTooLong len max)) ↔
      MAX_BPF_INSTRUCTION_LEN < 4 + 2 * ranges.length := by
  rw [compileCharClass_wellFormed h, Usize.wrap_exact, Usize.wrap_exact, Nat.mul_comm 2]
  exact andThen_finish_eq_tooLong

/-- The estimates are the sizes of the compiled programs, `load_filter` accepts
    what compiles, and the estimates alone decide what is too long. -/
theorem compile_size_exact :
    (∀ pattern prog, compileLiteralSearch .exact pattern = .ok prog →
      prog.length = literalSearchInstructionCount .exact pattern.length ∧ PassesLoadGate prog) ∧
    (∀ alternatives prog, compileAlternation .exact alternatives = .ok prog →
      prog.length = estimateAlternationInstructions .exact alternatives ∧ PassesLoadGate prog) ∧
    (∀ ranges prog, compileCharClass .exact ranges = .ok prog →
      prog.length = 4 + 2 * ranges.length ∧ PassesLoadGate prog) ∧
    (∀ text prog, compileCharacterClass .exact text = .ok prog →
      (text = [] → prog.length = 2) ∧
      (text ≠ [] → ∃ ranges, parseCharacterClass text = .ok ranges ∧
        prog.length = 4 + 2 * ranges.length ∧
        prog.length = estimateCharacterClassInstructions .exact ranges) ∧
      PassesLoadGate prog) ∧
    (∀ alternatives,
      (∃ len max, compileAlternation .exact alternatives = .err (.patternTooLong len max)) ↔
        4096 < estimateAlternationInstructions .exact alternatives) ∧
    (∀ ranges : List CharRange, ranges ≠ [] → (∀ r ∈ ranges, r.lo ≤ r.hi) →
      ((∃ len max, compileCharClass .exact ranges = .err (.patternTooLong len max)) ↔
        4096 < 4 + 2 * ranges.length)) := by
  refine ⟨?_, ?_, ?_, ?_, alternation_tooLong, ?_⟩
  · intro pattern prog h
    exact literal_length h
  · intro alternatives prog h
    exact alternation_length h
  · intro ranges prog h
    exact charClass_length h
  · intro text prog h
    exact characterClass_length h
  · intro ranges hne hle
    exact charClass_tooLong ⟨hne, hle⟩

/-- The program of a class of one range. -/
theorem compile_size_exact_range :
    ∃ prog, compileCharClass .exact [⟨0x61, 0x7a⟩] = .ok prog ∧ prog.length = 6 ∧
      PassesLoadGate prog := by
  obtain ⟨-, -, hclass, -⟩ := compile_size_exact
  have hok : compileCharClass .exact [⟨0x61, 0x7a⟩] = .ok (classProgram [⟨0x61, 0x7a⟩]) :=
    compileCharClass_of_le ⟨by decide, by decide⟩ (by decide)
  exact ⟨_, hok, hclass _ _ hok⟩

/-! ## Wrapping arithmetic -/

section Wrapping

variable (arch : Arch)

/-- A pattern that slips through the gate on instructions because its estimate
    wrapped is caught by the check of its own length. -/
theorem literalSearchGate_refuses {pattern : List UInt8} (hlong : 4096 < 14 + 2 * pattern.length) :
    ∃ len max, literalSearchGate (.wrapping arch) pattern = .err (.patternTooLong len max) := by
  unfold literalSearchGate compileWithLimit
  split
  · exact ⟨_, _, rfl⟩
  · refine ⟨pattern.length, MAX_BPF_PATTERN_LEN, ?_⟩
    rw [Outcome.ok_andThen, if_pos]
    unfold MAX_BPF_PATTERN_LEN
    omega

theorem alternationGate_refuses_iff (alternatives : List (List UInt8)) :
    (∃ len max, alternationGate (.wrapping arch) alternatives = .err (.patternTooLong len max)) ↔
      4096 < alternationInstructionCount alternatives % 2 ^ arch.width := by
  simp only [alternationGate, compileWithLimit_eq_err, estimateAlternationInstructions_eq_wrap]
  simp [Usize.wrap, MAX_BPF_INSTRUCTION_LEN]

theorem charClassGate_refuses {ranges : List CharRange}
    (hslice : ranges.length < 2 ^ (arch.width - 2)) (hlong : 4096 < 4 + 2 * ranges.length) :
    ∃ len max, charClassGate (.wrapping arch) ranges = .err (.patternTooLong len max) := by
  have hfits : (Usize.wrapping arch).fitsVec 2 ranges.length = true := by
    have hwidth : 2 ^ (arch.width - 1) = 2 * 2 ^ (arch.width - 2) := by cases arch <;> rfl
    refine decide_eq_true ?_
    omega
  simp only [charClassGate, compileWithLimit_eq_err, wrap_classEstimate hfits]
  exact ⟨_, _, hlong, rfl, rfl⟩

/-- Every compile function emits only past its gate, and only an alternation can get past
    that with too large a size: it does if its count exceeds the limit and wraps to a
    number that does not. -/
theorem sizeGate_wrapping :
    (EmitsAfterGate (fun _ => True) (literalSearchGate (.wrapping arch))
        (fun pattern => finish (.wrapping arch) (emitLiteralSearch pattern))
        (compileLiteralSearch (.wrapping arch)) ∧
      EmitsAfterGate (fun alternatives => alternatives ≠ [] ∧ [] ∉ alternatives)
        (alternationGate (.wrapping arch))
        (fun alternatives => finish (.wrapping arch) (emitAlternation alternatives))
        (compileAlternation (.wrapping arch)) ∧
      EmitsAfterGate WellFormedRanges (charClassGate (.wrapping arch))
        (fun ranges => finish (.wrapping arch) (emitCharClass ranges))
        (compileCharClass (.wrapping arch))) ∧
    (∀ pattern : List UInt8, pattern.length < 2 ^ (arch.width - 1) →
      4096 < 14 + 2 * pattern.length →
      RefusedBeforeEmission (literalSearchGate (.wrapping arch) pattern)
        (compileLiteralSearch (.wrapping arch) pattern)) ∧
    (∀ alternatives : List (List UInt8),
      (∀ alt ∈ alternatives, alt.length < 2 ^ (arch.width - 1)) →
      ((4096 < alternationInstructionCount alternatives →
        RefusedBeforeEmission (alternationGate (.wrapping arch) alternatives)
          (compileAlternation (.wrapping arch) alternatives)) ↔
      ¬ (4096 < alternationInstructionCount alternatives ∧
        alternationInstructionCount alternatives % 2 ^ arch.width ≤ 4096))) ∧
    (∀ ranges : List CharRange, ranges.length < 2 ^ (arch.width - 2) →
      ranges ≠ [] → (∀ r ∈ ranges, r.lo ≤ r.hi) → 4096 < 4 + 2 * ranges.length →
      RefusedBeforeEmission (charClassGate (.wrapping arch) ranges)
        (compileCharClass (.wrapping arch) ranges)) := by
  refine ⟨⟨?_, ?_, ?_⟩, ?_, ?_, ?_⟩
  · exact fun pattern _ => compileLiteralSearch_eq_gate _ pattern
  · exact fun alternatives h => compileAlternation_eq_gate _ h.1 h.2
  · exact fun ranges h => compileCharClass_eq_gate _ h
  · intro pattern _ hlong
    obtain ⟨len, max, hgate⟩ := literalSearchGate_refuses arch hlong
    exact .of_gate (compileLiteralSearch_eq_gate _ pattern) hgate
  · intro alternatives _
    refine ⟨?_, ?_⟩
    · rintro hrefused ⟨hlong, hwrapped⟩
      obtain ⟨len, max, hgate, -⟩ := hrefused hlong
      exact absurd ((alternationGate_refuses_iff arch alternatives).mp ⟨len, max, hgate⟩)
        (Nat.not_lt.mpr hwrapped)
    · intro hnot hlong
      have hconst : (alternatives.isEmpty || alternatives.any List.isEmpty) = false := by
        refine Bool.eq_false_of_not_eq_true ?_
        intro hconst
        rw [alternationInstructionCount, if_pos hconst] at hlong
        exact absurd hlong (by decide)
      obtain ⟨hne, hsome⟩ := not_constant_iff.mp hconst
      obtain ⟨len, max, hgate⟩ := (alternationGate_refuses_iff arch alternatives).mpr
        (Nat.lt_of_not_le fun hwrapped => hnot ⟨hlong, hwrapped⟩)
      exact .of_gate (compileAlternation_eq_gate _ hne hsome) hgate
  · intro ranges hslice hne hle hlong
    obtain ⟨len, max, hgate⟩ := charClassGate_refuses arch hslice hlong
    exact .of_gate (compileCharClass_eq_gate _ ⟨hne, hle⟩) hgate

end Wrapping

/-- Copies of one slice. -/
theorem not_constant_replicate {k n : Nat} (hk : k ≠ 0) (hn : n ≠ 0) (b : UInt8) :
    List.replicate k (List.replicate n b) ≠ [] ∧ [] ∉ List.replicate k (List.replicate n b) := by
  refine ⟨by simpa using hk, ?_⟩
  intro hmem
  have hlen := congrArg List.length (List.eq_of_mem_replicate hmem)
  rw [List.length_replicate] at hlen
  exact hn hlen.symm

theorem alternationInstructionCount_replicate {k n : Nat} (hk : k ≠ 0) (hn : n ≠ 0) (b : UInt8) :
    alternationInstructionCount (List.replicate k (List.replicate n b)) = 4 + k * (4 + 2 * n) := by
  rw [alternationInstructionCount, not_constant_iff.mpr (not_constant_replicate hk hn b),
    if_neg Bool.false_ne_true, List.map_replicate, List.sum_replicate_nat, List.length_replicate]

/-- Once the gate has let an alternation through, there is no error to return. -/
theorem alternation_not_refused {arch : Arch} {alternatives : List (List UInt8)}
    (hne : alternatives ≠ []) (hsome : [] ∉ alternatives)
    (hwrapped : alternationInstructionCount alternatives % 2 ^ arch.width ≤ 4096) :
    alternationGate (.wrapping arch) alternatives = .ok () ∧
      ∀ error, compileAlternation (.wrapping arch) alternatives ≠ .err error := by
  have hgate : alternationGate (.wrapping arch) alternatives = .ok () := by
    rw [alternationGate, estimateAlternationInstructions_eq_wrap]
    exact compileWithLimit_eq_ok.mpr hwrapped
  refine ⟨hgate, ?_⟩
  intro error
  rw [compileAlternation_eq_gate _ hne hsome, hgate, Outcome.ok_andThen, finish]
  split
  · simp
  · simp

/-- Three thousand alternatives of one byte each are refused on a 32-bit target. -/
theorem sizeGate_wrapping_many :
    RefusedBeforeEmission
      (alternationGate (.wrapping .bits32) (List.replicate 3000 (List.replicate 1 0x41)))
      (compileAlternation (.wrapping .bits32) (List.replicate 3000 (List.replicate 1 0x41))) := by
  have hcount := alternationInstructionCount_replicate (k := 3000) (n := 1) (by decide) (by decide) 0x41
  obtain ⟨-, -, halternation, -⟩ := sizeGate_wrapping .bits32
  refine (halternation _ ?_).mpr ?_ ?_
  · intro alt hmem
    rw [List.eq_of_mem_replicate hmem]
    decide
  · rw [hcount]
    decide
  · rw [hcount]
    decide

/-- On a 32-bit target, one slice of `2 ^ 30 - 2` bytes given twice counts
    `2 ^ 32 + 4` instructions, which wraps to four. -/
theorem alternation_bypasses_sizeGate :
    (∀ alt ∈ List.replicate 2 (List.replicate (2 ^ 30 - 2) (0x41 : UInt8)),
      alt.length < 2 ^ (Arch.bits32.width - 1)) ∧
    alternationInstructionCount (List.replicate 2 (List.replicate (2 ^ 30 - 2) 0x41)) =
      2 ^ 32 + 4 ∧
    alternationGate (.wrapping .bits32) (List.replicate 2 (List.replicate (2 ^ 30 - 2) 0x41)) =
      .ok () ∧
    ∀ error, compileAlternation (.wrapping .bits32)
      (List.replicate 2 (List.replicate (2 ^ 30 - 2) 0x41)) ≠ .err error := by
  obtain ⟨hne, hsome⟩ := not_constant_replicate (k := 2) (n := 2 ^ 30 - 2) (by decide) (by decide) 0x41
  have hcount := alternationInstructionCount_replicate (k := 2) (n := 2 ^ 30 - 2)
    (by decide) (by decide) 0x41
  refine ⟨?_, ?_, alternation_not_refused hne hsome ?_⟩
  · intro alt hmem
    rw [List.eq_of_mem_replicate hmem, List.length_replicate]
    decide
  · rw [hcount]
    decide
  · rw [hcount]
    decide

/-! ## The error of a literal search -/

/-- `compile_literal_search` accepts exactly the patterns up to the limit, and
    tells the length of any other and the limit. -/
def ReportsPatternLength (u : Usize) (pattern : List UInt8) : Prop :=
  ((∃ prog, compileLiteralSearch u pattern = .ok prog) ↔ pattern.length ≤ MAX_BPF_PATTERN_LEN) ∧
  (MAX_BPF_PATTERN_LEN < pattern.length →
    compileLiteralSearch u pattern = .err (.patternTooLong pattern.length MAX_BPF_PATTERN_LEN))

theorem compileLiteralSearch_ok_iff (u : Usize) (pattern : List UInt8) :
    (∃ prog, compileLiteralSearch u pattern = .ok prog) ↔ pattern.length ≤ MAX_BPF_PATTERN_LEN := by
  refine ⟨?_, ?_⟩
  · rintro ⟨prog, hok⟩
    exact (compileLiteralSearch_eq_ok hok).1
  · intro hle
    exact ⟨_, compileLiteralSearch_of_le hle⟩

/-- The gate on instructions comes first, and reports in its own unit. -/
theorem compileLiteralSearch_tooLong {u : Usize} {pattern : List UInt8}
    (hlong : MAX_BPF_PATTERN_LEN < pattern.length) :
    compileLiteralSearch u pattern =
      if MAX_BPF_INSTRUCTION_LEN < u.wrap (14 + 2 * pattern.length) then
        .err (.patternTooLong (u.wrap (14 + 2 * pattern.length)) MAX_BPF_INSTRUCTION_LEN)
      else
        .err (.patternTooLong pattern.length MAX_BPF_PATTERN_LEN) := by
  rw [compileLiteralSearch, literalSearchInstructionCount_eq (by omega), compileWithLimit]
  split
  · rfl
  · rw [Outcome.ok_andThen]

theorem reportsPatternLength_iff_wrap {u : Usize} {pattern : List UInt8} :
    ReportsPatternLength u pattern ↔
      pattern.length ≤ MAX_BPF_PATTERN_LEN ∨
        u.wrap (14 + 2 * pattern.length) ≤ MAX_BPF_INSTRUCTION_LEN := by
  by_cases hle : pattern.length ≤ MAX_BPF_PATTERN_LEN
  · simp only [hle, true_or, iff_true]
    exact ⟨compileLiteralSearch_ok_iff u pattern, fun hlong => absurd hle (Nat.not_le.mpr hlong)⟩
  · have hlong := Nat.lt_of_not_le hle
    rw [ReportsPatternLength, and_iff_right (compileLiteralSearch_ok_iff u pattern),
      compileLiteralSearch_tooLong hlong]
    simp only [hlong, true_implies, hle, false_or]
    split
    · next hgate =>
      simp only [Outcome.err.injEq, CompileError.patternTooLong.injEq, Nat.not_le.mpr hgate, iff_false]
      rintro ⟨-, hmax⟩
      exact absurd hmax (by decide)
    · next hgate => simpa using hgate

/-- The error is right up to the length at which the gate on instructions fires:
    `14 + 2 * 2041` is the limit of 4096. On a 32-bit target the count wraps for
    the seven longest slices, and they are reported correctly again. -/
theorem compileLiteralSearch_reports (u : Usize) (pattern : List UInt8)
    (hlen : pattern.length < 2 ^ 62) (hslice : u.fitsVec 1 pattern.length = true) :
    ReportsPatternLength u pattern ↔
      pattern.length ≤ 2041 ∨ (u = .wrapping .bits32 ∧ 2 ^ 31 - 7 ≤ pattern.length) := by
  rw [reportsPatternLength_iff_wrap]
  unfold MAX_BPF_PATTERN_LEN MAX_BPF_INSTRUCTION_LEN
  cases u with
  | exact =>
    simp only [Usize.wrap_exact, reduceCtorEq, false_and, or_false]
    omega
  | wrapping arch =>
    cases arch with
    | bits64 =>
      simp only [Usize.wrap, Arch.width, Usize.wrapping.injEq, reduceCtorEq, false_and, or_false]
      omega
    | bits32 =>
      have hbound : 1 * pattern.length < 2 ^ 31 := of_decide_eq_true hslice
      simp only [Usize.wrap, Arch.width, true_and]
      omega

/-- The longest pattern that is reported correctly on a 64-bit target. -/
theorem compileLiteralSearch_reports_2041 :
    ReportsPatternLength (.wrapping .bits64) (List.replicate 2041 0) :=
  (compileLiteralSearch_reports (.wrapping .bits64) (List.replicate 2041 0)
    (by rw [List.length_replicate]; decide) (by rw [List.length_replicate]; decide)).mpr
    (.inl (Nat.le_of_eq List.length_replicate))

/-- One byte more, and the error tells of 4098 out of 4096. -/
theorem compileLiteralSearch_misreports_2042 :
    compileLiteralSearch (.wrapping .bits64) (List.replicate 2042 0) =
      .err (.patternTooLong 4098 4096) ∧
    ¬ ReportsPatternLength (.wrapping .bits64) (List.replicate 2042 0) := by
  have hlong : MAX_BPF_PATTERN_LEN < (List.replicate 2042 (0 : UInt8)).length := by
    rw [List.length_replicate]
    decide
  have herr : compileLiteralSearch (.wrapping .bits64) (List.replicate 2042 0) =
      .err (.patternTooLong 4098 4096) := by
    rw [compileLiteralSearch_tooLong hlong, List.length_replicate]
    rfl
  refine ⟨herr, ?_⟩
  intro hreports
  have hright := hreports.2 hlong
  rw [herr, List.length_replicate] at hright
  exact absurd hright (by decide)

end Ebpfkit
