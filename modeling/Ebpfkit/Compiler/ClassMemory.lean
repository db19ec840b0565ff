-- SUMMARY: `compile_character_class` with the capacities of its vectors: which texts make it panic, and what it returns for all others.
import Ebpfkit.Compiler.ClassFaults
import Mathlib.Data.List.Infix

/-!
# Class text and memory

The parser collects tokens and ranges in vectors whose length is not known in
advance. A `Vec` panics rather than allocate more than `isize::MAX` bytes, so text
can be too long to be parsed. Here the functions are those of the parser with the
capacities of the vectors. Only the vector of tokens can grow too large, since four
ranges take no more room than a token. Where it does not, the functions return what
they return without capacities.

An allocation that the allocator refuses for want of memory aborts the process, and
is not described.
-/

namespace Ebpfkit

open Bpf

/-! ## The functions -/

/-- The scanning loop of `parse_character_class`, with the tokens scanned so far. -/
def scanTokensAlloc (u : Usize) (tokenSize : Nat) :
    GrowingVec Token → List UInt8 → Outcome CompileError (GrowingVec Token)
  | tokens, [] => .ok tokens
  | tokens, b :: rest =>
    if b = ascii '\\' then
      (decodeCharacterClassEscape rest.head?).andThen fun token =>
        (u.extendVec tokenSize tokens [token]).andThen fun tokens =>
          match rest with
          | [] => .ok tokens
          | _ :: rest' => scanTokensAlloc u tokenSize tokens rest'
    else if b = ascii '-' then
      (u.extendVec tokenSize tokens [.dash]).andThen fun tokens =>
        scanTokensAlloc u tokenSize tokens rest
    else
      (u.extendVec tokenSize tokens [.byte b]).andThen fun tokens =>
        scanTokensAlloc u tokenSize tokens rest

/-- `tokens_to_ranges`, with the ranges pushed so far. A range takes three bytes. -/
def tokensToRangesAlloc (u : Usize) :
    GrowingVec PatternRange → List Token → Outcome CompileError (GrowingVec PatternRange)
  | ranges, [] => .ok ranges
  | ranges, .byte start :: .dash :: .byte stop :: rest =>
    if start > stop then
      invalidPattern "character class range endpoints are reversed"
    else
      (u.extendVec 3 ranges [.span start stop]).andThen fun ranges =>
        tokensToRangesAlloc u ranges rest
  | _, .dash :: .dash :: _ =>
    invalidPattern "character class contains consecutive unescaped dashes"
  | ranges, token :: rest =>
    (u.extendVec 3 ranges token.ranges).andThen fun ranges => tokensToRangesAlloc u ranges rest

def parseCharacterClassAlloc (u : Usize) (tokenSize : Nat) (text : List UInt8) :
    Outcome CompileError (List PatternRange) :=
  if isUtf8 text && text.any (fun b => b ≥ 0x80) then
    invalidPattern
      "character class contains non-ASCII codepoints; use raw bytes or an escape sequence"
  else
    (scanTokensAlloc u tokenSize (.of []) text).andThen fun tokens =>
      (tokensToRangesAlloc u (.of []) tokens.elems).andThen fun ranges => .ok ranges.elems

/-- The ranges are collected into a vector of their number. A `CharRange` takes two bytes. -/
def compileCharacterClassAlloc (u : Usize) (tokenSize : Nat) (text : List UInt8) :
    Outcome CompileError Prog :=
  if text.isEmpty then
    .ok [alu64Imm BPF_MOV R0 0, exit]
  else
    (parseCharacterClassAlloc u tokenSize text).andThen fun ranges =>
      if u.fitsVec 2 ranges.length then compileCharClass u (ranges.map PatternRange.toCharRange)
      else .panicked

/-! ## Scanning -/

section Scanning

variable {u : Usize} {tokenSize : Nat} {pre : List UInt8} {syms : List Sym}

/-- What one symbol adds to the tokens. -/
theorem scanTokensAlloc_cons {sym : Sym} {text : List UInt8} (hlex : Lexes text [sym])
    {tokens : List Token} (h : u.holds tokenSize tokens.length = true) (rest : List UInt8) :
    scanTokensAlloc u tokenSize (.of tokens) (text ++ rest) =
      if u.holds tokenSize (tokens.length + 1) then
        scanTokensAlloc u tokenSize (.of (tokens ++ [sym.token])) rest
      else .panicked := by
  have hpush : (u.extendVec tokenSize (.of tokens) [sym.token] : Outcome CompileError _) =
      if u.holds tokenSize (tokens.length + 1) then .ok (.of (tokens ++ [sym.token]))
      else .panicked := Usize.extendVec_of (by simp) h
  have hbackslash : ascii '\\' = 0x5C := by decide
  have hhyphen : ascii '-' = 0x2D := by decide
  have hscan : scanTokensAlloc u tokenSize (.of tokens) (text ++ rest) =
      (u.extendVec tokenSize (.of tokens) [sym.token]).andThen fun tokens =>
        scanTokensAlloc u tokenSize tokens rest := by
    cases hlex with
    | escape hmem hnil =>
      cases hnil
      rw [List.cons_append, List.cons_append, scanTokensAlloc, hbackslash, if_pos rfl,
        List.head?_cons, decodeCharacterClassEscape_of_mem hmem]
      rfl
    | dash hnil =>
      cases hnil
      rw [List.cons_append, scanTokensAlloc, hbackslash, hhyphen, if_neg (by decide), if_pos rfl]
      rfl
    | literal hescape hdash hnil =>
      cases hnil
      rw [List.cons_append, scanTokensAlloc, hbackslash, hhyphen, if_neg hescape, if_neg hdash]
      rfl
  rw [hscan, hpush]
  split <;> rfl

/-- Text that spells symbols begins with the spelling of the first one. -/
theorem Lexes.uncons {text : List UInt8} {sym : Sym} (h : Lexes text (sym :: syms)) :
    ∃ word rest, text = word ++ rest ∧ Lexes word [sym] ∧ Lexes rest syms := by
  cases h with
  | @escape e _ rest _ hmem hrest => exact ⟨[0x5C, e], rest, rfl, .escape hmem .nil, hrest⟩
  | @dash rest _ hrest => exact ⟨[0x2D], rest, rfl, .dash .nil, hrest⟩
  | @literal b rest _ hescape hdash hrest =>
    exact ⟨[b], rest, rfl, .literal hescape hdash .nil, hrest⟩

theorem scanTokensAlloc_lexes (hlex : Lexes pre syms) {tokens : List Token}
    (h : u.holds tokenSize (tokens.length + syms.length) = true) (rest : List UInt8) :
    scanTokensAlloc u tokenSize (.of tokens) (pre ++ rest) =
      scanTokensAlloc u tokenSize (.of (tokens ++ syms.map Sym.token)) rest := by
  induction syms generalizing pre tokens with
  | nil =>
    cases hlex
    rw [List.nil_append, List.map_nil, List.append_nil]
  | cons sym syms ih =>
    obtain ⟨word, text, rfl, hword, htext⟩ := hlex.uncons
    rw [List.length_cons] at h
    have hone : u.holds tokenSize (tokens.length + 1) = true := Usize.holds_mono (by omega) h
    have hmany : u.holds tokenSize ((tokens ++ [sym.token]).length + syms.length) = true :=
      Usize.holds_mono (by simp; omega) h
    rw [List.append_assoc, scanTokensAlloc_cons hword (Usize.holds_mono (by omega) h),
      if_pos hone, ih htext hmany, List.map_cons, List.append_assoc, List.singleton_append]

/-- Scanning stops at the first token for which there is no capacity. -/
theorem scanTokensAlloc_overflow (hlex : Lexes pre syms) {tokens : List Token}
    (h : u.holds tokenSize tokens.length = true)
    (hover : u.holds tokenSize (tokens.length + syms.length) = false) (rest : List UInt8) :
    scanTokensAlloc u tokenSize (.of tokens) (pre ++ rest) = .panicked := by
  induction syms generalizing pre tokens with
  | nil =>
    rw [List.length_nil, Nat.add_zero, h] at hover
    cases hover
  | cons sym syms ih =>
    obtain ⟨word, text, rfl, hword, htext⟩ := hlex.uncons
    rw [List.append_assoc, scanTokensAlloc_cons hword h]
    split
    · next hone =>
      have hlength : (tokens ++ [sym.token]).length = tokens.length + 1 := by simp
      refine ih htext (by rw [hlength]; exact hone) ?_
      rw [hlength, Nat.add_assoc, Nat.add_comm 1, ← List.length_cons, hover]
    · rfl

/-- Where every stretch of symbols can be held, the text is scanned as without capacities. -/
theorem scanTokensAlloc_eq {text : List UInt8}
    (h : ∀ pre syms, pre <+: text → Lexes pre syms → u.holds tokenSize syms.length = true) :
    scanTokensAlloc u tokenSize (.of []) text =
      (scanTokens text).andThen fun tokens => .ok (.of tokens) := by
  rcases lexes_or_scanFault text with ⟨syms, hlex⟩ | ⟨f, hscan⟩
  · have hholds : u.holds tokenSize (([] : List Token).length + syms.length) = true := by
      simpa using h text syms (List.prefix_refl _) hlex
    have hall := scanTokensAlloc_lexes hlex hholds []
    rw [List.append_nil, List.nil_append] at hall
    rw [hall, scanTokens_of_lexes hlex]
    rfl
  · rw [scanTokens_of_scanFault hscan]
    obtain ⟨pre, syms, rest, hlex, rfl, hfault⟩ := hscan
    have hholds : u.holds tokenSize (([] : List Token).length + syms.length) = true := by
      simpa using h pre syms (List.prefix_append _ _) hlex
    rw [scanTokensAlloc_lexes hlex hholds, scanTokensAlloc, if_pos (by decide),
      decodeCharacterClassEscape_of_fault hfault]
    rfl

end Scanning

/-! ## Ranges -/

section Ranges

variable {u : Usize} {ranges : GrowingVec PatternRange} {rest : List Sym}

theorem tokensToRangesAlloc_range {lo hi : UInt8} {rest : List Token} :
    tokensToRangesAlloc u ranges (.byte lo :: .dash :: .byte hi :: rest) =
      if lo > hi then invalidPattern "character class range endpoints are reversed"
      else (u.extendVec 3 ranges [.span lo hi]).andThen fun ranges =>
        tokensToRangesAlloc u ranges rest := by
  rw [tokensToRangesAlloc]

theorem tokensToRangesAlloc_single {s : Sym} (hwindow : ¬ RangeWindow (s :: rest) 0)
    (hclash : ¬ (s = .dash ∧ rest[0]? = some .dash)) :
    tokensToRangesAlloc u ranges ((s :: rest).map Sym.token) =
      (u.extendVec 3 ranges s.token.ranges).andThen fun ranges =>
        tokensToRangesAlloc u ranges (rest.map Sym.token) := by
  rw [List.map_cons, tokensToRangesAlloc]
  · intro lo hi tail hs hrest
    match s, rest, hs, hrest with
    | .literal _, .dash :: .literal _ :: _, _, _ => exact hwindow ⟨_, _, rfl, rfl, rfl⟩
  · intro tail hs hrest
    match s, rest, hs, hrest with
    | .dash, .dash :: _, _, _ => exact hclash ⟨rfl, rfl⟩

theorem Sym.token_ranges_length (s : Sym) : s.token.ranges.length ≤ 4 := by
  cases s with
  | literal b => simp [token, Token.ranges]
  | dash => simp [token, Token.ranges]
  | cls name => cases name <;> simp [token, Token.ranges, ClassName.ranges]

/-- With room for four ranges a symbol, the ranges are those found without capacities. -/
theorem tokensToRangesAlloc_eq (syms : List Sym) {ranges : List PatternRange}
    (h : u.holds 3 (ranges.length + 4 * syms.length) = true) :
    tokensToRangesAlloc u (.of ranges) (syms.map Sym.token) =
      (tokensToRanges (syms.map Sym.token)).andThen fun found => .ok (.of (ranges ++ found)) := by
  induction syms using Sym.rangeInduction generalizing ranges with
  | nil => simp [tokensToRangesAlloc, tokensToRanges]
  | range lo hi rest ih =>
    simp only [List.length_cons] at h
    have hpush : (u.extendVec 3 (.of ranges) [.span lo hi] : Outcome CompileError _) =
        .ok (.of (ranges ++ [.span lo hi])) :=
      Usize.extendVec_of_holds (by simp) (Usize.holds_mono (by simp; omega) h)
    have hrest : u.holds 3 ((ranges ++ [PatternRange.span lo hi]).length + 4 * rest.length) = true :=
      Usize.holds_mono (by simp; omega) h
    simp only [List.map_cons, Sym.token, tokensToRangesAlloc_range, tokensToRanges_range]
    split
    · rfl
    · rw [hpush, Outcome.ok_andThen, ih hrest]
      cases tokensToRanges (rest.map Sym.token) with
      | ok found => simp only [Outcome.ok_andThen, List.append_assoc, List.singleton_append]
      | err e => rfl
      | panicked => rfl
  | clash rest => rfl
  | single s rest hwindow hclash ih =>
    have hlength := s.token_ranges_length
    rw [List.length_cons] at h
    have hpush : (u.extendVec 3 (.of ranges) s.token.ranges : Outcome CompileError _) =
        .ok (.of (ranges ++ s.token.ranges)) :=
      Usize.extendVec_of_holds hlength (Usize.holds_mono (by omega) h)
    have hrest : u.holds 3 ((ranges ++ s.token.ranges).length + 4 * rest.length) = true :=
      Usize.holds_mono (by rw [List.length_append]; omega) h
    rw [tokensToRangesAlloc_single hwindow hclash, tokensToRanges_single hwindow hclash, hpush,
      Outcome.ok_andThen, ih hrest]
    cases tokensToRanges (rest.map Sym.token) with
    | ok found => simp only [Outcome.ok_andThen, List.append_assoc]
    | err e => rfl
    | panicked => rfl

end Ranges

/-! ## The parser -/

/-- The text is scanned, and some stretch of symbols at its start needs more tokens than a `Vec`
    can hold. -/
def TokensOverflow (u : Usize) (tokenSize : Nat) (text : List UInt8) : Prop :=
  ¬ NonAsciiUtf8 text ∧
    ∃ pre syms, pre <+: text ∧ Lexes pre syms ∧ u.holds tokenSize syms.length = false

/-- Where the tokens do not overflow, there is room for every stretch of symbols. -/
theorem holds_of_not_overflow {u : Usize} {tokenSize : Nat} {text pre : List UInt8} {syms : List Sym}
    (h : ¬ TokensOverflow u tokenSize text) (hascii : ¬ NonAsciiUtf8 text) (hpre : pre <+: text)
    (hlex : Lexes pre syms) : u.holds tokenSize syms.length = true := by
  cases hholds : u.holds tokenSize syms.length with
  | true => rfl
  | false => exact absurd ⟨hascii, pre, syms, hpre, hlex, hholds⟩ h

/-- Ranges are small: four of them take no more room than a token. -/
theorem holds_ranges {u : Usize} {tokenSize n : Nat} (hsize : 12 ≤ tokenSize)
    (h : u.holds tokenSize n = true) : u.holds 3 (4 * n) = true := by
  refine Usize.fitsVec_mono ?_ h
  calc 3 * grownCapacity (4 * n) ≤ 3 * (4 * grownCapacity n) :=
        Nat.mul_le_mul_left 3 (grownCapacity_four_mul n)
    _ = 12 * grownCapacity n := by omega
    _ ≤ tokenSize * grownCapacity n := Nat.mul_le_mul_right _ hsize

section Parser

variable {u : Usize} {tokenSize : Nat} {text : List UInt8}

theorem parseCharacterClassAlloc_of_not (h : ¬ NonAsciiUtf8 text) :
    parseCharacterClassAlloc u tokenSize text =
      (scanTokensAlloc u tokenSize (.of []) text).andThen fun tokens =>
        (tokensToRangesAlloc u (.of []) tokens.elems).andThen fun ranges => .ok ranges.elems := by
  rw [parseCharacterClassAlloc, if_neg (mt nonAsciiUtf8_iff.mp h)]

theorem parseCharacterClassAlloc_overflow (h : TokensOverflow u tokenSize text) :
    parseCharacterClassAlloc u tokenSize text = .panicked := by
  obtain ⟨hascii, pre, syms, ⟨rest, rfl⟩, hlex, hover⟩ := h
  rw [parseCharacterClassAlloc_of_not hascii,
    scanTokensAlloc_overflow hlex (u.holds_zero tokenSize) (by simpa using hover)]
  rfl

/-- Where the tokens fit, parsing is what it is without capacities. -/
theorem parseCharacterClassAlloc_eq (hsize : 12 ≤ tokenSize)
    (h : ¬ TokensOverflow u tokenSize text) :
    parseCharacterClassAlloc u tokenSize text = parseCharacterClass text := by
  by_cases hutf8 : NonAsciiUtf8 text
  · rw [parseCharacterClassAlloc, parseCharacterClass, if_pos (nonAsciiUtf8_iff.mpr hutf8),
      if_pos (nonAsciiUtf8_iff.mpr hutf8)]
  · have hfits : ∀ pre syms, pre <+: text → Lexes pre syms →
        u.holds tokenSize syms.length = true := fun _ _ => holds_of_not_overflow h hutf8
    rw [parseCharacterClassAlloc_of_not hutf8, parseCharacterClass_of_not hutf8,
      scanTokensAlloc_eq hfits]
    rcases lexes_or_scanFault text with ⟨syms, hlex⟩ | ⟨f, hscan⟩
    · have hranges : u.holds 3 (4 * syms.length) = true :=
        holds_ranges hsize (hfits text syms (List.prefix_refl _) hlex)
      have hroom : u.holds 3 (([] : List PatternRange).length + 4 * syms.length) = true := by
        simpa using hranges
      have hfound := tokensToRangesAlloc_eq syms hroom
      rw [scanTokens_of_lexes hlex, Outcome.ok_andThen, Outcome.ok_andThen, Outcome.ok_andThen,
        GrowingVec.of_elems, hfound]
      cases tokensToRanges (syms.map Sym.token) with
      | ok found => rfl
      | err e => rfl
      | panicked => rfl
    · rw [scanTokens_of_scanFault hscan]
      rfl

theorem tokensToRanges_length_le (syms : List Sym) {found : List PatternRange}
    (h : tokensToRanges (syms.map Sym.token) = .ok found) : found.length ≤ 4 * syms.length := by
  induction syms using Sym.rangeInduction generalizing found with
  | nil =>
    cases h
    exact Nat.zero_le _
  | range lo hi rest ih =>
    simp only [List.map_cons, Sym.token, tokensToRanges_range] at h
    split at h
    · cases h
    · obtain ⟨found, hfound, h⟩ := Outcome.andThen_eq_ok.mp h
      cases h
      have hrest := ih hfound
      simp only [List.length_cons]
      omega
  | clash rest => cases h
  | single s rest hwindow hclash ih =>
    rw [tokensToRanges_single hwindow hclash] at h
    obtain ⟨found, hfound, h⟩ := Outcome.andThen_eq_ok.mp h
    cases h
    have hrest := ih hfound
    have hown := s.token_ranges_length
    rw [List.length_append, List.length_cons]
    omega

/-- The ranges of a text whose tokens fit can be collected. -/
theorem fitsVec_of_parseCharacterClass (hsize : 12 ≤ tokenSize)
    (h : ¬ TokensOverflow u tokenSize text) (ranges : List PatternRange)
    (hparse : parseCharacterClass text = .ok ranges) : u.fitsVec 2 ranges.length = true := by
  obtain ⟨syms, hlex⟩ := exists_lexes hparse
  have hutf8 : ¬ NonAsciiUtf8 text := fun hutf8 => (HasFault.nonAscii hutf8).not_ok hparse
  rw [parseCharacterClass_of_not hutf8, scanTokens_of_lexes hlex, Outcome.ok_andThen] at hparse
  have hlength := tokensToRanges_length_le syms hparse
  have htokens : u.holds tokenSize syms.length = true :=
    holds_of_not_overflow h hutf8 (List.prefix_refl _) hlex
  refine Usize.fitsVec_mono ?_ (holds_ranges hsize htokens)
  calc 2 * ranges.length ≤ 3 * (4 * syms.length) := by omega
    _ ≤ 3 * grownCapacity (4 * syms.length) := Nat.mul_le_mul_left 3 (le_grownCapacity _)

/-- Text spells no more symbols than it has bytes. -/
theorem Lexes.length_le {syms : List Sym} (h : Lexes text syms) : syms.length ≤ text.length := by
  induction h with
  | nil => exact Nat.le_refl _
  | escape _ _ ih => simp only [List.length_cons]; omega
  | dash _ ih => simp only [List.length_cons]; omega
  | literal _ _ _ ih => simp only [List.length_cons]; omega

theorem not_tokensOverflow (h : u.holds tokenSize text.length = true) :
    ¬ TokensOverflow u tokenSize text := by
  rintro ⟨-, pre, syms, hpre, hlex, hover⟩
  have hle : syms.length ≤ text.length := hlex.length_le.trans hpre.length_le
  rw [Usize.holds_mono hle h] at hover
  cases hover

end Parser

/-! ## Programs -/

section Programs

variable {u : Usize} {tokenSize : Nat} {text : List UInt8}

theorem compileCharacterClassAlloc_overflow (h : TokensOverflow u tokenSize text) :
    compileCharacterClassAlloc u tokenSize text = .panicked := by
  have hne : text ≠ [] := by
    rintro rfl
    exact not_tokensOverflow (u.holds_zero tokenSize) h
  rw [compileCharacterClassAlloc, if_neg (by simpa using hne),
    parseCharacterClassAlloc_overflow h]
  rfl

theorem compileCharacterClassAlloc_eq (hsize : 12 ≤ tokenSize)
    (h : ¬ TokensOverflow u tokenSize text) :
    compileCharacterClassAlloc u tokenSize text = compileCharacterClass u text := by
  by_cases hempty : text = []
  · rw [hempty]
    rfl
  · rw [compileCharacterClassAlloc, if_neg (by simpa using hempty),
      parseCharacterClassAlloc_eq hsize h, compileCharacterClass_of_ne hempty]
    cases hparse : parseCharacterClass text with
    | ok ranges =>
      rw [Outcome.ok_andThen, Outcome.ok_andThen,
        if_pos (fitsVec_of_parseCharacterClass hsize h ranges hparse)]
    | err e => rfl
    | panicked => rfl

end Programs

/-- `compile_character_class` for every text, with the capacities of its vectors. It panics exactly
    if the text spells too many tokens for a vector, which no text does that is short enough. Else
    it reports the fault of the text, or that there are too many ranges, and otherwise its program
    decides, for every value of `R7`, whether that is a byte that the text denotes. A token may
    hold a `Vec`, so it takes at least three words of four bytes. -/
theorem compileCharacterClassAlloc_decides (u : Usize) (tokenSize : Nat) (hsize : 12 ≤ tokenSize)
    (text : List UInt8) :
    (compileCharacterClassAlloc u tokenSize text = .panicked ↔
      TokensOverflow u tokenSize text) ∧
    (u.holds tokenSize text.length = true →
      compileCharacterClassAlloc u tokenSize text ≠ .panicked) ∧
    (compileCharacterClassAlloc u tokenSize text ≠ .panicked →
      ∀ err, compileCharacterClassAlloc u tokenSize text = .err err ↔
        (∃ f, HasFault text f ∧ err = .invalidPattern f.reason) ∨
        ∃ ranges, parseCharacterClass text = .ok ranges ∧ 2046 < ranges.length ∧
          err = .patternTooLong (4 + 2 * ranges.length) MAX_BPF_INSTRUCTION_LEN) ∧
    ∀ prog syms, compileCharacterClassAlloc u tokenSize text = .ok prog → Lexes text syms →
      ∀ (mem : Memory) (regs : Regs), Exits (decodeProgram prog) mem ⟨0, regs⟩
        fun final => ClassAnswer syms (regs 7) (final 0) := by
  by_cases hover : TokensOverflow u tokenSize text
  · have hpanics := compileCharacterClassAlloc_overflow hover
    refine ⟨iff_of_true hpanics hover, fun hheld => absurd hover (not_tokensOverflow hheld),
      fun hreturns => absurd hpanics hreturns, ?_⟩
    intro prog syms hok
    rw [hpanics] at hok
    cases hok
  · have heq := compileCharacterClassAlloc_eq hsize hover
    obtain ⟨herr, hreturns, hdecides⟩ := compileCharacterClass_decides u text
      (fitsVec_of_parseCharacterClass hsize hover)
    rw [heq]
    exact ⟨iff_of_false hreturns hover, fun _ => hreturns, fun _ => herr, hdecides⟩

/-- The text `a-c\d` is asked about the digit three, where a token takes twelve bytes. -/
theorem compileCharacterClassAlloc_decides_digit :
    compileCharacterClassAlloc (.wrapping .bits32) 12 [0x61, 0x2D, 0x63, 0x5C, 0x64] ≠
        .panicked ∧
      ∃ prog, compileCharacterClassAlloc (.wrapping .bits32) 12 [0x61, 0x2D, 0x63, 0x5C, 0x64] =
          .ok prog ∧
        ∀ mem, Exits (decodeProgram prog) mem ⟨0, fun _ => 0x33⟩ fun final => final 0 = 1 := by
  have hlex : Lexes [0x61, 0x2D, 0x63, 0x5C, 0x64]
      [.literal 0x61, .dash, .literal 0x63, .cls .digit] :=
    .literal (by decide) (by decide) (.dash (.literal (by decide) (by decide)
      (.escape (by decide) .nil)))
  have hdenotes : Denotes [.literal 0x61, .dash, .literal 0x63, .cls .digit] 0x33 :=
    ⟨3, .inr (.inr (.inr ⟨.digit, rfl, by decide, by decide⟩))⟩
  obtain ⟨-, hshort, -, hdecides⟩ := compileCharacterClassAlloc_decides (.wrapping .bits32) 12
    (by decide) [0x61, 0x2D, 0x63, 0x5C, 0x64]
  refine ⟨hshort (by decide), _, rfl,
    fun mem => (hdecides _ _ rfl hlex mem fun _ => 0x33).mono ?_⟩
  rintro final (⟨-, hfound⟩ | ⟨hmissed, -⟩)
  · exact hfound
  · exact absurd ⟨0x33, rfl, hdenotes⟩ hmissed

/-- With tokens of twelve bytes a 32-bit target parses all texts of up to 2^27 bytes. -/
example : Usize.holds (.wrapping .bits32) 12 (2 ^ 27) = true ∧
    Usize.holds (.wrapping .bits32) 12 (2 ^ 27 + 1) = false := by decide

end Ebpfkit
