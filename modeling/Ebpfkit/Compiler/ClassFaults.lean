-- SUMMARY: Which reason the parser reports for which class text, and what a compiled class text decides.
import Ebpfkit.Compiler.CharClass
import Ebpfkit.Compiler.ClassGrammar

/-!
# Faults of class text

The parser reports one reason. It checks for characters outside ASCII first, then
scans all escapes, and only then looks at hyphens; of the escapes, and of the
hyphens, the first faulty one counts. The faults are stated over the grammar. With
them the outcome of `compile_character_class` is known for every text: an error,
or a program that decides the bytes that the text denotes.
-/

namespace Ebpfkit

open Bpf

/-- What can be wrong with a text. -/
inductive Fault where
  | nonAscii
  | unterminated
  | negated
  | unknownEscape
  | reversed
  | dashes
  deriving DecidableEq, Repr

def Fault.reason : Fault → String
  | .nonAscii => "character class contains non-ASCII codepoints; use raw bytes or an escape sequence"
  | .unterminated => "unterminated character-class escape"
  | .negated => "negated character-class escapes are not supported"
  | .unknownEscape => "unknown character-class escape sequence"
  | .reversed => "character class range endpoints are reversed"
  | .dashes => "character class contains consecutive unescaped dashes"

def Fault.error (f : Fault) : CompileError := .invalidPattern f.reason

/-! ## Escapes -/

/-- What follows a backslash does not make an escape. -/
inductive EscapeFault : List UInt8 → Fault → Prop where
  | unterminated : EscapeFault [] .unterminated
  | negated {e : UInt8} {rest : List UInt8} (h : e ∈ [0x44, 0x53, 0x57]) :
      EscapeFault (e :: rest) .negated
  | unknownEscape {e : UInt8} {rest : List UInt8} (h : ∀ sym, (e, sym) ∉ escapeTable)
      (hnegated : e ∉ [0x44, 0x53, 0x57]) : EscapeFault (e :: rest) .unknownEscape

/-- A byte that is not in the table makes no escape. -/
theorem decodeCharacterClassEscape_of_not_mem {e : UInt8} (h : ∀ sym, (e, sym) ∉ escapeTable) :
    decodeCharacterClassEscape (some e) =
      .err (if e ∈ [0x44, 0x53, 0x57] then Fault.negated else Fault.unknownEscape).error := by
  have hnone : ∀ entry ∈ escapeTable, e ≠ entry.1 := by
    rintro ⟨e', sym⟩ hentry rfl
    exact h sym hentry
  simp only [escapeTable, List.forall_mem_cons] at hnone
  obtain ⟨hn, hr, ht, hbackslash, hclose, hopen, hdash, hdot, hd, hs, hw, -⟩ := hnone
  have hnegated : (e = ascii 'D' ∨ e = ascii 'S' ∨ e = ascii 'W') ↔ e ∈ [0x44, 0x53, 0x57] := by
    have hD : ascii 'D' = 0x44 := by decide
    have hS : ascii 'S' = 0x53 := by decide
    have hW : ascii 'W' = 0x57 := by decide
    simp [hD, hS, hW]
  simp only [decodeCharacterClassEscape, hn, hr, ht, hbackslash, hclose, hopen, hdash, hdot, hd, hs,
    hw, if_false, hnegated]
  split <;> rfl

theorem decodeCharacterClassEscape_of_fault {rest : List UInt8} {f : Fault}
    (h : EscapeFault rest f) : decodeCharacterClassEscape rest.head? = .err f.error := by
  cases h with
  | unterminated => rfl
  | @negated e rest h =>
    have hapart : ∀ entry ∈ escapeTable, entry.1 ∉ [0x44, 0x53, 0x57] := by decide
    have hnone : ∀ sym, (e, sym) ∉ escapeTable := fun sym hsym => hapart _ hsym h
    rw [List.head?_cons, decodeCharacterClassEscape_of_not_mem hnone, if_pos h]
  | unknownEscape h hnegated =>
    rw [List.head?_cons, decodeCharacterClassEscape_of_not_mem h, if_neg hnegated]

/-- A text spells symbols up to a backslash that begins no escape. -/
def ScanFault (text : List UInt8) (f : Fault) : Prop :=
  ∃ pre syms rest, Lexes pre syms ∧ text = pre ++ 0x5C :: rest ∧ EscapeFault rest f

theorem ScanFault.cons {text pre : List UInt8} {f : Fault} {sym : Sym} (h : ScanFault text f)
    (hlex : ∀ text syms, Lexes text syms → Lexes (pre ++ text) (sym :: syms)) :
    ScanFault (pre ++ text) f := by
  obtain ⟨pre', syms, rest, hpre, rfl, hfault⟩ := h
  exact ⟨pre ++ pre', sym :: syms, rest, hlex _ _ hpre, (List.append_assoc _ _ _).symm, hfault⟩

theorem lexes_or_scanFault (text : List UInt8) :
    (∃ syms, Lexes text syms) ∨ ∃ f, ScanFault text f := by
  -- What is left after one symbol decides, and the symbol is put before it.
  have hcons : ∀ (sym : Sym) (pre text : List UInt8),
      (∀ text syms, Lexes text syms → Lexes (pre ++ text) (sym :: syms)) →
      ((∃ syms, Lexes text syms) ∨ ∃ f, ScanFault text f) →
      (∃ syms, Lexes (pre ++ text) syms) ∨ ∃ f, ScanFault (pre ++ text) f := by
    rintro sym pre text hlex (⟨syms, h⟩ | ⟨f, h⟩)
    · exact .inl ⟨sym :: syms, hlex _ _ h⟩
    · exact .inr ⟨f, h.cons hlex⟩
  induction hn : text.length using Nat.strongRecOn generalizing text with
  | ind n ih =>
    cases text with
    | nil => exact .inl ⟨[], .nil⟩
    | cons b text =>
      rw [List.length_cons] at hn
      by_cases hescape : b = 0x5C
      · subst hescape
        cases text with
        | nil => exact .inr ⟨.unterminated, [], [], [], .nil, rfl, .unterminated⟩
        | cons e text =>
          rw [List.length_cons] at hn
          by_cases hmem : ∃ sym, (e, sym) ∈ escapeTable
          · obtain ⟨sym, hsym⟩ := hmem
            exact hcons sym [0x5C, e] text (fun _ _ h => .escape hsym h) (ih _ (by omega) text rfl)
          · have hnone : ∀ sym, (e, sym) ∉ escapeTable := fun sym hsym => hmem ⟨sym, hsym⟩
            by_cases hnegated : e ∈ [0x44, 0x53, 0x57]
            · exact .inr ⟨.negated, [], [], _, .nil, rfl, .negated hnegated⟩
            · exact .inr ⟨.unknownEscape, [], [], _, .nil, rfl, .unknownEscape hnone hnegated⟩
      · have hrest := ih _ (by omega) text rfl
        by_cases hdash : b = 0x2D
        · subst hdash
          exact hcons .dash [0x2D] text (fun _ _ h => .dash h) hrest
        · exact hcons (.literal b) [b] text (fun _ _ h => .literal hescape hdash h) hrest

/-- The first backslash that begins no escape stops the scan. -/
theorem scanTokens_of_scanFault {text : List UInt8} {f : Fault} (h : ScanFault text f) :
    scanTokens text = .err f.error := by
  obtain ⟨pre, syms, rest, hlex, rfl, hfault⟩ := h
  induction hlex with
  | nil =>
    rw [List.nil_append, scanTokens, if_pos (by decide), decodeCharacterClassEscape_of_fault hfault]
    rfl
  | escape hmem _ ih =>
    rw [List.cons_append, List.cons_append, scanTokens_escape,
      decodeCharacterClassEscape_of_mem hmem, Outcome.ok_andThen, ih]
    rfl
  | dash _ ih =>
    rw [List.cons_append, scanTokens_dash, ih]
    rfl
  | literal hescape hdash _ ih =>
    rw [List.cons_append, scanTokens_literal hescape hdash, ih]
    rfl

/-! ## Hyphens -/

/-- A range with its ends reversed starts at `i`, or two hyphens follow one another. -/
inductive RangeFault (syms : List Sym) (i : Nat) : Fault → Prop where
  | reversed {lo hi : UInt8} (hop : IsRangeOp syms (i + 1)) (hlo : syms[i]? = some (.literal lo))
      (hhi : syms[i + 2]? = some (.literal hi)) (hlt : hi < lo) : RangeFault syms i .reversed
  | dashes (hfirst : syms[i]? = some .dash) (hsecond : syms[i + 1]? = some .dash) :
      RangeFault syms i .dashes

/-- The leftmost fault. -/
def FirstRangeFault (syms : List Sym) (f : Fault) : Prop :=
  ∃ i, RangeFault syms i f ∧ ∀ j < i, ∀ f', ¬ RangeFault syms j f'

section Hyphens

variable {s : Sym} {rest : List Sym} {lo hi : UInt8} {f : Fault}

theorem rangeFault_cons (hwindow : ¬ RangeWindow (s :: rest) 0) (i : Nat) :
    RangeFault (s :: rest) (i + 1) f ↔ RangeFault rest i f := by
  constructor
  · rintro (⟨hop, hlo, hhi, hlt⟩ | ⟨hfirst, hsecond⟩)
    · exact .reversed ((isRangeOp_cons hwindow _).mp hop) hlo hhi hlt
    · exact .dashes hfirst hsecond
  · rintro (⟨hop, hlo, hhi, hlt⟩ | ⟨hfirst, hsecond⟩)
    · exact .reversed ((isRangeOp_cons hwindow _).mpr hop) hlo hhi hlt
    · exact .dashes hfirst hsecond

theorem rangeFault_range (i : Nat) :
    RangeFault (.literal lo :: .dash :: .literal hi :: rest) (i + 3) f ↔ RangeFault rest i f := by
  constructor
  · rintro (⟨hop, hlo, hhi, hlt⟩ | ⟨hfirst, hsecond⟩)
    · exact .reversed ((isRangeOp_range _).mp hop) hlo hhi hlt
    · exact .dashes hfirst hsecond
  · rintro (⟨hop, hlo, hhi, hlt⟩ | ⟨hfirst, hsecond⟩)
    · exact .reversed ((isRangeOp_range _).mpr hop) hlo hhi hlt
    · exact .dashes hfirst hsecond

/-- Symbols without a fault can be left out. -/
theorem firstRangeFault_shift {syms : List Sym} {k : Nat}
    (hnone : ∀ j < k, ∀ f, ¬ RangeFault syms j f)
    (hshift : ∀ i f, RangeFault syms (i + k) f ↔ RangeFault rest i f) :
    FirstRangeFault syms f ↔ FirstRangeFault rest f := by
  constructor
  · rintro ⟨i, hfault, hfirst⟩
    have hle : k ≤ i := Nat.not_lt.mp fun hlt => hnone i hlt f hfault
    obtain ⟨i, rfl⟩ := Nat.exists_eq_add_of_le' hle
    refine ⟨i, (hshift i f).mp hfault, ?_⟩
    intro j hj f' hfault'
    exact hfirst (j + k) (by omega) f' ((hshift j f').mpr hfault')
  · rintro ⟨i, hfault, hfirst⟩
    refine ⟨i + k, (hshift i f).mpr hfault, ?_⟩
    intro j hj f' hfault'
    by_cases hlt : j < k
    · exact hnone j hlt f' hfault'
    · obtain ⟨j, rfl⟩ := Nat.exists_eq_add_of_le' (Nat.not_lt.mp hlt)
      exact hfirst j (by omega) f' ((hshift j f').mp hfault')

/-- A fault of the first symbol is the first fault, and the only one. -/
theorem firstRangeFault_of_zero {syms : List Sym} {f' : Fault} (h : RangeFault syms 0 f) :
    FirstRangeFault syms f' ↔ f' = f := by
  constructor
  · rintro ⟨i, hfault, hfirst⟩
    obtain rfl : i = 0 := Nat.eq_zero_of_not_pos fun hpos => hfirst 0 hpos f h
    cases h with
    | reversed hop hlo hhi hlt =>
      cases hfault with
      | reversed => rfl
      | dashes hdash => simp [hlo] at hdash
    | dashes hdash hsecond =>
      cases hfault with
      | reversed hop hlo => simp [hdash] at hlo
      | dashes => rfl
  · rintro rfl
    exact ⟨0, h, fun j hj => absurd hj (Nat.not_lt_zero j)⟩

/-- The recogniser reports the leftmost fault. -/
theorem tokensToRanges_eq_err (syms : List Sym) (err : CompileError) :
    tokensToRanges (syms.map Sym.token) = .err err ↔
      ∃ f, FirstRangeFault syms f ∧ err = f.error := by
  induction syms using Sym.rangeInduction with
  | nil =>
    constructor
    · intro h
      cases h
    · rintro ⟨f, ⟨i, hfault, -⟩, -⟩
      cases hfault with
      | reversed hop hlo => simp at hlo
      | dashes hfirst => simp at hfirst
  | range lo hi rest ih =>
    simp only [List.map_cons, Sym.token, tokensToRanges_range]
    split
    · next hgt =>
      have hfault : RangeFault (.literal lo :: .dash :: .literal hi :: rest) 0 .reversed :=
        .reversed isRangeOp_range_one rfl rfl hgt
      simp only [firstRangeFault_of_zero hfault, exists_eq_left, invalidPattern, Outcome.err.injEq]
      exact eq_comm
    · next hle =>
      -- None of the three symbols of the range is at fault.
      have hnone : ∀ j < 3, ∀ f,
          ¬ RangeFault (.literal lo :: .dash :: .literal hi :: rest) j f := by
        intro j hj f hfault
        have hj : j = 0 ∨ j = 1 ∨ j = 2 := by omega
        cases hfault with
        | reversed hop hlo hhi hlt =>
          rcases hj with rfl | rfl | rfl
          · simp only [List.getElem?_cons_zero, List.getElem?_cons_succ, Option.some.injEq,
              Sym.literal.injEq] at hlo hhi
            rw [hlo, hhi] at hle
            exact hle hlt
          · simp at hlo
          · exact (isRangeOp_range 0).mp hop
        | dashes hfirst hsecond =>
          rcases hj with rfl | rfl | rfl
          · simp at hfirst
          · simp at hsecond
          · simp at hfirst
      simp only [Outcome.andThen_ok_eq_err, ih, firstRangeFault_shift hnone fun i f => rangeFault_range i]
  | clash rest =>
    have hfault : RangeFault (.dash :: .dash :: rest) 0 .dashes := .dashes rfl rfl
    simp only [List.map_cons, Sym.token, tokensToRanges, firstRangeFault_of_zero hfault,
      exists_eq_left, invalidPattern, Outcome.err.injEq]
    exact eq_comm
  | single s rest hwindow hclash ih =>
    have hnone : ∀ j < 1, ∀ f, ¬ RangeFault (s :: rest) j f := by
      intro j hj f hfault
      obtain rfl : j = 0 := Nat.lt_one_iff.mp hj
      cases hfault with
      | reversed hop => exact hwindow hop
      | dashes hfirst hsecond => exact hclash ⟨by simpa using hfirst, hsecond⟩
    rw [tokensToRanges_single hwindow hclash, Outcome.andThen_ok_eq_err, ih]
    simp only [firstRangeFault_shift hnone fun i f => rangeFault_cons hwindow i]

end Hyphens

/-! ## Texts -/

/-- What is reported of a text. Text outside ASCII comes first, and hyphens come
    last. -/
inductive HasFault (text : List UInt8) : Fault → Prop where
  | nonAscii (h : NonAsciiUtf8 text) : HasFault text .nonAscii
  | scan {f : Fault} (hascii : ¬ NonAsciiUtf8 text) (h : ScanFault text f) : HasFault text f
  | range {f : Fault} {syms : List Sym} (hascii : ¬ NonAsciiUtf8 text) (hlex : Lexes text syms)
      (h : FirstRangeFault syms f) : HasFault text f

theorem parseCharacterClass_eq_err (text : List UInt8) (err : CompileError) :
    parseCharacterClass text = .err err ↔ ∃ f, HasFault text f ∧ err = f.error := by
  by_cases hutf8 : NonAsciiUtf8 text
  · rw [parseCharacterClass, if_pos (nonAsciiUtf8_iff.mpr hutf8), invalidPattern, Outcome.err.injEq]
    constructor
    · rintro rfl
      exact ⟨.nonAscii, .nonAscii hutf8, rfl⟩
    · rintro ⟨f, hfault, rfl⟩
      cases hfault with
      | nonAscii => rfl
      | scan hascii => exact absurd hutf8 hascii
      | range hascii => exact absurd hutf8 hascii
  · rw [parseCharacterClass_of_not hutf8]
    rcases lexes_or_scanFault text with ⟨syms, hlex⟩ | ⟨f, hscan⟩
    · rw [scanTokens_of_lexes hlex, Outcome.ok_andThen, tokensToRanges_eq_err]
      constructor
      · rintro ⟨f, hfault, rfl⟩
        exact ⟨f, .range hutf8 hlex hfault, rfl⟩
      · rintro ⟨f, hfault, rfl⟩
        cases hfault with
        | nonAscii h => exact absurd h hutf8
        | scan _ h =>
          have hok := scanTokens_of_lexes hlex
          rw [scanTokens_of_scanFault h] at hok
          cases hok
        | range _ hlex' h => exact ⟨f, hlex.unique hlex' ▸ h, rfl⟩
    · rw [scanTokens_of_scanFault hscan, Outcome.err_andThen, Outcome.err.injEq]
      constructor
      · rintro rfl
        exact ⟨f, .scan hutf8 hscan, rfl⟩
      · rintro ⟨f', hfault, rfl⟩
        cases hfault with
        | nonAscii h => exact absurd h hutf8
        | scan _ h =>
          have herr := scanTokens_of_scanFault h
          rw [scanTokens_of_scanFault hscan, Outcome.err.injEq] at herr
          exact herr
        | range _ hlex =>
          have hok := scanTokens_of_lexes hlex
          rw [scanTokens_of_scanFault hscan] at hok
          cases hok

theorem Fault.error_injective {f f' : Fault} (h : f.error = f'.error) : f = f' := by
  cases f <;> cases f' <;> first | rfl | exact absurd h (by decide)

theorem tokensToRanges_ne_panicked (syms : List Sym) :
    tokensToRanges (syms.map Sym.token) ≠ .panicked := by
  induction syms using Sym.rangeInduction with
  | nil => simp [tokensToRanges]
  | range lo hi rest ih =>
    simp only [List.map_cons, Sym.token, tokensToRanges_range]
    split
    · simp [invalidPattern]
    · exact Outcome.andThen_ne_panicked ih (by simp)
  | clash rest => simp [Sym.token, tokensToRanges, invalidPattern]
  | single s rest hwindow hclash ih =>
    rw [tokensToRanges_single hwindow hclash]
    exact Outcome.andThen_ne_panicked ih (by simp)

theorem parseCharacterClass_ne_panicked (text : List UInt8) :
    parseCharacterClass text ≠ .panicked := by
  by_cases hutf8 : NonAsciiUtf8 text
  · simp [parseCharacterClass, nonAsciiUtf8_iff.mpr hutf8, invalidPattern]
  · rw [parseCharacterClass_of_not hutf8]
    rcases lexes_or_scanFault text with ⟨syms, hlex⟩ | ⟨f, hscan⟩
    · rw [scanTokens_of_lexes hlex]
      exact tokensToRanges_ne_panicked syms
    · rw [scanTokens_of_scanFault hscan]
      simp

/-- Every text is parsed and has no fault, or has exactly one fault, and that fault is reported. -/
theorem parseCharacterClass_reports (text : List UInt8) :
    ((∃ ranges, parseCharacterClass text = .ok ranges) ∧ ∀ f, ¬ HasFault text f) ∨
      ∃ f, parseCharacterClass text = .err (.invalidPattern f.reason) ∧
        ∀ f', HasFault text f' ↔ f' = f := by
  have herr := parseCharacterClass_eq_err text
  cases hresult : parseCharacterClass text with
  | ok ranges =>
    refine .inl ⟨⟨ranges, rfl⟩, fun f hfault => ?_⟩
    have := (herr f.error).mpr ⟨f, hfault, rfl⟩
    rw [hresult] at this
    cases this
  | err err =>
    obtain ⟨f, hfault, rfl⟩ := (herr err).mp hresult
    refine .inr ⟨f, rfl, fun f' => ⟨fun hfault' => ?_, fun heq => heq ▸ hfault⟩⟩
    have := (herr f'.error).mpr ⟨f', hfault', rfl⟩
    rw [hresult, Outcome.err.injEq] at this
    exact (Fault.error_injective this).symm
  | panicked => exact absurd hresult (parseCharacterClass_ne_panicked text)

/-! ## Programs -/

/-- The ranges of a text without fault are well-formed, and cover what the text denotes. -/
theorem parseCharacterClass_ok {text : List UInt8} {syms : List Sym} {ranges : List PatternRange}
    (h : parseCharacterClass text = .ok ranges) (hlex : Lexes text syms) (hne : text ≠ []) :
    WellFormedRanges (ranges.map PatternRange.toCharRange) ∧
      ∀ v, (∃ r ∈ ranges, r.Has v) ↔ Denotes syms v := by
  have hutf8 : ¬ NonAsciiUtf8 text := by
    intro hutf8
    have herr := (parseCharacterClass_eq_err text _).mpr ⟨.nonAscii, .nonAscii hutf8, rfl⟩
    rw [h] at herr
    cases herr
  rw [parseCharacterClass_of_not hutf8, scanTokens_of_lexes hlex, Outcome.ok_andThen] at h
  obtain ⟨hdenotes, hordered, hnonempty⟩ := tokensToRanges_denotes syms ranges h
  refine ⟨⟨?_, ?_⟩, hdenotes⟩
  · have hsyms : syms ≠ [] := by
      rintro rfl
      cases hlex
      exact hne rfl
    simpa using hnonempty hsyms
  · intro r hr
    obtain ⟨r', hr', rfl⟩ := List.mem_map.mp hr
    exact hordered r' hr'

/-- A register holds a byte of the ranges. -/
theorem exists_covers_iff (ranges : List PatternRange) (w : Word) :
    (∃ r ∈ ranges.map PatternRange.toCharRange, r.covers w) ↔
      ∃ v : UInt8, w.toNat = v.toNat ∧ ∃ r ∈ ranges, r.Has v := by
  constructor
  · rintro ⟨r, hr, hlo, hhi⟩
    obtain ⟨r', hr', rfl⟩ := List.mem_map.mp hr
    have hlt : w.toNat < 2 ^ 8 := Nat.lt_of_le_of_lt hhi (UInt8.toNat_lt _)
    have hbyte : (UInt8.ofNat w.toNat).toNat = w.toNat := UInt8.toNat_ofNat_of_lt' hlt
    refine ⟨UInt8.ofNat w.toNat, hbyte.symm, r', hr', ?_, ?_⟩
    · rw [UInt8.le_iff_toNat_le, hbyte]
      exact hlo
    · rw [UInt8.le_iff_toNat_le, hbyte]
      exact hhi
  · rintro ⟨v, hv, r, hr, hlo, hhi⟩
    refine ⟨r.toCharRange, List.mem_map_of_mem hr, ?_, ?_⟩
    · rw [hv]
      exact UInt8.le_iff_toNat_le.mp hlo
    · rw [hv]
      exact UInt8.le_iff_toNat_le.mp hhi

/-- A register holds a byte that the symbols denote. -/
def HoldsByteOf (syms : List Sym) (w : Word) : Prop :=
  ∃ v : UInt8, w.toNat = v.toNat ∧ Denotes syms v

/-- What a program for class text has to answer in `R0`. -/
def ClassAnswer (syms : List Sym) (w answer : Word) : Prop :=
  (HoldsByteOf syms w ∧ answer = 1) ∨ (¬ HoldsByteOf syms w ∧ answer = 0)

theorem exits_emptyClass (mem : Memory) (regs : Regs) :
    Exits (decodeProgram [alu64Imm BPF_MOV R0 0, exit]) mem ⟨0, regs⟩
      fun final => ClassAnswer [] (regs 7) (final 0) := by
  have hcode : CodeAt (decodeProgram [alu64Imm BPF_MOV R0 0, exit]) 0 [.mov 0 (.imm 0), .exit] :=
    CodeAt.refl _
  exact .ret hcode (.inr ⟨by simp [HoldsByteOf, Denotes, DenotesAt], rfl⟩)

theorem exits_classOfText {text : List UInt8} {syms : List Sym} {ranges : List PatternRange}
    (h : parseCharacterClass text = .ok ranges) (hlex : Lexes text syms) (hne : text ≠ [])
    (hle : ranges.length ≤ 2046) (mem : Memory) (regs : Regs) :
    Exits (decodeProgram (classProgram (ranges.map PatternRange.toCharRange))) mem ⟨0, regs⟩
      fun final => ClassAnswer syms (regs 7) (final 0) := by
  have hdenotes := (parseCharacterClass_ok h hlex hne).2
  have hlimit : 2 * (ranges.map PatternRange.toCharRange).length + 4 ≤ MAX_BPF_INSTRUCTION_LEN := by
    rw [List.length_map]
    unfold MAX_BPF_INSTRUCTION_LEN
    omega
  have hcovers : (∃ r ∈ ranges.map PatternRange.toCharRange, r.covers (regs 7)) ↔
      HoldsByteOf syms (regs 7) := by
    simp only [exists_covers_iff, hdenotes, HoldsByteOf]
  refine (exits_classProgram hlimit mem regs).mono fun final hfinal => ?_
  by_cases hin : ∃ r ∈ ranges.map PatternRange.toCharRange, r.covers (regs 7)
  · exact .inl ⟨hcovers.mp hin, hfinal.trans (if_pos hin)⟩
  · exact .inr ⟨mt hcovers.mpr hin, hfinal.trans (if_neg hin)⟩

/-- Text that is parsed has its ranges compiled. -/
theorem compileCharacterClass_of_ne {u : Usize} {text : List UInt8} (hne : text ≠ []) :
    compileCharacterClass u text = (parseCharacterClass text).andThen fun ranges =>
      compileCharClass u (ranges.map PatternRange.toCharRange) := by
  rw [compileCharacterClass, if_neg (by simpa using hne)]

/-- A fault excludes that the text is parsed. -/
theorem HasFault.not_ok {text : List UInt8} {f : Fault} {ranges : List PatternRange}
    (h : HasFault text f) : parseCharacterClass text ≠ .ok ranges := by
  rw [(parseCharacterClass_eq_err text f.error).mpr ⟨f, h, rfl⟩]
  simp

/-- Text that is parsed spells symbols. -/
theorem exists_lexes {text : List UInt8} {ranges : List PatternRange}
    (h : parseCharacterClass text = .ok ranges) : ∃ syms, Lexes text syms := by
  rcases lexes_or_scanFault text with hlex | ⟨f, hscan⟩
  · exact hlex
  · by_cases hutf8 : NonAsciiUtf8 text
    · exact absurd h (HasFault.nonAscii hutf8).not_ok
    · exact absurd h (HasFault.scan hutf8 hscan).not_ok

/-- `compile_character_class` without the capacities of the vectors the parser fills: it reports the
    fault of the text, or else that there are too many ranges, and otherwise its program decides,
    for every value of `R7`, whether that is a byte that the text denotes. -/
theorem compileCharacterClass_decides (u : Usize) (text : List UInt8)
    (hvec : ∀ ranges, parseCharacterClass text = .ok ranges → u.fitsVec 2 ranges.length = true) :
    (∀ err, compileCharacterClass u text = .err err ↔
      (∃ f, HasFault text f ∧ err = .invalidPattern f.reason) ∨
      ∃ ranges, parseCharacterClass text = .ok ranges ∧ 2046 < ranges.length ∧
        err = .patternTooLong (4 + 2 * ranges.length) MAX_BPF_INSTRUCTION_LEN) ∧
    compileCharacterClass u text ≠ .panicked ∧
    ∀ prog syms, compileCharacterClass u text = .ok prog → Lexes text syms →
      ∀ (mem : Memory) (regs : Regs), Exits (decodeProgram prog) mem ⟨0, regs⟩
        fun final => ClassAnswer syms (regs 7) (final 0) := by
  have herr := parseCharacterClass_eq_err text
  by_cases hempty : text = []
  · subst hempty
    have hparse : parseCharacterClass [] = .ok [] := rfl
    have hcompile : compileCharacterClass u [] = .ok [alu64Imm BPF_MOV R0 0, exit] := rfl
    have hnone : ∀ f, ¬ HasFault [] f := fun f hfault => hfault.not_ok hparse
    refine ⟨by simp [hcompile, hparse, hnone], by simp [hcompile], ?_⟩
    intro prog syms hok hlex mem regs
    rw [hcompile, Outcome.ok.injEq] at hok
    rw [← hok, hlex.unique .nil]
    exact exits_emptyClass mem regs
  · rw [compileCharacterClass_of_ne hempty]
    cases hparse : parseCharacterClass text with
    | panicked => exact absurd hparse (parseCharacterClass_ne_panicked text)
    | err e =>
      refine ⟨fun err => ?_, by simp, by simp⟩
      have hiff := herr err
      rw [hparse, Outcome.err.injEq] at hiff
      simp only [Outcome.err_andThen, Outcome.err.injEq, reduceCtorEq, false_and, exists_false,
        or_false]
      exact hiff
    | ok ranges =>
      have hnone : ∀ f, ¬ HasFault text f := fun f hfault => hfault.not_ok hparse
      obtain ⟨syms, hlex⟩ := exists_lexes hparse
      have hwf := (parseCharacterClass_ok hparse hlex hempty).1
      rw [Outcome.ok_andThen]
      by_cases hlong : 2046 < ranges.length
      · have hcompile := compileCharClass_tooLong (u := u) hwf (by simpa using hvec ranges hparse)
          (by simpa using hlong)
        rw [List.length_map] at hcompile
        simp only [hcompile, hnone, Outcome.err.injEq, Outcome.ok.injEq, false_and, exists_false,
          false_or, exists_eq_left', hlong, true_and, reduceCtorEq]
        exact ⟨fun err => eq_comm, by simp, by simp⟩
      · have hle : ranges.length ≤ 2046 := Nat.not_lt.mp hlong
        have hcompile := compileCharClass_of_le (u := u) hwf (by simpa using hle)
        rw [hcompile]
        refine ⟨by simp [hnone, hle], by simp, ?_⟩
        intro prog syms' hok hlex' mem regs
        rw [Outcome.ok.injEq] at hok
        rw [← hok]
        exact exits_classOfText hparse hlex' hempty hle mem regs

end Ebpfkit
