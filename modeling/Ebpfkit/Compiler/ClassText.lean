-- SUMMARY: Ranges written as class text compile to the same result as the ranges themselves.
import Ebpfkit.Compiler.ClassGrammar
import Ebpfkit.Compiler.Codegen
import Ebpfkit.Utf8

/-!
# Printing ranges as class text

Every list of ranges has a spelling as class text, with its endpoints escaped
where they would be read as operators. The parser returns the same ranges. The
one obstacle is the rejection of text outside ASCII: it cannot fire, because the
upper end of the last range outside ASCII follows a hyphen and is followed by
ASCII, which no UTF-8 text allows.
-/

namespace Ebpfkit

/-- An endpoint, with a backslash before a backslash or a hyphen. -/
def encodeEndpoint (b : UInt8) : List UInt8 :=
  if b = 0x5C ∨ b = 0x2D then [0x5C, b] else [b]

def printRange (r : CharRange) : List UInt8 :=
  encodeEndpoint r.lo ++ 0x2D :: encodeEndpoint r.hi

def printRanges (rs : List CharRange) : List UInt8 := rs.flatMap printRange

/-- The symbols that ranges are printed as. -/
def rangeSyms (rs : List CharRange) : List Sym :=
  rs.flatMap fun r => [.literal r.lo, .dash, .literal r.hi]

/-! ## Reading back -/

theorem lexes_encodeEndpoint (b : UInt8) {text : List UInt8} {syms : List Sym}
    (h : Lexes text syms) : Lexes (encodeEndpoint b ++ text) (.literal b :: syms) := by
  unfold encodeEndpoint
  split
  · next hescaped =>
    rcases hescaped with rfl | rfl
    · exact .escape (by decide) h
    · exact .escape (by decide) h
  · next hplain =>
    rw [not_or] at hplain
    exact .literal hplain.1 hplain.2 h

theorem lexes_printRanges (rs : List CharRange) : Lexes (printRanges rs) (rangeSyms rs) := by
  induction rs with
  | nil => exact .nil
  | cons r rs ih =>
    simp only [printRanges, rangeSyms, List.flatMap_cons, printRange, List.append_assoc,
      List.cons_append, List.nil_append]
    exact lexes_encodeEndpoint r.lo (.dash (lexes_encodeEndpoint r.hi ih))

theorem tokensToRanges_rangeSyms {rs : List CharRange} (hle : ∀ r ∈ rs, r.lo ≤ r.hi) :
    tokensToRanges ((rangeSyms rs).map Sym.token) =
      .ok (rs.map fun r => .span r.lo r.hi) := by
  induction rs with
  | nil => rfl
  | cons r rs ih =>
    have hr : ¬ r.lo > r.hi := UInt8.not_lt.mpr (hle r List.mem_cons_self)
    have hrest := ih fun r' hr' => hle r' (List.mem_cons_of_mem r hr')
    simp only [rangeSyms, List.flatMap_cons, List.cons_append, List.nil_append, List.map_cons,
      Sym.token, tokensToRanges_range, if_neg hr] at hrest ⊢
    rw [hrest]
    rfl

/-! ## Text outside ASCII -/

theorem high_mem_encodeEndpoint {b c : UInt8} (h : c ∈ encodeEndpoint b) (hc : 0x80 ≤ c) :
    c = b := by
  have hbackslash : ¬ (0x80 : UInt8) ≤ 0x5C := by decide
  unfold encodeEndpoint at h
  split at h
  · simp only [List.mem_cons, List.not_mem_nil, or_false] at h
    rcases h with rfl | rfl
    · exact absurd hc hbackslash
    · rfl
  · exact List.mem_singleton.mp h

theorem encodeEndpoint_of_high {b : UInt8} (h : 0x80 ≤ b) : encodeEndpoint b = [b] := by
  unfold encodeEndpoint
  rw [if_neg]
  rintro (rfl | rfl)
  · exact absurd h (by decide)
  · exact absurd h (by decide)

/-- A printed range outside ASCII has its upper end there. -/
theorem high_mem_printRange {r : CharRange} {b : UInt8} (hle : r.lo ≤ r.hi)
    (hmem : b ∈ printRange r) (hb : 0x80 ≤ b) : 0x80 ≤ r.hi := by
  rcases List.mem_append.mp hmem with hlo | hrest
  · rw [high_mem_encodeEndpoint hlo hb] at hb
    exact UInt8.le_trans hb hle
  · rcases List.mem_cons.mp hrest with rfl | hhi
    · exact absurd hb (by decide)
    · rw [high_mem_encodeEndpoint hhi hb] at hb
      exact hb

/-- The last range that reaches outside ASCII leaves its upper end alone between a
    hyphen and an ASCII byte. -/
theorem exists_lone_end {rs : List CharRange} (hle : ∀ r ∈ rs, r.lo ≤ r.hi)
    (hhigh : ∃ b ∈ printRanges rs, 0x80 ≤ b) :
    ∃ pre b post, printRanges rs = pre ++ 0x2D :: b :: post ∧ 0x80 ≤ b ∧
      ∀ c, post.head? = some c → c < 0x80 := by
  induction rs with
  | nil => simp [printRanges] at hhigh
  | cons r rs ih =>
    have hprint : printRanges (r :: rs) = printRange r ++ printRanges rs := rfl
    by_cases hlater : ∃ b ∈ printRanges rs, 0x80 ≤ b
    · have hrest : ∀ r' ∈ rs, r'.lo ≤ r'.hi := fun r' hr' => hle r' (List.mem_cons_of_mem r hr')
      obtain ⟨pre, b, post, heq, hb, hpost⟩ := ih hrest hlater
      refine ⟨printRange r ++ pre, b, post, ?_, hb, hpost⟩
      rw [hprint, heq, List.append_assoc]
    · obtain ⟨b, hmem, hb⟩ := hhigh
      rw [hprint] at hmem
      have hhi : 0x80 ≤ r.hi := by
        rcases List.mem_append.mp hmem with hfirst | hlast
        · exact high_mem_printRange (hle r List.mem_cons_self) hfirst hb
        · exact absurd ⟨b, hlast, hb⟩ hlater
      refine ⟨encodeEndpoint r.lo, r.hi, printRanges rs, ?_, hhi, ?_⟩
      · rw [hprint, printRange, encodeEndpoint_of_high hhi, List.append_assoc]
        rfl
      · intro c hc
        by_contra hnot
        exact hlater ⟨c, List.mem_of_mem_head? hc, UInt8.not_lt.mp hnot⟩

theorem not_nonAsciiUtf8_printRanges {rs : List CharRange} (hle : ∀ r ∈ rs, r.lo ≤ r.hi) :
    ¬ NonAsciiUtf8 (printRanges rs) := by
  rintro ⟨hvalid, hhigh⟩
  obtain ⟨pre, b, post, heq, hb, hpost⟩ := exists_lone_end hle hhigh
  refine Utf8.not_isolated hvalid ⟨pre ++ [0x2D], b, post, ?_, hb, ?_, hpost⟩
  · rw [heq, List.append_assoc]
    rfl
  · intro c hc
    rw [List.getLast?_append, List.getLast?_singleton, Option.some_or, Option.some.injEq] at hc
    rw [← hc]
    decide

/-! ## Compiling -/

theorem parseCharacterClass_printRanges {rs : List CharRange} (hle : ∀ r ∈ rs, r.lo ≤ r.hi) :
    parseCharacterClass (printRanges rs) = .ok (rs.map fun r => .span r.lo r.hi) := by
  rw [parseCharacterClass_of_not (not_nonAsciiUtf8_printRanges hle),
    scanTokens_of_lexes (lexes_printRanges rs), Outcome.ok_andThen, tokensToRanges_rangeSyms hle]

theorem printRange_ne_nil (r : CharRange) : printRange r ≠ [] := by
  simp [printRange]

/-- Compiling the text of ranges is compiling the ranges. The parser accepts the
    text and returns the ranges it was printed from. -/
theorem compileCharacterClass_printRanges (u : Usize) (rs : List CharRange) (hne : rs ≠ [])
    (hle : ∀ r ∈ rs, r.lo ≤ r.hi) :
    compileCharacterClass u (printRanges rs) = compileCharClass u rs ∧
    parseCharacterClass (printRanges rs) = .ok (rs.map fun r => .span r.lo r.hi) := by
  have htext : printRanges rs ≠ [] := by
    cases rs with
    | nil => exact absurd rfl hne
    | cons r rs =>
      intro hnil
      exact printRange_ne_nil r (List.append_eq_nil_iff.mp hnil).1
  have hback : (rs.map fun r => PatternRange.span r.lo r.hi).map PatternRange.toCharRange = rs := by
    rw [List.map_map]
    exact List.map_id rs
  have hparse := parseCharacterClass_printRanges hle
  refine ⟨?_, hparse⟩
  rw [compileCharacterClass, if_neg (by simpa using htext), hparse, Outcome.ok_andThen, hback]

/-- Two ranges whose adjacent ends spell a two-byte character. -/
theorem compileCharacterClass_printRanges_latin :
    compileCharacterClass (.wrapping .bits64) (printRanges [⟨0x2D, 0xC3⟩, ⟨0xA9, 0xFF⟩]) =
      compileCharClass (.wrapping .bits64) [⟨0x2D, 0xC3⟩, ⟨0xA9, 0xFF⟩] :=
  (compileCharacterClass_printRanges (.wrapping .bits64) [⟨0x2D, 0xC3⟩, ⟨0xA9, 0xFF⟩] (by decide)
    (by decide)).1

end Ebpfkit
