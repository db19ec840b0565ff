-- SUMMARY: When two class texts, written one after the other, stand for the ranges of both.
import Ebpfkit.Compiler.ClassFaults

/-!
# Joining class texts

A hyphen takes its meaning from its neighbours, so text can change its meaning
when more text follows. `JoinsCleanly` says of two symbol sequences that nothing
happens where they meet. That is exactly when the parser returns the ranges of
the first followed by those of the second.
-/

namespace Ebpfkit

/-- No two hyphens meet, and no range operator has endpoints on both sides. -/
structure JoinsCleanly (left right : List Sym) : Prop where
  hyphens : ¬ (left.getLast? = some .dash ∧ right.head? = some .dash)
  operators : ∀ i, IsRangeOp (left ++ right) (i + 1) → i + 2 < left.length ∨ left.length ≤ i

section Join

variable {s : Sym} {rest right : List Sym} {lo hi : UInt8}

theorem joinsCleanly_nil : JoinsCleanly [] right :=
  ⟨by simp, fun i _ => .inr (Nat.zero_le i)⟩

theorem joinsCleanly_range :
    JoinsCleanly (.literal lo :: .dash :: .literal hi :: rest) right ↔ JoinsCleanly rest right := by
  have hlast : (Sym.literal lo :: .dash :: .literal hi :: rest).getLast? = some .dash ↔
      rest.getLast? = some .dash := by
    cases rest with
    | nil => simp
    | cons s rest => simp only [List.getLast?_cons_cons]
  constructor
  · rintro ⟨hhyphens, hoperators⟩
    rw [hlast] at hhyphens
    refine ⟨hhyphens, fun i hop => ?_⟩
    have := hoperators (i + 3) ((isRangeOp_range (i + 1)).mpr hop)
    simp only [List.length_cons] at this
    omega
  · rintro ⟨hhyphens, hoperators⟩
    rw [← hlast] at hhyphens
    refine ⟨hhyphens, ?_⟩
    rintro (_ | _ | _ | i) hop
    · simp
    · exact absurd hop not_isRangeOp_range_two
    · exact absurd ((isRangeOp_range 0).mp hop) id
    · have := hoperators i ((isRangeOp_range (i + 1)).mp hop)
      simp only [List.length_cons]
      omega

theorem joinsCleanly_cons (hwindow : ¬ RangeWindow (s :: (rest ++ right)) 0)
    (hclash : ¬ (s = .dash ∧ (rest ++ right)[0]? = some .dash)) :
    JoinsCleanly (s :: rest) right ↔ JoinsCleanly rest right := by
  constructor
  · rintro ⟨hhyphens, hoperators⟩
    refine ⟨?_, fun i hop => ?_⟩
    · rintro ⟨hlast, hfirst⟩
      cases rest with
      | nil => simp at hlast
      | cons t rest => exact hhyphens ⟨by rwa [List.getLast?_cons_cons], hfirst⟩
    · have := hoperators (i + 1) ((isRangeOp_cons hwindow (i + 1)).mpr hop)
      simp only [List.length_cons] at this
      omega
  · rintro ⟨hhyphens, hoperators⟩
    refine ⟨?_, ?_⟩
    · rintro ⟨hlast, hfirst⟩
      cases rest with
      | nil =>
        rw [List.getLast?_singleton, Option.some.injEq] at hlast
        exact hclash ⟨hlast, by rwa [List.nil_append, ← List.head?_eq_getElem?]⟩
      | cons t rest => exact hhyphens ⟨by rwa [List.getLast?_cons_cons] at hlast, hfirst⟩
    · rintro (_ | i) hop
      · exact absurd hop hwindow
      · have := hoperators i ((isRangeOp_cons hwindow (i + 1)).mp hop)
        simp only [List.length_cons]
        omega

/-- A range that starts in the first sequence ends there. -/
theorem JoinsCleanly.window (h : JoinsCleanly (s :: rest) right)
    (hwindow : RangeWindow (s :: (rest ++ right)) 0) : RangeWindow (s :: rest) 0 := by
  have hinside : 2 < (s :: rest).length := by
    have := h.operators 0 hwindow
    simp only [List.length_cons] at this ⊢
    omega
  obtain ⟨lo, hi, hlo, hdash, hhi⟩ := hwindow
  rw [← List.cons_append, List.getElem?_append_left (by omega)] at hlo hdash hhi
  exact ⟨lo, hi, hlo, hdash, hhi⟩

/-- Two hyphens that meet. -/
theorem JoinsCleanly.clash (h : JoinsCleanly (s :: rest) right)
    (hclash : s = .dash ∧ (rest ++ right)[0]? = some .dash) :
    s = .dash ∧ rest[0]? = some .dash := by
  obtain ⟨rfl, hnext⟩ := hclash
  cases rest with
  | nil =>
    rw [List.nil_append, ← List.head?_eq_getElem?] at hnext
    exact absurd ⟨rfl, hnext⟩ h.hyphens
  | cons t rest => exact ⟨rfl, hnext⟩

end Join

/-- A range does not start with a single byte. -/
theorem tokensToRanges_window {s : Sym} {syms : List Sym} {ranges : List PatternRange}
    (h : RangeWindow (s :: syms) 0) :
    tokensToRanges ((s :: syms).map Sym.token) ≠ .ok (s.token.ranges ++ ranges) := by
  obtain ⟨lo, hi, hlo, hdash, hhi⟩ := h
  rw [List.getElem?_cons_zero, Option.some.injEq] at hlo
  subst hlo
  rcases syms with _ | ⟨t, _ | ⟨t', syms⟩⟩
  · simp at hdash
  · simp at hhi
  simp only [List.getElem?_cons_succ, List.getElem?_cons_zero, Option.some.injEq] at hdash hhi
  subst hdash hhi
  simp only [List.map_cons, Sym.token, tokensToRanges_range, Token.ranges]
  split
  · simp [invalidPattern]
  · intro hok
    obtain ⟨later, -, hranges⟩ := Outcome.andThen_eq_ok.mp hok
    simp at hranges

theorem tokensToRanges_append {left right : List Sym} {rl rr : List PatternRange}
    (hl : tokensToRanges (left.map Sym.token) = .ok rl)
    (hr : tokensToRanges (right.map Sym.token) = .ok rr) :
    tokensToRanges ((left ++ right).map Sym.token) = .ok (rl ++ rr) ↔ JoinsCleanly left right := by
  induction left using Sym.rangeInduction generalizing rl with
  | nil =>
    cases hl
    simp [hr, joinsCleanly_nil]
  | range lo hi rest ih =>
    simp only [List.map_cons, List.cons_append, Sym.token, tokensToRanges_range] at hl ⊢
    split at hl
    · cases hl
    · next hle =>
      obtain ⟨later, hlater, hranges⟩ := Outcome.andThen_eq_ok.mp hl
      cases hranges
      rw [if_neg hle, joinsCleanly_range, ← ih hlater, Outcome.andThen_eq_ok]
      simp
  | clash rest => simp [Sym.token, tokensToRanges, invalidPattern] at hl
  | single s rest hwindow hclash ih =>
    rw [tokensToRanges_single hwindow hclash] at hl
    obtain ⟨later, hlater, hranges⟩ := Outcome.andThen_eq_ok.mp hl
    cases hranges
    rw [List.append_assoc, List.cons_append]
    by_cases hjoined : RangeWindow (s :: (rest ++ right)) 0
    · exact ⟨fun hok => absurd hok (tokensToRanges_window hjoined),
        fun hclean => absurd (hclean.window hjoined) hwindow⟩
    by_cases hmeet : s = .dash ∧ (rest ++ right)[0]? = some .dash
    · refine ⟨fun hok => ?_, fun hclean => absurd (hclean.clash hmeet) hclash⟩
      have hdashes := ((tokensToRanges_accepts _).mp ⟨_, hok⟩).1
      exact absurd hmeet (noAdjacentDashes_cons.mp hdashes).1
    rw [tokensToRanges_single hjoined hmeet, joinsCleanly_cons hjoined hmeet, ← ih hlater,
      Outcome.andThen_eq_ok]
    simp

theorem Lexes.append {a b : List UInt8} {left right : List Sym} (ha : Lexes a left)
    (hb : Lexes b right) : Lexes (a ++ b) (left ++ right) := by
  induction ha with
  | nil => exact hb
  | escape hmem _ ih => exact .escape hmem ih
  | dash _ ih => exact .dash ih
  | literal hescape hdash _ ih => exact .literal hescape hdash ih

/-- Text that is parsed, read as symbols. -/
theorem parseCharacterClass_eq_ok {text : List UInt8} {syms : List Sym} {ranges : List PatternRange}
    (hlex : Lexes text syms) :
    parseCharacterClass text = .ok ranges ↔
      ¬ NonAsciiUtf8 text ∧ tokensToRanges (syms.map Sym.token) = .ok ranges := by
  by_cases hutf8 : NonAsciiUtf8 text
  · simp [(HasFault.nonAscii hutf8).not_ok, hutf8]
  · rw [parseCharacterClass_of_not hutf8, scanTokens_of_lexes hlex, Outcome.ok_andThen]
    simp [hutf8]

/-- Two class texts that the parser accepts, one after the other: it returns the
    ranges of both exactly when the texts join cleanly and do not become UTF-8
    outside ASCII. Texts that join cleanly denote the union. -/
theorem parseCharacterClass_append (a b : List UInt8) (left right : List Sym)
    (rl rr : List PatternRange) (hleft : Lexes a left) (hright : Lexes b right)
    (ha : parseCharacterClass a = .ok rl) (hb : parseCharacterClass b = .ok rr) :
    (parseCharacterClass (a ++ b) = .ok (rl ++ rr) ↔
      ¬ NonAsciiUtf8 (a ++ b) ∧ JoinsCleanly left right) ∧
    (JoinsCleanly left right → ∀ v, Denotes (left ++ right) v ↔ Denotes left v ∨ Denotes right v) := by
  have hl := ((parseCharacterClass_eq_ok hleft).mp ha).2
  have hr := ((parseCharacterClass_eq_ok hright).mp hb).2
  refine ⟨?_, ?_⟩
  · rw [parseCharacterClass_eq_ok (hleft.append hright), tokensToRanges_append hl hr]
  · intro hclean v
    have hjoined := (tokensToRanges_append hl hr).mpr hclean
    rw [← (tokensToRanges_denotes left rl hl).1 v, ← (tokensToRanges_denotes right rr hr).1 v,
      ← (tokensToRanges_denotes (left ++ right) _ hjoined).1 v]
    simp only [List.mem_append, or_and_right, exists_or]

/-- The text `a` and the text `-z` do not join cleanly: together they are a range. -/
theorem parseCharacterClass_append_hyphen :
    parseCharacterClass [0x61] = .ok [.single 0x61] ∧
      parseCharacterClass [0x2D, 0x7A] = .ok [.single 0x2D, .single 0x7A] ∧
      ¬ JoinsCleanly [.literal 0x61] [.dash, .literal 0x7A] := by
  have ha : parseCharacterClass [0x61] = .ok [.single 0x61] := by rfl
  have hb : parseCharacterClass [0x2D, 0x7A] = .ok [.single 0x2D, .single 0x7A] := by rfl
  have hjoined : parseCharacterClass [0x61, 0x2D, 0x7A] = .ok [.span 0x61 0x7A] := by rfl
  have hiff := (parseCharacterClass_append [0x61] [0x2D, 0x7A] [.literal 0x61]
    [.dash, .literal 0x7A] _ _ (.literal (by decide) (by decide) .nil)
    (.dash (.literal (by decide) (by decide) .nil)) ha hb).1
  refine ⟨ha, hb, fun hclean => ?_⟩
  have hseparate := hiff.mpr ⟨by simp +decide [NonAsciiUtf8], hclean⟩
  rw [List.cons_append, List.nil_append, hjoined] at hseparate
  simp at hseparate

end Ebpfkit
