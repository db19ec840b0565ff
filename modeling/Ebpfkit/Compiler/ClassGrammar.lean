-- SUMMARY: The grammar of character-class text, what it denotes, and that the parser accepts exactly this grammar.
import Ebpfkit.Compiler.Verify

/-!
# Character-class text

The grammar is stated without the parser: a lexing relation, the hyphens of a
symbol sequence that are range operators, and the bytes a sequence denotes. The
parser scans tokens first and then recognises ranges greedily from the left; the
induction `Sym.rangeInduction` follows its steps.
-/

namespace Ebpfkit

/-! ## Grammar -/

/-- The classes that have an escape: `\d`, `\s` and `\w`. -/
inductive ClassName where
  | digit
  | space
  | word
  deriving DecidableEq, Repr

def ClassName.Has : ClassName → UInt8 → Prop
  | .digit, v => 0x30 ≤ v ∧ v ≤ 0x39
  | .space, v => (0x09 ≤ v ∧ v ≤ 0x0D) ∨ v = 0x20
  | .word, v => (0x61 ≤ v ∧ v ≤ 0x7A) ∨ (0x41 ≤ v ∧ v ≤ 0x5A) ∨ (0x30 ≤ v ∧ v ≤ 0x39) ∨ v = 0x5F

/-- A symbol of class text: a literal byte, an unescaped hyphen, or a class. -/
inductive Sym where
  | literal (b : UInt8)
  | dash
  | cls (name : ClassName)
  deriving DecidableEq, Repr

/-- What a backslash may be followed by, and the symbol it makes. -/
def escapeTable : List (UInt8 × Sym) :=
  [(ascii 'n', .literal 0x0A), (ascii 'r', .literal 0x0D), (ascii 't', .literal 0x09),
    (ascii '\\', .literal 0x5C), (ascii ']', .literal 0x5D), (ascii '[', .literal 0x5B),
    (ascii '-', .literal 0x2D), (ascii '.', .literal 0x2E),
    (ascii 'd', .cls .digit), (ascii 's', .cls .space), (ascii 'w', .cls .word)]

/-- The text is the spelling of the symbols, read from the left. -/
inductive Lexes : List UInt8 → List Sym → Prop where
  | nil : Lexes [] []
  | escape {e : UInt8} {sym : Sym} {text : List UInt8} {syms : List Sym} :
      (e, sym) ∈ escapeTable → Lexes text syms → Lexes (0x5C :: e :: text) (sym :: syms)
  | dash {text : List UInt8} {syms : List Sym} :
      Lexes text syms → Lexes (0x2D :: text) (.dash :: syms)
  | literal {b : UInt8} {text : List UInt8} {syms : List Sym} :
      b ≠ 0x5C → b ≠ 0x2D → Lexes text syms → Lexes (b :: text) (.literal b :: syms)

def NoAdjacentDashes (syms : List Sym) : Prop :=
  ∀ i, ¬ (syms[i]? = some .dash ∧ syms[i + 1]? = some .dash)

/-- A hyphen at `i + 1` between two literal bytes. -/
def RangeWindow (syms : List Sym) (i : Nat) : Prop :=
  ∃ lo hi, syms[i]? = some (.literal lo) ∧ syms[i + 1]? = some .dash ∧
    syms[i + 2]? = some (.literal hi)

/-- The hyphen at an index is a range operator: both its neighbours are literal
    bytes, and the left one is not the right end of the operator two before. -/
def IsRangeOp (syms : List Sym) : Nat → Prop
  | 0 => False
  | 1 => RangeWindow syms 0
  | i + 2 => RangeWindow syms (i + 1) ∧ ¬ IsRangeOp syms i

/-- The symbol next to a range operator. -/
def IsEndpoint (syms : List Sym) (i : Nat) : Prop :=
  IsRangeOp syms (i + 1) ∨ ∃ j, i = j + 1 ∧ IsRangeOp syms j

def OperatorsOrdered (syms : List Sym) : Prop :=
  ∀ i lo hi, IsRangeOp syms (i + 1) → syms[i]? = some (.literal lo) →
    syms[i + 2]? = some (.literal hi) → lo ≤ hi

/-- The symbol at `i` contributes `v`: as the left end of a range operator, as a
    literal that is not an endpoint, as a hyphen that is not an operator, or as a
    class. -/
def DenotesAt (syms : List Sym) (v : UInt8) (i : Nat) : Prop :=
  (∃ lo hi, IsRangeOp syms (i + 1) ∧ syms[i]? = some (.literal lo) ∧
    syms[i + 2]? = some (.literal hi) ∧ lo ≤ v ∧ v ≤ hi) ∨
  (syms[i]? = some (.literal v) ∧ ¬ IsEndpoint syms i) ∨
  (syms[i]? = some .dash ∧ ¬ IsRangeOp syms i ∧ v = 0x2D) ∨
  ∃ name : ClassName, syms[i]? = some (.cls name) ∧ name.Has v

/-- The bytes a symbol sequence stands for: the union of what its symbols
    contribute. -/
def Denotes (syms : List Sym) (v : UInt8) : Prop := ∃ i, DenotesAt syms v i

/-! ## Range operators -/

section Operators

variable {s : Sym} {rest : List Sym} {lo hi : UInt8}

theorem rangeWindow_cons (i : Nat) : RangeWindow (s :: rest) (i + 1) ↔ RangeWindow rest i := by
  simp [RangeWindow]

/-- A symbol that does not start a range leaves the operators after it alone. -/
theorem isRangeOp_cons (h : ¬ RangeWindow (s :: rest) 0) (i : Nat) :
    IsRangeOp (s :: rest) (i + 1) ↔ IsRangeOp rest i := by
  induction i using IsRangeOp.induct with
  | case1 => simp [IsRangeOp, h]
  | case2 => simp [IsRangeOp, rangeWindow_cons]
  | case3 i ih => simp only [IsRangeOp, rangeWindow_cons, ih]

theorem isRangeOp_range_one : IsRangeOp (.literal lo :: .dash :: .literal hi :: rest) 1 := by
  simp [IsRangeOp, RangeWindow]

theorem not_isRangeOp_range_two :
    ¬ IsRangeOp (.literal lo :: .dash :: .literal hi :: rest) 2 := by
  simp [IsRangeOp, RangeWindow]

/-- A range leaves the operators after it alone. -/
theorem isRangeOp_range (i : Nat) :
    IsRangeOp (.literal lo :: .dash :: .literal hi :: rest) (i + 3) ↔ IsRangeOp rest i := by
  induction i using IsRangeOp.induct with
  | case1 => simp [IsRangeOp, RangeWindow]
  | case2 => simp [IsRangeOp, RangeWindow]
  | case3 i ih =>
    rw [IsRangeOp, ih, rangeWindow_cons, rangeWindow_cons, rangeWindow_cons, IsRangeOp]

theorem noAdjacentDashes_cons :
    NoAdjacentDashes (s :: rest) ↔
      ¬ (s = .dash ∧ rest[0]? = some .dash) ∧ NoAdjacentDashes rest := by
  constructor
  · intro h
    exact ⟨by simpa using h 0, fun i => by simpa using h (i + 1)⟩
  · rintro ⟨hfirst, hrest⟩ i
    cases i with
    | zero => simpa using hfirst
    | succ i => simpa using hrest i

theorem operatorsOrdered_cons (h : ¬ RangeWindow (s :: rest) 0) :
    OperatorsOrdered (s :: rest) ↔ OperatorsOrdered rest := by
  constructor
  · intro hall i lo hi hop hlo hhi
    exact hall (i + 1) lo hi ((isRangeOp_cons h _).mpr hop) (by simpa using hlo) (by simpa using hhi)
  · intro hall i lo hi hop hlo hhi
    cases i with
    | zero => exact absurd ((isRangeOp_cons h 0).mp hop) id
    | succ i =>
      exact hall i lo hi ((isRangeOp_cons h _).mp hop) (by simpa using hlo) (by simpa using hhi)

theorem operatorsOrdered_range :
    OperatorsOrdered (.literal lo :: .dash :: .literal hi :: rest) ↔
      lo ≤ hi ∧ OperatorsOrdered rest := by
  constructor
  · intro hall
    refine ⟨hall 0 lo hi isRangeOp_range_one (by simp) (by simp), ?_⟩
    intro i a b hop ha hb
    exact hall (i + 3) a b ((isRangeOp_range _).mpr hop) (by simpa using ha) (by simpa using hb)
  · rintro ⟨hle, hall⟩ i a b hop ha hb
    match i with
    | 0 =>
      simp only [List.getElem?_cons_zero, List.getElem?_cons_succ, Option.some.injEq,
        Sym.literal.injEq] at ha hb
      rw [← ha, ← hb]
      exact hle
    | 1 => simp at ha
    | 2 => exact absurd ((isRangeOp_range 0).mp hop) id
    | i + 3 =>
      exact hall i a b ((isRangeOp_range _).mp hop) (by simpa using ha) (by simpa using hb)

/-- The bytes of a symbol on its own. -/
def Sym.Has (v : UInt8) : Sym → Prop
  | .literal b => v = b
  | .dash => v = 0x2D
  | .cls name => name.Has v

theorem isEndpoint_cons (h : ¬ RangeWindow (s :: rest) 0) (i : Nat) :
    IsEndpoint (s :: rest) (i + 1) ↔ IsEndpoint rest i := by
  cases i with
  | zero => simp [IsEndpoint, IsRangeOp, rangeWindow_cons]
  | succ i => simp [IsEndpoint, isRangeOp_cons h]

theorem isEndpoint_range (i : Nat) :
    IsEndpoint (.literal lo :: .dash :: .literal hi :: rest) (i + 3) ↔ IsEndpoint rest i := by
  cases i with
  | zero => simp [IsEndpoint, isRangeOp_range 1, not_isRangeOp_range_two]
  | succ i => simp [IsEndpoint, isRangeOp_range]

theorem exists_nat_cons {P : Nat → Prop} : (∃ i, P i) ↔ P 0 ∨ ∃ i, P (i + 1) := by
  constructor
  · rintro ⟨i, hi⟩
    cases i with
    | zero => exact .inl hi
    | succ i => exact .inr ⟨i, hi⟩
  · rintro (h | ⟨i, hi⟩)
    · exact ⟨0, h⟩
    · exact ⟨i + 1, hi⟩

theorem denotes_cons (h : ¬ RangeWindow (s :: rest) 0) (v : UInt8) :
    Denotes (s :: rest) v ↔ s.Has v ∨ Denotes rest v := by
  have hlater : ∀ i, DenotesAt (s :: rest) v (i + 1) ↔ DenotesAt rest v i := by
    intro i
    simp [DenotesAt, isRangeOp_cons h, isEndpoint_cons h]
  have hfirst : DenotesAt (s :: rest) v 0 ↔ s.Has v := by
    have hop : ¬ IsRangeOp (s :: rest) 1 := h
    cases s with
    | literal b => simp [DenotesAt, IsEndpoint, hop, Sym.Has, eq_comm]
    | dash => simp [DenotesAt, IsRangeOp, Sym.Has]
    | cls name => simp [DenotesAt, Sym.Has]
  rw [Denotes, exists_nat_cons, hfirst]
  simp only [hlater, Denotes]

theorem denotes_range (v : UInt8) :
    Denotes (.literal lo :: .dash :: .literal hi :: rest) v ↔
      (lo ≤ v ∧ v ≤ hi) ∨ Denotes rest v := by
  have hop : IsRangeOp (.literal lo :: .dash :: .literal hi :: rest) 1 := isRangeOp_range_one
  have hlater : ∀ i, DenotesAt (.literal lo :: .dash :: .literal hi :: rest) v (i + 1 + 1 + 1) ↔
      DenotesAt rest v i := by
    intro i
    simp [DenotesAt, isRangeOp_range, isEndpoint_range]
  have hleft : DenotesAt (.literal lo :: .dash :: .literal hi :: rest) v 0 ↔ lo ≤ v ∧ v ≤ hi := by
    simp [DenotesAt, IsEndpoint, hop]
  have hdash : ¬ DenotesAt (.literal lo :: .dash :: .literal hi :: rest) v (0 + 1) := by
    simp [DenotesAt, hop]
  have hright : ¬ DenotesAt (.literal lo :: .dash :: .literal hi :: rest) v (0 + 1 + 1) := by
    have hthree : ¬ IsRangeOp (.literal lo :: .dash :: .literal hi :: rest) 3 :=
      fun h => (isRangeOp_range 0).mp h
    simp [DenotesAt, IsEndpoint, hop, hthree]
  rw [Denotes, exists_nat_cons, exists_nat_cons, exists_nat_cons, hleft]
  simp only [hdash, hright, hlater, false_or, Denotes]

end Operators

/-- The steps of the greedy recogniser. -/
theorem Sym.rangeInduction {motive : List Sym → Prop} (nil : motive [])
    (range : ∀ lo hi rest, motive rest → motive (.literal lo :: .dash :: .literal hi :: rest))
    (clash : ∀ rest, motive (.dash :: .dash :: rest))
    (single : ∀ s rest, ¬ RangeWindow (s :: rest) 0 → ¬ (s = .dash ∧ rest[0]? = some .dash) →
      motive rest → motive (s :: rest))
    (syms : List Sym) : motive syms := by
  induction hn : syms.length using Nat.strongRecOn generalizing syms with
  | ind n ih =>
    cases syms with
    | nil => exact nil
    | cons s rest =>
      rw [List.length_cons] at hn
      by_cases hwindow : RangeWindow (s :: rest) 0
      · obtain ⟨lo, hi, hlo, hdash, hhi⟩ := hwindow
        match rest, hdash, hhi with
        | .dash :: .literal _ :: rest, _, hhi =>
          simp only [List.getElem?_cons_zero, Option.some.injEq] at hlo
          subst hlo
          simp only [List.length_cons] at hn
          exact range _ _ rest (ih rest.length (by omega) rest rfl)
      · by_cases hclash : s = .dash ∧ rest[0]? = some .dash
        · obtain ⟨rfl, hnext⟩ := hclash
          match rest, hnext with
          | .dash :: rest, _ => exact clash rest
        · exact single s rest hwindow hclash (ih rest.length (by omega) rest rfl)

/-! ## Tokens -/

/-- The ranges an escape expands to. -/
def ClassName.ranges : ClassName → List PatternRange
  | .digit => [.span (ascii '0') (ascii '9')]
  | .space => [.span (ascii '\t') (ascii '\r'), .single (ascii ' ')]
  | .word => [.span (ascii 'a') (ascii 'z'), .span (ascii 'A') (ascii 'Z'),
      .span (ascii '0') (ascii '9'), .single (ascii '_')]

def Sym.token : Sym → Token
  | .literal b => .byte b
  | .dash => .dash
  | .cls name => .classEscape name.ranges

theorem Sym.token_injective {a b : Sym} (h : a.token = b.token) : a = b := by
  cases a with
  | literal x => cases b <;> simp_all [Sym.token]
  | dash => cases b <;> simp_all [Sym.token]
  | cls x =>
    cases b with
    | literal y => simp [Sym.token] at h
    | dash => simp [Sym.token] at h
    | cls y => revert h; cases x <;> cases y <;> decide

theorem decodeCharacterClassEscape_of_mem {e : UInt8} {sym : Sym} (h : (e, sym) ∈ escapeTable) :
    decodeCharacterClassEscape (some e) = .ok sym.token := by
  have hall : ∀ entry ∈ escapeTable,
      decodeCharacterClassEscape (some entry.1) = .ok entry.2.token := by decide
  exact hall (e, sym) h

theorem mem_escapeTable {e : UInt8} {token : Token}
    (h : decodeCharacterClassEscape (some e) = .ok token) :
    ∃ sym, (e, sym) ∈ escapeTable ∧ token = sym.token := by
  by_cases hmem : ∃ sym, (e, sym) ∈ escapeTable
  · obtain ⟨sym, hsym⟩ := hmem
    rw [decodeCharacterClassEscape_of_mem hsym, Outcome.ok.injEq] at h
    exact ⟨sym, hsym, h.symm⟩
  · have hnone : ∀ entry ∈ escapeTable, e ≠ entry.1 := by
      rintro ⟨e', sym⟩ hentry rfl
      exact hmem ⟨sym, hentry⟩
    simp only [escapeTable, List.forall_mem_cons] at hnone
    obtain ⟨hn, hr, ht, hbackslash, hclose, hopen, hdash, hdot, hd, hs, hw, -⟩ := hnone
    simp only [decodeCharacterClassEscape, hn, hr, ht, hbackslash, hclose, hopen, hdash, hdot, hd,
      hs, hw, if_false, invalidPattern] at h
    split at h <;> cases h

theorem scanTokens_escape (e : UInt8) (text : List UInt8) :
    scanTokens (0x5C :: e :: text) = (decodeCharacterClassEscape (some e)).andThen fun token =>
      (scanTokens text).andThen fun tokens => .ok (token :: tokens) := by
  rw [scanTokens, if_pos (by decide)]
  rfl

theorem scanTokens_dash (text : List UInt8) :
    scanTokens (0x2D :: text) = (scanTokens text).andThen fun tokens => .ok (.dash :: tokens) := by
  rw [scanTokens, if_neg (by decide), if_pos (by decide)]

theorem scanTokens_literal {b : UInt8} (hescape : b ≠ 0x5C) (hdash : b ≠ 0x2D)
    (text : List UInt8) :
    scanTokens (b :: text) =
      (scanTokens text).andThen fun tokens => .ok (.byte b :: tokens) := by
  have hbackslash : ascii '\\' = 0x5C := by decide
  have hhyphen : ascii '-' = 0x2D := by decide
  rw [scanTokens, hbackslash, hhyphen, if_neg hescape, if_neg hdash]

theorem scanTokens_of_lexes {text : List UInt8} {syms : List Sym} (h : Lexes text syms) :
    scanTokens text = .ok (syms.map Sym.token) := by
  induction h with
  | nil => rfl
  | escape hmem _ ih =>
    rw [scanTokens_escape, decodeCharacterClassEscape_of_mem hmem, Outcome.ok_andThen, ih]
    rfl
  | dash _ ih => rw [scanTokens_dash, ih]; rfl
  | literal hescape hdash _ ih => rw [scanTokens_literal hescape hdash, ih]; rfl

theorem lexes_of_scanTokens {text : List UInt8} {tokens : List Token}
    (h : scanTokens text = .ok tokens) :
    ∃ syms, Lexes text syms ∧ tokens = syms.map Sym.token := by
  induction hn : text.length using Nat.strongRecOn generalizing text tokens with
  | ind n ih =>
    cases text with
    | nil => cases h; exact ⟨[], .nil, rfl⟩
    | cons b text =>
      rw [List.length_cons] at hn
      by_cases hescape : b = 0x5C
      · subst hescape
        cases text with
        | nil => cases h
        | cons e text =>
          rw [List.length_cons] at hn
          rw [scanTokens_escape] at h
          obtain ⟨token, htoken, h⟩ := Outcome.andThen_eq_ok.mp h
          obtain ⟨tokens', hscan, h⟩ := Outcome.andThen_eq_ok.mp h
          obtain ⟨sym, hmem, rfl⟩ := mem_escapeTable htoken
          obtain ⟨syms, hlex, rfl⟩ := ih text.length (by omega) hscan rfl
          cases h
          exact ⟨sym :: syms, .escape hmem hlex, rfl⟩
      · by_cases hdash : b = 0x2D
        · subst hdash
          rw [scanTokens_dash] at h
          obtain ⟨tokens', hscan, h⟩ := Outcome.andThen_eq_ok.mp h
          obtain ⟨syms, hlex, rfl⟩ := ih text.length (by omega) hscan rfl
          cases h
          exact ⟨.dash :: syms, .dash hlex, rfl⟩
        · rw [scanTokens_literal hescape hdash] at h
          obtain ⟨tokens', hscan, h⟩ := Outcome.andThen_eq_ok.mp h
          obtain ⟨syms, hlex, rfl⟩ := ih text.length (by omega) hscan rfl
          cases h
          exact ⟨.literal b :: syms, .literal hescape hdash hlex, rfl⟩

/-- Text has at most one lexing. -/
theorem Lexes.unique {text : List UInt8} {syms syms' : List Sym} (h : Lexes text syms)
    (h' : Lexes text syms') : syms = syms' := by
  have htokens := (scanTokens_of_lexes h).symm.trans (scanTokens_of_lexes h')
  rw [Outcome.ok.injEq] at htokens
  exact (List.map_inj_right fun _ _ => Sym.token_injective).mp htokens

/-! ## Ranges -/

/-- The byte lies in the range. -/
def PatternRange.Has (v : UInt8) (r : PatternRange) : Prop :=
  r.toCharRange.lo ≤ v ∧ v ≤ r.toCharRange.hi

def PatternRange.Ordered (r : PatternRange) : Prop := r.toCharRange.lo ≤ r.toCharRange.hi

theorem tokensToRanges_range (lo hi : UInt8) (rest : List Token) :
    tokensToRanges (.byte lo :: .dash :: .byte hi :: rest) =
      if lo > hi then invalidPattern "character class range endpoints are reversed"
      else (tokensToRanges rest).andThen fun ranges => .ok (.span lo hi :: ranges) := by
  rw [tokensToRanges]

theorem tokensToRanges_single {s : Sym} {rest : List Sym} (hwindow : ¬ RangeWindow (s :: rest) 0)
    (hclash : ¬ (s = .dash ∧ rest[0]? = some .dash)) :
    tokensToRanges ((s :: rest).map Sym.token) =
      (tokensToRanges (rest.map Sym.token)).andThen fun ranges =>
        .ok (s.token.ranges ++ ranges) := by
  rw [List.map_cons, tokensToRanges]
  · intro lo hi tail hs hrest
    match s, rest, hs, hrest with
    | .literal _, .dash :: .literal _ :: _, _, _ => exact hwindow ⟨_, _, rfl, rfl, rfl⟩
  · intro tail hs hrest
    match s, rest, hs, hrest with
    | .dash, .dash :: _, _, _ => exact hclash ⟨rfl, rfl⟩

theorem byte_between_self {b v : UInt8} : b ≤ v ∧ v ≤ b ↔ v = b := by
  constructor
  · rintro ⟨h, h'⟩
    exact UInt8.le_antisymm h' h
  · rintro rfl
    exact ⟨UInt8.le_refl _, UInt8.le_refl _⟩

theorem Sym.token_ranges_ordered (s : Sym) :
    s.token.ranges ≠ [] ∧ ∀ r ∈ s.token.ranges, r.Ordered := by
  cases s with
  | literal b => simp [token, Token.ranges, PatternRange.Ordered, PatternRange.toCharRange]
  | dash => simp [token, Token.ranges, PatternRange.Ordered, PatternRange.toCharRange]
  | cls name =>
    cases name <;> simp +decide [token, Token.ranges, ClassName.ranges, PatternRange.Ordered,
      PatternRange.toCharRange]

theorem Sym.token_ranges_has (s : Sym) (v : UInt8) :
    (∃ r ∈ s.token.ranges, r.Has v) ↔ s.Has v := by
  cases s with
  | literal b =>
    simp [token, Token.ranges, PatternRange.Has, PatternRange.toCharRange, Sym.Has,
      byte_between_self]
  | dash =>
    have hhyphen : ascii '-' = 0x2D := by decide
    simp [token, Token.ranges, PatternRange.Has, PatternRange.toCharRange, Sym.Has,
      byte_between_self, hhyphen]
  | cls name =>
    have hspan : ∀ lo hi, PatternRange.Has v (.span lo hi) ↔ lo ≤ v ∧ v ≤ hi := fun _ _ => Iff.rfl
    have hsingle : ∀ b, PatternRange.Has v (.single b) ↔ v = b := fun _ => byte_between_self
    simp only [token, Token.ranges, Sym.Has]
    cases name with
    | digit =>
      simp only [ClassName.ranges, List.mem_cons, List.not_mem_nil, or_false, exists_eq_left, hspan]
      exact Iff.rfl
    | space =>
      simp only [ClassName.ranges, List.mem_cons, List.not_mem_nil, or_false, exists_eq_or_imp,
        exists_eq_left, hspan, hsingle]
      exact Iff.rfl
    | word =>
      simp only [ClassName.ranges, List.mem_cons, List.not_mem_nil, or_false, exists_eq_or_imp,
        exists_eq_left, hspan, hsingle]
      exact Iff.rfl

/-- The recogniser succeeds on the sequences the grammar allows. -/
theorem tokensToRanges_accepts (syms : List Sym) :
    (∃ ranges, tokensToRanges (syms.map Sym.token) = .ok ranges) ↔
      NoAdjacentDashes syms ∧ OperatorsOrdered syms := by
  induction syms using Sym.rangeInduction with
  | nil => simp [tokensToRanges, NoAdjacentDashes, OperatorsOrdered]
  | range lo hi rest ih =>
    have hdashes : NoAdjacentDashes (.literal lo :: .dash :: .literal hi :: rest) ↔
        NoAdjacentDashes rest := by
      simp [noAdjacentDashes_cons]
    simp only [List.map_cons, Sym.token, tokensToRanges_range, hdashes, operatorsOrdered_range]
    split
    · next hgt => simp [invalidPattern, UInt8.not_le.mpr hgt]
    · next hle => simp [Outcome.exists_andThen_ok, ih, UInt8.not_lt.mp hle]
  | clash rest =>
    have hdashes : ¬ NoAdjacentDashes (.dash :: .dash :: rest) := by
      simp [noAdjacentDashes_cons]
    simp [Sym.token, tokensToRanges, invalidPattern, hdashes]
  | single s rest hwindow hclash ih =>
    rw [tokensToRanges_single hwindow hclash, Outcome.exists_andThen_ok, ih,
      noAdjacentDashes_cons, operatorsOrdered_cons hwindow]
    simp only [hclash, not_false_eq_true, true_and]

/-- The ranges it returns are ordered and cover the bytes the sequence denotes. -/
theorem tokensToRanges_denotes (syms : List Sym) (ranges : List PatternRange)
    (h : tokensToRanges (syms.map Sym.token) = .ok ranges) :
    (∀ v, (∃ r ∈ ranges, r.Has v) ↔ Denotes syms v) ∧ (∀ r ∈ ranges, r.Ordered) ∧
      (syms ≠ [] → ranges ≠ []) := by
  induction syms using Sym.rangeInduction generalizing ranges with
  | nil =>
    cases h
    simp [Denotes, DenotesAt]
  | range lo hi rest ih =>
    simp only [List.map_cons, Sym.token, tokensToRanges_range] at h
    split at h
    · cases h
    · next hle =>
      obtain ⟨later, hlater, hranges⟩ := Outcome.andThen_eq_ok.mp h
      obtain ⟨hdenotes, hordered, -⟩ := ih later hlater
      cases hranges
      refine ⟨?_, ?_, fun _ => List.cons_ne_nil _ _⟩
      · intro v
        rw [denotes_range, ← hdenotes]
        simp [PatternRange.Has, PatternRange.toCharRange]
      · intro r hr
        rcases List.mem_cons.mp hr with rfl | hr
        · exact UInt8.not_lt.mp hle
        · exact hordered r hr
  | clash rest => simp [Sym.token, tokensToRanges, invalidPattern] at h
  | single s rest hwindow hclash ih =>
    rw [tokensToRanges_single hwindow hclash] at h
    obtain ⟨later, hlater, hranges⟩ := Outcome.andThen_eq_ok.mp h
    obtain ⟨hdenotes, hordered, -⟩ := ih later hlater
    obtain ⟨hne, hown⟩ := s.token_ranges_ordered
    cases hranges
    refine ⟨?_, ?_, ?_⟩
    · intro v
      rw [denotes_cons hwindow, ← hdenotes, ← s.token_ranges_has]
      simp only [List.mem_append, or_and_right, exists_or]
    · intro r hr
      rcases List.mem_append.mp hr with hr | hr
      · exact hown r hr
      · exact hordered r hr
    · intro _ happend
      exact hne (List.append_eq_nil_iff.mp happend).1

/-! ## The parser -/

/-- The text is UTF-8 with a character outside ASCII. -/
def NonAsciiUtf8 (text : List UInt8) : Prop :=
  text.toByteArray.IsValidUTF8 ∧ ∃ b ∈ text, 0x80 ≤ b

theorem nonAsciiUtf8_iff {text : List UInt8} :
    (isUtf8 text && text.any fun b => b ≥ 0x80) = true ↔ NonAsciiUtf8 text := by
  simp [isUtf8, NonAsciiUtf8]

theorem parseCharacterClass_of_not {text : List UInt8} (h : ¬ NonAsciiUtf8 text) :
    parseCharacterClass text = (scanTokens text).andThen tokensToRanges := by
  rw [parseCharacterClass, if_neg (mt nonAsciiUtf8_iff.mp h)]

/-- `parse_character_class` accepts exactly the texts of the grammar, and returns
    ordered ranges that together cover the bytes the text denotes. -/
theorem parseCharacterClass_exact (text : List UInt8) :
    ((∃ ranges, parseCharacterClass text = .ok ranges) ↔
      ¬ NonAsciiUtf8 text ∧
      ∃ syms, Lexes text syms ∧ NoAdjacentDashes syms ∧ OperatorsOrdered syms) ∧
    ∀ ranges syms, parseCharacterClass text = .ok ranges → Lexes text syms →
      (∀ v, (∃ r ∈ ranges, r.toCharRange.lo ≤ v ∧ v ≤ r.toCharRange.hi) ↔ Denotes syms v) ∧
      (∀ r ∈ ranges, r.toCharRange.lo ≤ r.toCharRange.hi) ∧
      (text ≠ [] → ranges ≠ []) := by
  by_cases hutf8 : NonAsciiUtf8 text
  · have herr : ∀ ranges, parseCharacterClass text ≠ .ok ranges := by
      intro ranges
      rw [parseCharacterClass, if_pos (nonAsciiUtf8_iff.mpr hutf8)]
      simp [invalidPattern]
    simp [herr, hutf8]
  · rw [parseCharacterClass_of_not hutf8]
    refine ⟨?_, ?_⟩
    · constructor
      · rintro ⟨ranges, hok⟩
        obtain ⟨tokens, hscan, hranges⟩ := Outcome.andThen_eq_ok.mp hok
        obtain ⟨syms, hlex, rfl⟩ := lexes_of_scanTokens hscan
        exact ⟨hutf8, syms, hlex, (tokensToRanges_accepts syms).mp ⟨ranges, hranges⟩⟩
      · rintro ⟨-, syms, hlex, hgrammar⟩
        rw [scanTokens_of_lexes hlex, Outcome.ok_andThen]
        exact (tokensToRanges_accepts syms).mpr hgrammar
    · intro ranges syms hok hlex
      rw [scanTokens_of_lexes hlex, Outcome.ok_andThen] at hok
      obtain ⟨hdenotes, hordered, hne⟩ := tokensToRanges_denotes syms ranges hok
      refine ⟨hdenotes, hordered, fun htext => hne ?_⟩
      rintro rfl
      cases hlex
      exact htext rfl

/-- The text `a-b-c` is accepted: its second hyphen stands for itself. -/
theorem parseCharacterClass_a_to_b_c :
    ∃ ranges, parseCharacterClass [0x61, 0x2D, 0x62, 0x2D, 0x63] = .ok ranges ∧
      ∃ r ∈ ranges, r.toCharRange.lo ≤ 0x2D ∧ 0x2D ≤ r.toCharRange.hi := by
  have hlex : Lexes [0x61, 0x2D, 0x62, 0x2D, 0x63]
      [.literal 0x61, .dash, .literal 0x62, .dash, .literal 0x63] :=
    .literal (by decide) (by decide) (.dash (.literal (by decide) (by decide)
      (.dash (.literal (by decide) (by decide) .nil))))
  have hdashes : NoAdjacentDashes
      [.literal 0x61, .dash, .literal 0x62, .dash, .literal 0x63] := by
    simp only [noAdjacentDashes_cons]
    simp [NoAdjacentDashes]
  have hordered : OperatorsOrdered
      [.literal 0x61, .dash, .literal 0x62, .dash, .literal 0x63] := by
    rw [operatorsOrdered_range, operatorsOrdered_cons (by simp [RangeWindow]),
      operatorsOrdered_cons (by simp [RangeWindow])]
    exact ⟨by decide, by simp [OperatorsOrdered]⟩
  obtain ⟨haccepts, hdenotes⟩ := parseCharacterClass_exact [0x61, 0x2D, 0x62, 0x2D, 0x63]
  obtain ⟨ranges, hok⟩ := haccepts.mpr ⟨by simp +decide [NonAsciiUtf8], _, hlex, hdashes, hordered⟩
  refine ⟨ranges, hok, ((hdenotes ranges _ hok hlex).1 0x2D).mpr ⟨3, ?_⟩⟩
  simp [DenotesAt, IsRangeOp, RangeWindow]

end Ebpfkit
