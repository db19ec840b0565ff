-- SUMMARY: Numbers as `std::fmt` writes them, and text made of words or lines between separators.
import Mathlib

/-!
# Formatting

Decimal numbers with and without a forced sign, zero padding, two-digit
hexadecimal, and what is needed to read a text back: a number is recovered from
its digits, and the parts of a text from the text, because no part contains the
separator.
-/

namespace Fmt

/-! ## Numbers -/

/-- `{:+}`: the sign is always written. -/
def signed (n : Int) : String :=
  if n < 0 then n.repr else "+" ++ n.repr

/-- `{:0width}`: zeros in front up to a width. -/
def padded (width n : Nat) : String :=
  String.ofList (List.replicate (width - n.repr.length) '0') ++ n.repr

/-- `{:02x}` of a number below 256. -/
def hex (n : Nat) : String :=
  String.ofList [(n / 16).digitChar, (n % 16).digitChar]

/-- A character that does not occur in a decimal number. -/
def NotNumeral (c : Char) : Prop := c.isDigit = false ∧ c ≠ '-' ∧ c ≠ '+'

instance (c : Char) : Decidable (NotNumeral c) := inferInstanceAs (Decidable (_ ∧ _))

variable {c : Char}

theorem isDigit_of_mem_natRepr {n : Nat} (h : c ∈ n.repr.toList) : c.isDigit = true := by
  rw [Nat.toList_repr] at h
  exact Nat.isDigit_of_mem_toDigits (by decide) (by decide) h

theorem not_mem_natRepr (h : NotNumeral c) (n : Nat) : c ∉ n.repr.toList := by
  intro hmem
  have hdigit := isDigit_of_mem_natRepr hmem
  simp [h.1] at hdigit

theorem not_mem_intRepr (h : NotNumeral c) (n : Int) : c ∉ n.repr.toList := by
  cases n with
  | ofNat n => exact not_mem_natRepr h n
  | negSucc n =>
    have hminus : c ≠ '-' := h.2.1
    simpa [Int.repr, hminus] using not_mem_natRepr h (n + 1)

theorem not_mem_signed (h : NotNumeral c) (n : Int) : c ∉ (signed n).toList := by
  unfold signed
  split
  · exact not_mem_intRepr h n
  · have hplus : c ≠ '+' := h.2.2
    simpa [hplus] using not_mem_intRepr h n

theorem not_mem_padded (h : NotNumeral c) (width n : Nat) : c ∉ (padded width n).toList := by
  have hzero : c ≠ '0' := by
    rintro rfl
    exact absurd h.1 (by decide)
  simpa [padded, hzero] using not_mem_natRepr h n

/-- A number starts with a digit or with a minus sign. -/
theorem intRepr_ne_cons (h : NotNumeral c) (n : Int) (l : List Char) : n.repr.toList ≠ c :: l := by
  intro heq
  exact not_mem_intRepr h n (heq ▸ List.mem_cons_self)

/-- The forced plus sign is not part of a number written without it. -/
theorem plus_not_mem_intRepr (n : Int) : '+' ∉ n.repr.toList := by
  intro hmem
  cases n with
  | ofNat n => exact absurd (isDigit_of_mem_natRepr hmem) (by decide)
  | negSucc n =>
    have htail : '+' ∈ (n + 1).repr.toList := by simpa [Int.repr] using hmem
    exact absurd (isDigit_of_mem_natRepr htail) (by decide)

theorem toList_intRepr_inj {m n : Int} : m.repr.toList = n.repr.toList ↔ m = n := by
  rw [String.toList_inj, Int.repr_inj]

theorem toList_natRepr_inj {m n : Nat} : m.repr.toList = n.repr.toList ↔ m = n := by
  rw [String.toList_inj, Nat.repr_inj]

theorem toList_signed_inj {m n : Int} : (signed m).toList = (signed n).toList ↔ m = n := by
  refine ⟨?_, fun h => h ▸ rfl⟩
  unfold signed
  split
  · split
    · exact toList_intRepr_inj.mp
    · intro h
      refine absurd ?_ (plus_not_mem_intRepr m)
      simp [h]
  · split
    · intro h
      refine absurd ?_ (plus_not_mem_intRepr n)
      simp [← h]
    · intro h
      simpa [toList_intRepr_inj] using h

/-! ## Parts -/

variable {α : Type} [BEq α] [LawfulBEq α] {sep : α}

/-- The parts of a text are determined by it. -/
theorem intercalate_inj {parts parts' : List (List α)} (hne : parts ≠ []) (hne' : parts' ≠ [])
    (h : ∀ part ∈ parts, sep ∉ part) (h' : ∀ part ∈ parts', sep ∉ part)
    (heq : [sep].intercalate parts = [sep].intercalate parts') : parts = parts' := by
  rw [← List.splitOn_intercalate sep h hne, heq, List.splitOn_intercalate sep h' hne']

/-- What follows the last separator. -/
def lastPart (sep : α) (text : List α) : Option (List α) := (text.splitOn sep).getLast?

theorem lastPart_append {text part : List α} (h : sep ∉ part) :
    lastPart sep (text ++ sep :: part) = some part := by
  rw [lastPart, List.splitOn_append_cons_self, List.splitOn_eq_singleton h, List.getLast?_append]
  rfl

end Fmt
