-- SUMMARY: In UTF-8 a byte outside ASCII always has another one next to it.
import Mathlib.Algebra.Order.Ring.Nat
import Mathlib.Tactic.Common

/-!
# Isolated bytes

A character outside ASCII is encoded by at least two bytes, all of them outside
ASCII. So a byte outside ASCII whose neighbours are ASCII, or missing, shows that
the text around it is not UTF-8.
-/

namespace Utf8

/-- Some byte outside ASCII has no such byte next to it. -/
def Isolated (text : List UInt8) : Prop :=
  ∃ pre b post, text = pre ++ b :: post ∧ 0x80 ≤ b ∧
    (∀ c, pre.getLast? = some c → c < 0x80) ∧ ∀ c, post.head? = some c → c < 0x80

theorem ofNat_ge {n : Nat} (hlo : 128 ≤ n) (hhi : n < 256) : 0x80 ≤ UInt8.ofNat n := by
  rw [UInt8.le_iff_toNat_le, UInt8.toNat_ofNat', Nat.mod_eq_of_lt hhi]
  exact hlo

/-- An encoded character is one ASCII byte, or several bytes outside ASCII. -/
theorem encodeChar_cases (c : Char) :
    (∃ b, String.utf8EncodeChar c = [b] ∧ b < 0x80) ∨
      2 ≤ (String.utf8EncodeChar c).length ∧ ∀ b ∈ String.utf8EncodeChar c, 0x80 ≤ b := by
  simp only [String.utf8EncodeChar]
  generalize c.val.toNat = v
  split
  · next hascii =>
    refine .inl ⟨_, rfl, ?_⟩
    rw [UInt8.lt_iff_toNat_lt, UInt8.toNat_ofNat', Nat.mod_eq_of_lt (by omega)]
    exact Nat.lt_succ_of_le hascii
  · refine .inr ?_
    have hcont : ∀ n, 0x80 ≤ UInt8.ofNat (n % 64 + 128) :=
      fun n => ofNat_ge (by omega) (by omega)
    split
    · have hlead : 0x80 ≤ UInt8.ofNat (v / 64 % 32 + 192) := ofNat_ge (by omega) (by omega)
      simp only [List.length_cons, List.length_nil, List.forall_mem_cons, hlead, hcont, true_and]
      exact ⟨by omega, List.forall_mem_nil _⟩
    · split
      · have hlead : 0x80 ≤ UInt8.ofNat (v / 4096 % 16 + 224) := ofNat_ge (by omega) (by omega)
        simp only [List.length_cons, List.length_nil, List.forall_mem_cons, hlead, hcont, true_and]
        exact ⟨by omega, List.forall_mem_nil _⟩
      · have hlead : 0x80 ≤ UInt8.ofNat (v / 262144 % 8 + 240) := ofNat_ge (by omega) (by omega)
        simp only [List.length_cons, List.length_nil, List.forall_mem_cons, hlead, hcont, true_and]
        exact ⟨by omega, List.forall_mem_nil _⟩

/-- An isolated byte after an ASCII byte is isolated without it. -/
theorem Isolated.of_ascii {b : UInt8} {text : List UInt8} (hb : b < 0x80)
    (h : Isolated (b :: text)) : Isolated text := by
  obtain ⟨pre, c, post, heq, hc, hpre, hpost⟩ := h
  cases pre with
  | nil =>
    obtain ⟨rfl, rfl⟩ := List.cons.inj heq
    exact absurd hc (UInt8.not_le.mpr hb)
  | cons a pre =>
    obtain ⟨rfl, rfl⟩ := List.cons.inj heq
    refine ⟨pre, c, post, rfl, hc, ?_, hpost⟩
    intro d hd
    refine hpre d ?_
    cases pre with
    | nil => cases hd
    | cons => simpa using hd

/-- The bytes of a block are not ASCII, so its last byte is not. -/
theorem not_ascii_getLast {pre block : List UInt8} (hne : pre ≠ []) (hsub : pre ⊆ block)
    (hhigh : ∀ b ∈ block, 0x80 ≤ b) : ¬ ∀ c, pre.getLast? = some c → c < 0x80 := by
  intro hpre
  have hlow := hpre _ (List.getLast?_eq_some_getLast hne)
  exact absurd (hhigh _ (hsub (List.getLast_mem hne))) (UInt8.not_le.mpr hlow)

/-- An isolated byte after a block of bytes outside ASCII is not in the block. -/
theorem Isolated.of_block {block text : List UInt8} (hlen : 2 ≤ block.length)
    (hhigh : ∀ b ∈ block, 0x80 ≤ b) (h : Isolated (block ++ text)) : Isolated text := by
  obtain ⟨pre, c, post, heq, hc, hpre, hpost⟩ := h
  have hblock : block ≠ [] := List.ne_nil_of_length_pos (by omega)
  rcases List.append_eq_append_iff.mp heq with ⟨a, rfl, rfl⟩ | ⟨a, rfl, hrest⟩
  · -- The byte lies in the text after the block.
    cases a with
    | nil => exact absurd hpre (not_ascii_getLast (by simpa using hblock) (by simp) hhigh)
    | cons x a =>
      refine ⟨x :: a, c, post, rfl, hc, ?_, hpost⟩
      intro d hd
      refine hpre d ?_
      rw [List.getLast?_append, hd, Option.some_or]
  · cases a with
    | nil =>
      rw [List.append_nil] at hblock hhigh
      exact absurd hpre (not_ascii_getLast hblock (List.Subset.refl _) hhigh)
    | cons x a =>
      obtain ⟨rfl, rfl⟩ := List.cons.inj hrest
      cases a with
      | nil =>
        have hne : pre ≠ [] := by
          rintro rfl
          simp at hlen
        exact absurd hpre (not_ascii_getLast hne (List.subset_append_left _ _) hhigh)
      | cons y a =>
        have hlow := hpost y rfl
        exact absurd (hhigh y (by simp)) (UInt8.not_le.mpr hlow)

theorem not_isolated_encode (chars : List Char) :
    ¬ Isolated (chars.flatMap String.utf8EncodeChar) := by
  induction chars with
  | nil =>
    rintro ⟨pre, b, post, heq, -⟩
    simp at heq
  | cons c chars ih =>
    rw [List.flatMap_cons]
    intro h
    rcases encodeChar_cases c with ⟨b, hchar, hb⟩ | ⟨hlen, hhigh⟩
    · rw [hchar] at h
      exact ih (h.of_ascii hb)
    · exact ih (h.of_block hlen hhigh)

theorem not_isolated {text : List UInt8} (h : text.toByteArray.IsValidUTF8) : ¬ Isolated text := by
  obtain ⟨chars, hchars⟩ := h
  have htext : text = chars.flatMap String.utf8EncodeChar := by
    simpa [List.utf8Encode] using congrArg ByteArray.data hchars
  rw [htext]
  exact not_isolated_encode chars

end Utf8
