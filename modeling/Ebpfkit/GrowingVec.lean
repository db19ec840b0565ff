-- SUMMARY: A vector that doubles its capacity when it is full, and fails when too large a capacity would be needed.
import Mathlib.Algebra.Order.Ring.Nat
import Mathlib.Tactic.Common

/-!
# Growing vectors

A vector has a capacity and is given more when elements no longer fit: twice as
much, from four on. Which capacities can be allocated is a parameter. As long as a
vector grows by a few elements at a time its length determines the capacity, and
hence whether it could come to hold that many.
-/

/-- What the vector holds, and how many elements it has room for. -/
structure GrowingVec (α : Type) where
  elems : List α
  capacity : Nat
  deriving DecidableEq, Repr

/-- The least power of two, from four on, that is no smaller than the length. Nothing is allocated
    for an empty vector. -/
def grownCapacity (len : Nat) : Nat :=
  if len = 0 then 0 else 2 ^ max 2 (Nat.log2 (len - 1) + 1)

theorem grownCapacity_zero : grownCapacity 0 = 0 := rfl

/-- The powers of two bound a length and its capacity alike. -/
theorem grownCapacity_le_two_pow {len k : Nat} :
    grownCapacity len ≤ 2 ^ (k + 2) ↔ len ≤ 2 ^ (k + 2) := by
  unfold grownCapacity
  split
  · next hzero => simp [hzero]
  · next hpos =>
    have hpow : 0 < 2 ^ (k + 2) := Nat.two_pow_pos _
    rw [Nat.pow_le_pow_iff_right (by omega), Nat.max_le]
    by_cases hone : len - 1 = 0
    · have hlog : Nat.log2 (len - 1) = 0 := by rw [hone]; rfl
      omega
    · have hlog := Nat.log2_lt (k := k + 2) hone
      omega

theorem exists_grownCapacity {len : Nat} (h : len ≠ 0) : ∃ k, grownCapacity len = 2 ^ (k + 2) := by
  refine ⟨max 2 (Nat.log2 (len - 1) + 1) - 2, ?_⟩
  rw [grownCapacity, if_neg h]
  congr 1
  omega

theorem le_grownCapacity (len : Nat) : len ≤ grownCapacity len := by
  rcases Nat.eq_zero_or_pos len with rfl | hpos
  · exact Nat.zero_le _
  · obtain ⟨k, hk⟩ := exists_grownCapacity hpos.ne'
    rw [hk]
    exact grownCapacity_le_two_pow.mp hk.le

theorem grownCapacity_mono {len len' : Nat} (h : len ≤ len') :
    grownCapacity len ≤ grownCapacity len' := by
  rcases Nat.eq_zero_or_pos len' with rfl | hpos
  · rw [Nat.le_zero.mp h]
  · obtain ⟨k, hk⟩ := exists_grownCapacity hpos.ne'
    rw [hk]
    exact grownCapacity_le_two_pow.mpr (h.trans (grownCapacity_le_two_pow.mp hk.le))

/-- Four times as many elements need at most four times the capacity. -/
theorem grownCapacity_four_mul (len : Nat) : grownCapacity (4 * len) ≤ 4 * grownCapacity len := by
  rcases Nat.eq_zero_or_pos len with rfl | hpos
  · rfl
  · obtain ⟨k, hk⟩ := exists_grownCapacity hpos.ne'
    have hlen : len ≤ 2 ^ (k + 2) := grownCapacity_le_two_pow.mp hk.le
    have hpow : 2 ^ (k + 2 + 2) = 4 * 2 ^ (k + 2) := by rw [Nat.pow_add _ (k + 2) 2, Nat.mul_comm]
    rw [hk, ← hpow]
    exact grownCapacity_le_two_pow.mpr (by omega)

/-- A few more elements either fit, or the capacity for them is twice what there was. -/
theorem grownCapacity_add {len n : Nat} (hn : n ≤ 4) (hfull : grownCapacity len < len + n) :
    grownCapacity (len + n) = max 4 (max (2 * grownCapacity len) (len + n)) := by
  rcases Nat.eq_zero_or_pos len with rfl | hpos
  · have hne : 0 + n ≠ 0 := by rw [grownCapacity_zero] at hfull; omega
    obtain ⟨k, hk⟩ := exists_grownCapacity hne
    have hle : grownCapacity (0 + n) ≤ 2 ^ (0 + 2) := grownCapacity_le_two_pow.mpr (by omega)
    have hge : 2 ^ 2 ≤ 2 ^ (k + 2) := Nat.pow_le_pow_right (by omega) (by omega)
    rw [grownCapacity_zero]
    omega
  · obtain ⟨k, hk⟩ := exists_grownCapacity hpos.ne'
    obtain ⟨k', hk'⟩ := exists_grownCapacity (show len + n ≠ 0 by omega)
    have hlen := le_grownCapacity len
    have hfour : 2 ^ 2 ≤ 2 ^ (k + 2) := Nat.pow_le_pow_right (by omega) (by omega)
    have hdouble : 2 ^ (k + 1 + 2) = 2 * 2 ^ (k + 2) := by rw [← Nat.pow_succ']
    -- The new length lies between the old capacity and its double.
    have hle : grownCapacity (len + n) ≤ 2 ^ (k + 1 + 2) :=
      grownCapacity_le_two_pow.mpr (by omega)
    have hlt : 2 ^ (k + 2) < 2 ^ (k' + 2) := by
      have := le_grownCapacity (len + n)
      omega
    have hexp : k + 2 < k' + 2 := (Nat.pow_lt_pow_iff_right (by omega)).mp hlt
    have hge : 2 ^ (k + 1 + 2) ≤ 2 ^ (k' + 2) := Nat.pow_le_pow_right (by omega) (by omega)
    omega

namespace GrowingVec

variable {α : Type}

/-- The vector that has come to hold these elements. -/
def of (elems : List α) : GrowingVec α := ⟨elems, grownCapacity elems.length⟩

@[simp] theorem of_elems (elems : List α) : (of elems).elems = elems := rfl

/-- Reserve room for what is added, then add it. -/
def extend (fits : Nat → Bool) (vec : GrowingVec α) (items : List α) : Option (GrowingVec α) :=
  let required := vec.elems.length + items.length
  if required ≤ vec.capacity then
    some ⟨vec.elems ++ items, vec.capacity⟩
  else
    let capacity := max 4 (max (2 * vec.capacity) required)
    if fits capacity then some ⟨vec.elems ++ items, capacity⟩ else none

/-- Adding a few elements fails exactly if the capacity for all of them cannot be allocated. -/
theorem extend_of {fits : Nat → Bool} {elems items : List α} (hitems : items.length ≤ 4)
    (hfits : fits (grownCapacity elems.length) = true) :
    (of elems).extend fits items =
      if fits (grownCapacity (elems.length + items.length)) then some (of (elems ++ items))
      else none := by
  have hsum : (of (elems ++ items)).capacity = grownCapacity (elems.length + items.length) := by
    rw [of, List.length_append]
  by_cases hroom : elems.length + items.length ≤ grownCapacity elems.length
  · have hextend : (of elems).extend fits items =
        some ⟨elems ++ items, grownCapacity elems.length⟩ := if_pos hroom
    have hcapacity : grownCapacity (elems.length + items.length) = grownCapacity elems.length := by
      apply le_antisymm
      · by_cases hzero : elems.length = 0
        · rw [hzero, grownCapacity_zero] at hroom
          rw [hzero, Nat.le_zero.mp hroom]
        · obtain ⟨k, hk⟩ := exists_grownCapacity hzero
          rw [hk] at hroom ⊢
          exact grownCapacity_le_two_pow.mpr hroom
      · exact grownCapacity_mono (Nat.le_add_right _ _)
    rw [hextend, hcapacity, if_pos hfits, ← hcapacity, ← hsum]
    rfl
  · have hextend : (of elems).extend fits items =
        if fits (max 4 (max (2 * grownCapacity elems.length) (elems.length + items.length))) then
          some ⟨elems ++ items,
            max 4 (max (2 * grownCapacity elems.length) (elems.length + items.length))⟩
        else none := if_neg hroom
    rw [hextend, ← grownCapacity_add hitems (Nat.not_le.mp hroom), ← hsum]
    rfl

end GrowingVec
