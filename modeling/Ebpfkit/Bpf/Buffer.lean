-- SUMMARY: A buffer of bytes at fixed addresses, the memory that exposes it, and where a pattern occurs in it.
import Ebpfkit.Bpf.Rules

/-!
# Buffers

A buffer is the stretch of an address space between two addresses. Its contents
are a function of the address, so that a window of it needs no index arithmetic
on lists. The memory that exposes a buffer answers byte loads inside it and
nothing else.
-/

namespace Bpf

/-- The `len` bytes from address `start` on. -/
def window (content : Nat → UInt8) (start len : Nat) : List UInt8 :=
  (List.range len).map fun i => content (start + i)

/-- The bytes of the addresses from `start` up to, but not including, `stop`.
    There are none if `stop` does not lie above `start`. -/
def bytesBetween (content : Nat → UInt8) (start stop : Nat) : List UInt8 :=
  window content start (stop - start)

/-- Byte loads between `start` and `stop` succeed. -/
def bufferByte (content : Nat → UInt8) (start stop : Nat) (a : Word) : Option UInt8 :=
  if start ≤ a.toNat ∧ a.toNat < stop then some (content a.toNat) else none

/-- A memory that holds nothing but a buffer. -/
def bufferMemory (content : Nat → UInt8) (start stop : Nat) : Memory where
  byte := bufferByte content start stop
  word := fun _ => none

/-- A memory with a buffer and a context at address `ctx`, which holds the two
    ends of the buffer as 32-bit words. -/
def contextMemory (content : Nat → UInt8) (ctx : Word) (start stop : BitVec 32) : Memory where
  byte := bufferByte content start.toNat stop.toNat
  word := fun a => if a = ctx then some start else if a = ctx + 4 then some stop else none

variable {content : Nat → UInt8} {start stop : Nat}

/-! ## Windows -/

@[simp] theorem length_window (start len : Nat) : (window content start len).length = len := by
  simp [window]

theorem window_succ (start len : Nat) :
    window content start (len + 1) = content start :: window content (start + 1) len := by
  simp only [window, List.range_succ_eq_map, List.map_cons, List.map_map, Nat.add_zero,
    List.cons.injEq, true_and]
  apply List.map_congr_left
  intro i _
  exact congrArg content (Nat.add_right_comm start i 1)

theorem getElem?_window {start len i : Nat} (h : i < len) :
    (window content start len)[i]? = some (content (start + i)) := by
  simp [window, h]

theorem window_eq_iff {pattern : List UInt8} :
    window content start pattern.length = pattern ↔
      ∀ i (h : i < pattern.length), content (start + i) = pattern[i] := by
  constructor
  · intro heq i hi
    have hget : (window content start pattern.length)[i]? = some (content (start + i)) :=
      getElem?_window hi
    rw [heq, List.getElem?_eq_getElem hi, Option.some.injEq] at hget
    exact hget.symm
  · intro h
    apply List.ext_getElem (length_window _ _)
    intro i _ hi
    simp [window, h i hi]

/-- A pattern is a prefix of a window if it fits and agrees at its start. -/
theorem isPrefix_window {pattern : List UInt8} {len : Nat} :
    pattern <+: window content start len ↔
      pattern.length ≤ len ∧ window content start pattern.length = pattern := by
  rw [List.prefix_iff_getElem?, window_eq_iff]
  constructor
  · intro h
    have hle : pattern.length ≤ len := by
      by_contra hgt
      have := h len (by omega)
      simp [window] at this
    refine ⟨hle, fun i hi => ?_⟩
    have := h i hi
    rw [getElem?_window (by omega), Option.some.injEq] at this
    exact this
  · rintro ⟨hle, h⟩ i hi
    rw [getElem?_window (by omega), h i hi]

/-- A pattern occurs in a window if it agrees with some window inside it. -/
theorem isInfix_window {pattern : List UInt8} {len : Nat} :
    pattern <:+: window content start len ↔
      ∃ k, pattern.length + k ≤ len ∧ window content (start + k) pattern.length = pattern := by
  simp only [List.infix_iff_getElem?, window_eq_iff, length_window]
  refine exists_congr fun k => and_congr_right fun hk => forall_congr' fun i =>
    forall_congr' fun hi => ?_
  rw [getElem?_window (by omega), Option.some.injEq, Nat.add_assoc, Nat.add_comm i k]

/-! ## Loads -/

/-- A byte load at an offset that stays inside the buffer. -/
theorem bufferByte_at {base : Word} {offset : Nat} (hlo : start ≤ base.toNat)
    (hhi : base.toNat + offset < stop) (hstop : stop ≤ 2 ^ 64) :
    bufferByte content start stop (base + BitVec.ofNat 64 offset) =
      some (content (base.toNat + offset)) := by
  have haddr : (base + BitVec.ofNat 64 offset).toNat = base.toNat + offset := by
    rw [BitVec.toNat_add, BitVec.toNat_ofNat]
    omega
  rw [bufferByte, haddr, if_pos ⟨by omega, hhi⟩]

end Bpf
