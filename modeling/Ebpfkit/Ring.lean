-- SUMMARY: Cells at positions that wrap around, words stored in them, and consecutive segments of positions.
import Mathlib.Logic.Function.Basic
import Mathlib.Algebra.Order.Ring.Nat
import Mathlib.Tactic.Common

/-!
# Rings

A ring has finitely many cells. Positions are unbounded and grow; a position
names a cell by its remainder. Two positions of a window no longer than the ring
name different cells, which is what the frame lemmas below rest on.
-/

namespace Ring

/-! ## Cells -/

section Cells

variable {β : Type} {size : Nat} {cells : Nat → β} {lo pos q : Nat} {b : β}

def read (size : Nat) (cells : Nat → β) (pos : Nat) : β := cells (pos % size)

def write (size : Nat) (cells : Nat → β) (pos : Nat) (b : β) : Nat → β :=
  Function.update cells (pos % size) b

/-- The cells of `len` positions from `pos` on. -/
def slice (size : Nat) (cells : Nat → β) (pos len : Nat) : List β :=
  (List.range len).map fun i => read size cells (pos + i)

/-- The two positions lie in a window from `lo` on that is no longer than the ring. -/
structure Window (size lo pos q : Nat) : Prop where
  left : lo ≤ pos ∧ pos < lo + size
  right : lo ≤ q ∧ q < lo + size

theorem Window.mod_ne (h : Window size lo pos q) (hne : pos ≠ q) : pos % size ≠ q % size := by
  intro heq
  obtain ⟨⟨hleft, hleft'⟩, hright, hright'⟩ := h
  rcases Nat.lt_or_gt_of_ne hne with hlt | hlt
  · have hdvd : size ∣ q - pos := Nat.dvd_of_mod_eq_zero (Nat.sub_mod_eq_zero_of_mod_eq heq.symm)
    have hle := Nat.le_of_dvd (by omega) hdvd
    omega
  · have hdvd : size ∣ pos - q := Nat.dvd_of_mod_eq_zero (Nat.sub_mod_eq_zero_of_mod_eq heq)
    have hle := Nat.le_of_dvd (by omega) hdvd
    omega

@[simp] theorem read_write_self : read size (write size cells pos b) pos = b := by
  simp [read, write]

theorem read_write (h : Window size lo pos q) (hne : pos ≠ q) :
    read size (write size cells q b) pos = read size cells pos :=
  Function.update_of_ne (h.mod_ne hne) _ _

/-- A position can be reduced before an offset is added. -/
theorem read_mod_add (pos i : Nat) : read size cells (pos % size + i) = read size cells (pos + i) := by
  rw [read, read, Nat.mod_add_mod]

theorem slice_mod_add (pos i len : Nat) :
    slice size cells (pos % size + i) len = slice size cells (pos + i) len := by
  apply List.map_congr_left
  intro j _
  rw [Nat.add_assoc, read_mod_add, Nat.add_assoc]

end Cells

/-- The cells of the positions from `start` up to `stop` have the same contents. -/
def SameBetween {β : Type} (size : Nat) (cells cells' : Nat → β) (start stop : Nat) : Prop :=
  ∀ pos, start ≤ pos → pos < stop → read size cells' pos = read size cells pos

theorem SameBetween.slice_eq {β : Type} {size start stop pos len : Nat} {cells cells' : Nat → β}
    (h : SameBetween size cells cells' start stop) (hstart : start ≤ pos) (hstop : pos + len ≤ stop) :
    slice size cells' pos len = slice size cells pos len := by
  apply List.map_congr_left
  intro i hi
  have hlt := List.mem_range.mp hi
  exact h _ (by omega) (by omega)

/-! ## Words -/

section Words

variable {size : Nat} {bytes bytes' : Nat → UInt8} {pos : Nat}

/-- Four bytes as a word, the lowest first. -/
def word (b0 b1 b2 b3 : UInt8) : UInt32 :=
  UInt32.ofNat (b0.toNat + 256 * b1.toNat + 65536 * b2.toNat + 16777216 * b3.toNat)

/-- A byte of a word. -/
def byte (w : UInt32) (i : Nat) : UInt8 := UInt8.ofNat (w.toNat / 256 ^ i)

def readWord (size : Nat) (bytes : Nat → UInt8) (pos : Nat) : UInt32 :=
  word (read size bytes pos) (read size bytes (pos + 1)) (read size bytes (pos + 2))
    (read size bytes (pos + 3))

def writeWord (size : Nat) (bytes : Nat → UInt8) (pos : Nat) (w : UInt32) : Nat → UInt8 :=
  write size (write size (write size (write size bytes pos (byte w 0)) (pos + 1) (byte w 1))
    (pos + 2) (byte w 2)) (pos + 3) (byte w 3)

theorem word_byte (w : UInt32) : word (byte w 0) (byte w 1) (byte w 2) (byte w 3) = w := by
  apply UInt32.toNat.inj
  have hlt := w.toNat_lt
  simp only [word, byte, UInt8.toNat_ofNat', UInt32.toNat_ofNat']
  omega

theorem readWord_mod (pos : Nat) : readWord size bytes (pos % size) = readWord size bytes pos := by
  have hread := fun i => @read_mod_add UInt8 size bytes pos i
  have hzero := hread 0
  rw [Nat.add_zero, Nat.add_zero] at hzero
  rw [readWord, readWord, hzero, hread 1, hread 2, hread 3]

theorem readWord_writeWord (h : 4 ≤ size) (w : UInt32) :
    readWord size (writeWord size bytes pos w) pos = w := by
  have hskip : ∀ (cells : Nat → UInt8) (b : UInt8) (i j : Nat), i < j → j < 4 →
      read size (write size cells (pos + j) b) (pos + i) = read size cells (pos + i) := by
    intro cells b i j hij hj
    have hwindow : Window size pos (pos + i) (pos + j) := ⟨by omega, by omega⟩
    exact read_write hwindow (by omega)
  have h0 : read size (writeWord size bytes pos w) pos = byte w 0 := by
    change read size _ (pos + 0) = _
    rw [writeWord, hskip _ _ 0 3 (by omega) (by omega), hskip _ _ 0 2 (by omega) (by omega),
      hskip _ _ 0 1 (by omega) (by omega)]
    exact read_write_self
  have h1 : read size (writeWord size bytes pos w) (pos + 1) = byte w 1 := by
    rw [writeWord, hskip _ _ 1 3 (by omega) (by omega), hskip _ _ 1 2 (by omega) (by omega)]
    exact read_write_self
  have h2 : read size (writeWord size bytes pos w) (pos + 2) = byte w 2 := by
    rw [writeWord, hskip _ _ 2 3 (by omega) (by omega)]
    exact read_write_self
  have h3 : read size (writeWord size bytes pos w) (pos + 3) = byte w 3 := read_write_self
  rw [readWord, h0, h1, h2, h3, word_byte]

/-- Writing a word changes its four bytes only. -/
theorem read_writeWord {lo q : Nat} {w : UInt32} (hpos : lo ≤ pos ∧ pos < lo + size)
    (hq : lo ≤ q ∧ q + 4 ≤ lo + size) (houtside : pos < q ∨ q + 4 ≤ pos) :
    read size (writeWord size bytes q w) pos = read size bytes pos := by
  have hskip : ∀ (cells : Nat → UInt8) (b : UInt8) (i : Nat), i < 4 →
      read size (write size cells (q + i) b) pos = read size cells pos := by
    intro cells b i hi
    have hwindow : Window size lo pos (q + i) := ⟨hpos, by omega, by omega⟩
    exact read_write hwindow (by omega)
  rw [writeWord, hskip _ _ 3 (by omega), hskip _ _ 2 (by omega), hskip _ _ 1 (by omega)]
  exact hskip _ _ 0 (by omega)

theorem SameBetween.readWord_eq {start stop : Nat} (h : SameBetween size bytes bytes' start stop)
    (hstart : start ≤ pos) (hstop : pos + 4 ≤ stop) :
    readWord size bytes' pos = readWord size bytes pos := by
  rw [readWord, readWord, h pos hstart (by omega), h (pos + 1) (by omega) (by omega),
    h (pos + 2) (by omega) (by omega), h (pos + 3) (by omega) (by omega)]

end Words

/-! ## Consecutive segments -/

section Chain

variable {α : Type} {start len : α → Nat} {a b : Nat} {r : α} {l : List α}

/-- The segments lie one after the other, from `a` to `b`. -/
def Chain (start len : α → Nat) : Nat → List α → Nat → Prop
  | a, [], b => a = b
  | a, r :: rest, b => start r = a ∧ Chain start len (a + len r) rest b

theorem Chain.append {c : Nat} {l' : List α} (h : Chain start len a l b)
    (h' : Chain start len b l' c) : Chain start len a (l ++ l') c := by
  induction l generalizing a with
  | nil =>
    obtain rfl : a = b := h
    exact h'
  | cons r rest ih => exact ⟨h.1, ih h.2⟩

theorem Chain.split {l' : List α} (h : Chain start len a (l ++ l') b) :
    ∃ m, Chain start len a l m ∧ Chain start len m l' b := by
  induction l generalizing a with
  | nil => exact ⟨a, rfl, h⟩
  | cons r rest ih =>
    obtain ⟨m, hleft, hright⟩ := ih h.2
    exact ⟨m, ⟨h.1, hleft⟩, hright⟩

theorem Chain.le (h : Chain start len a l b) : a ≤ b := by
  induction l generalizing a with
  | nil => exact Nat.le_of_eq h
  | cons r rest ih => exact Nat.le_trans (Nat.le_add_right _ _) (ih h.2)

/-- Every segment lies between the ends. -/
theorem Chain.bounds (h : Chain start len a l b) (hmem : r ∈ l) :
    a ≤ start r ∧ start r + len r ≤ b := by
  induction l generalizing a with
  | nil => exact absurd hmem List.not_mem_nil
  | cons x rest ih =>
    obtain ⟨rfl, hrest⟩ := h
    rcases List.mem_cons.mp hmem with rfl | hmem
    · exact ⟨Nat.le_refl _, hrest.le⟩
    · obtain ⟨hlow, hhigh⟩ := ih hrest hmem
      exact ⟨Nat.le_trans (Nat.le_add_right _ _) hlow, hhigh⟩

/-- A segment lies behind those before it, and in front of those after it. -/
theorem Chain.apart {front back : List α} {x : α} (h : Chain start len a (front ++ r :: back) b) :
    (x ∈ front → start x + len x ≤ start r) ∧ (x ∈ back → start r + len r ≤ start x) := by
  obtain ⟨m, hfront, rfl, hback⟩ := h.split
  exact ⟨fun hmem => (hfront.bounds hmem).2, fun hmem => (hback.bounds hmem).1⟩

/-- A segment can be replaced by one in the same place. -/
theorem Chain.replace {front back : List α} {r' : α} (h : Chain start len a (front ++ r :: back) b)
    (hstart : start r' = start r) (hlen : len r' = len r) :
    Chain start len a (front ++ r' :: back) b := by
  obtain ⟨m, hfront, hr, hback⟩ := h.split
  refine hfront.append ⟨hstart.trans hr, ?_⟩
  rw [hlen]
  exact hback

end Chain

end Ring
