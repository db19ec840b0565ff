-- SUMMARY: What the model takes from Rust: pointer widths, `usize` arithmetic, `Vec` capacity, and the outcomes of a call.
import Ebpfkit.GrowingVec
import Mathlib.Algebra.Order.Ring.Nat
import Mathlib.Tactic.Common

/-!
# Rust in the model

Sizes are natural numbers. Where the source adds and multiplies them without a
check, the arithmetic is a parameter: a release build wraps at the width of
`usize`, and exact arithmetic is the reading in which nothing wraps. A build that
checks such arithmetic panics where a release build wraps; it is not a third reading.
-/

namespace Ebpfkit

/-- The pointer widths the crate is built for. -/
inductive Arch where
  | bits32
  | bits64
  deriving DecidableEq, Repr

def Arch.width : Arch → Nat
  | .bits32 => 32
  | .bits64 => 64

/-- How unchecked `usize` arithmetic is read. -/
inductive Usize where
  | exact
  | wrapping (arch : Arch)
  deriving DecidableEq, Repr

namespace Usize

/-- The value an expression with the integer value `n` takes. -/
def wrap : Usize → Nat → Nat
  | .exact, n => n
  | .wrapping arch, n => n % 2 ^ arch.width

/-- A `Vec` panics rather than hold more than `isize::MAX` bytes. -/
def fitsVec (elemSize len : Nat) : Usize → Bool
  | .exact => true
  | .wrapping arch => elemSize * len < 2 ^ (arch.width - 1)

@[simp] theorem wrap_exact (n : Nat) : wrap .exact n = n := rfl

theorem wrap_of_lt {n : Nat} (u : Usize) (h : n < 2 ^ 32) : u.wrap n = n := by
  cases u with
  | exact => rfl
  | wrapping arch => cases arch <;> exact Nat.mod_eq_of_lt (by simp only [Arch.width]; omega)

theorem fitsVec_of_lt {elemSize len : Nat} (u : Usize) (h : elemSize * len < 2 ^ 31) :
    u.fitsVec elemSize len = true := by
  cases u with
  | exact => rfl
  | wrapping arch =>
    cases arch <;> exact decide_eq_true (by simp only [Arch.width]; omega)

/-- A length that a `Vec` can hold is not changed by wrapping. -/
theorem wrap_of_fitsVec {u : Usize} {elemSize n : Nat} (hpos : 0 < elemSize)
    (h : u.fitsVec elemSize n = true) : u.wrap n = n := by
  cases u with
  | exact => rfl
  | wrapping arch =>
    simp only [fitsVec, decide_eq_true_eq] at h
    have hle : n ≤ elemSize * n := Nat.le_mul_of_pos_left n hpos
    have hpow : 2 ^ (arch.width - 1) ≤ 2 ^ arch.width :=
      Nat.pow_le_pow_right (by omega) (by omega)
    exact Nat.mod_eq_of_lt (by omega)

/-- Wrapping an operand first does not change a wrapped sum. -/
theorem wrap_add_wrap (u : Usize) (a b : Nat) : u.wrap (a + u.wrap b) = u.wrap (a + b) := by
  cases u with
  | exact => rfl
  | wrapping arch => simp only [wrap, Nat.add_mod_mod]

end Usize

/-! ## Checked arithmetic -/

/-- The target, and whether overflow of unmarked arithmetic is checked. -/
structure Build where
  arch : Arch
  overflowChecks : Bool
  deriving DecidableEq, Repr

namespace Arch

def usizeMax (arch : Arch) : Nat := 2 ^ arch.width - 1

def checkedAdd (arch : Arch) (a b : Nat) : Option Nat :=
  if a + b ≤ arch.usizeMax then some (a + b) else none

def checkedMul (arch : Arch) (a b : Nat) : Option Nat :=
  if a * b ≤ arch.usizeMax then some (a * b) else none

def saturatingAdd (arch : Arch) (a b : Nat) : Nat := min (a + b) arch.usizeMax

end Arch

/-- An unmarked addition of two integers of `width` bits. A build with overflow
    checks panics where the others wrap. -/
def Build.add (build : Build) (width a b : Nat) : Option Nat :=
  if a + b < 2 ^ width then some (a + b)
  else if build.overflowChecks then none
  else some ((a + b) % 2 ^ width)

theorem Build.add_of_lt (build : Build) {width a b : Nat} (h : a + b < 2 ^ width) :
    build.add width a b = some (a + b) :=
  if_pos h

/-- Where an addition returns, it wraps. -/
theorem Build.add_eq_mod {build : Build} {width a b c : Nat} (h : build.add width a b = some c) :
    c = (a + b) % 2 ^ width := by
  unfold Build.add at h
  split at h
  · next hlt =>
    rw [Nat.mod_eq_of_lt hlt]
    exact (Option.some.inj h).symm
  · split at h
    · exact absurd h (by simp)
    · exact (Option.some.inj h).symm

/-- The same target, with overflow checks. -/
@[reducible] def Build.checked (build : Build) : Build := { build with overflowChecks := true }

/-- How a call ends: with `Ok`, with `Err`, or by unwinding from a panic. -/
inductive Outcome (ε α : Type) where
  | ok (a : α)
  | err (e : ε)
  | panicked
  deriving DecidableEq, Repr

namespace Outcome

variable {ε α β : Type}

/-- The `?` operator: go on with the value of an `Ok`, return anything else. -/
def andThen (r : Outcome ε α) (k : α → Outcome ε β) : Outcome ε β :=
  match r with
  | .ok a => k a
  | .err e => .err e
  | .panicked => .panicked

@[simp] theorem ok_andThen (a : α) (k : α → Outcome ε β) : (ok a).andThen k = k a := rfl

@[simp] theorem err_andThen (e : ε) (k : α → Outcome ε β) : (err e : Outcome ε α).andThen k = .err e :=
  rfl

theorem andThen_eq_ok {r : Outcome ε α} {k : α → Outcome ε β} {b : β} :
    r.andThen k = .ok b ↔ ∃ a, r = .ok a ∧ k a = .ok b := by
  cases r with
  | ok a => simp [andThen]
  | err e => simp [andThen]
  | panicked => simp [andThen]

theorem andThen_eq_err {r : Outcome ε α} {k : α → Outcome ε β} {e : ε} :
    r.andThen k = .err e ↔ r = .err e ∨ ∃ a, r = .ok a ∧ k a = .err e := by
  cases r with
  | ok a => simp [andThen]
  | err e => simp [andThen]
  | panicked => simp [andThen]

/-- Mapping the value does not change the error. -/
theorem andThen_ok_eq_err {r : Outcome ε α} {f : α → β} {e : ε} :
    r.andThen (fun a => .ok (f a)) = .err e ↔ r = .err e := by
  simp [andThen_eq_err]

theorem andThen_ne_panicked {r : Outcome ε α} {k : α → Outcome ε β} (hr : r ≠ .panicked)
    (hk : ∀ a, k a ≠ .panicked) : r.andThen k ≠ .panicked := by
  cases r with
  | ok a => exact hk a
  | err e => simp [andThen]
  | panicked => exact absurd rfl hr

/-- Mapping the value does not change whether there is one. -/
theorem exists_andThen_ok {r : Outcome ε α} {f : α → β} :
    (∃ b, r.andThen (fun a => .ok (f a)) = .ok b) ↔ ∃ a, r = .ok a := by
  cases r with
  | ok a => simp [andThen]
  | err e => simp [andThen]
  | panicked => simp [andThen]

end Outcome

/-! ## Vectors that grow -/

namespace Usize

variable {ε α : Type}

/-- A `Vec` of elements of this size can come to hold so many. -/
def holds (u : Usize) (elemSize len : Nat) : Bool := u.fitsVec elemSize (grownCapacity len)

/-- `push`, and `extend` by a slice. -/
def extendVec (u : Usize) (elemSize : Nat) (vec : GrowingVec α) (items : List α) :
    Outcome ε (GrowingVec α) :=
  match vec.extend (u.fitsVec elemSize) items with
  | some vec => .ok vec
  | none => .panicked

theorem fitsVec_mono {u : Usize} {size size' len len' : Nat} (hle : size * len ≤ size' * len')
    (h : u.fitsVec size' len' = true) : u.fitsVec size len = true := by
  cases u with
  | exact => rfl
  | wrapping arch => exact decide_eq_true (Nat.lt_of_le_of_lt hle (of_decide_eq_true h))

theorem holds_mono {u : Usize} {size len len' : Nat} (hle : len ≤ len')
    (h : u.holds size len' = true) : u.holds size len = true :=
  fitsVec_mono (Nat.mul_le_mul_left size (grownCapacity_mono hle)) h

theorem holds_zero (u : Usize) (size : Nat) : u.holds size 0 = true :=
  u.fitsVec_of_lt (by simp [grownCapacity_zero])

theorem extendVec_of {u : Usize} {size : Nat} {elems items : List α} (hitems : items.length ≤ 4)
    (h : u.holds size elems.length = true) :
    (u.extendVec size (.of elems) items : Outcome ε (GrowingVec α)) =
      if u.holds size (elems.length + items.length) then .ok (.of (elems ++ items))
      else .panicked := by
  have hextend : (GrowingVec.of elems).extend (u.fitsVec size) items =
      if u.holds size (elems.length + items.length) then some (.of (elems ++ items)) else none :=
    GrowingVec.extend_of hitems h
  rw [extendVec, hextend]
  cases u.holds size (elems.length + items.length) with
  | true => rfl
  | false => rfl

theorem extendVec_of_holds {u : Usize} {size : Nat} {elems items : List α} (hitems : items.length ≤ 4)
    (h : u.holds size (elems.length + items.length) = true) :
    (u.extendVec size (.of elems) items : Outcome ε (GrowingVec α)) = .ok (.of (elems ++ items)) := by
  rw [extendVec_of hitems (holds_mono (Nat.le_add_right _ _) h), if_pos h]

end Usize

/-! ## The operating system -/

/-- `RawFd`: an `i32` that names a descriptor of the process. -/
abbrev RawFd := Int32

/-- `std::io::ErrorKind`, as far as the crate tells kinds apart. -/
inductive ErrorKind where
  | invalidInput
  | invalidData
  | interrupted
  | other
  deriving DecidableEq, Repr

/-- `std::io::Error`: its kind, and the text it displays as. -/
structure IoError where
  kind : ErrorKind
  message : String
  deriving DecidableEq, Repr

end Ebpfkit
