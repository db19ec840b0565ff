-- SUMMARY: The ring-buffer consumer as a transition system: one step for each atomic access and each callback.
import Ebpfkit.Lts
import Ebpfkit.Rust

/-!
# The ring-buffer consumer

`consume_ring_records` of `src/loader/ringbuf.rs`. Everything it does between two
accesses to shared memory is a function of its local variables and of the last
value it read; the functions below carry the names of the source. `Step` puts
them together: a control state says which access comes next, and the action of a
step carries the value that the access returned.
-/

namespace Ebpfkit

def BPF_RINGBUF_BUSY_BIT : UInt32 := (1 : UInt32) <<< 31
def BPF_RINGBUF_DISCARD_BIT : UInt32 := (1 : UInt32) <<< 30
def BPF_RINGBUF_HDR_SZ : Nat := 8

/-! ## Helpers -/

/-- The slice stays within the data pages, which are mapped twice. -/
def recordWithinMapping (arch : Arch) (dataOffset dataLen ringSize : Nat) : Bool :=
  match arch.checkedAdd dataOffset dataLen, arch.checkedMul ringSize 2 with
  | some stop, some bound => decide (stop ≤ bound)
  | _, _ => false

/-- The header and the data, rounded up to a multiple of eight. The mask is the
    complement of seven. -/
def roundRecordLen (arch : Arch) (dataLen : Nat) : Nat :=
  let total := arch.saturatingAdd dataLen BPF_RINGBUF_HDR_SZ
  arch.saturatingAdd total 7 &&& (arch.usizeMax - 7)

/-- The length bits of a header word. -/
def dataLen (rawLen : UInt32) : Nat :=
  (rawLen &&& ~~~(BPF_RINGBUF_BUSY_BIT ||| BPF_RINGBUF_DISCARD_BIT)).toNat

/-- What consumption needs of a mapped ring: the mask. The size of a ring is a
    power of two, at least a header, that a `usize` can hold. -/
structure RingbufConsumer (arch : Arch) where
  mask : Nat
  order : Nat
  mask_eq : mask = 2 ^ order - 1
  order_ge : 3 ≤ order
  order_lt : order < arch.width

def RingbufConsumer.ringSize {arch : Arch} (consumer : RingbufConsumer arch) : Nat :=
  2 ^ consumer.order

/-- `RingbufConsumer::new` maps the producer page and the data pages twice, if that
    length does not overflow. -/
def mappingLen (arch : Arch) (ringSize pageSize : Nat) : Option Nat :=
  (arch.checkedMul ringSize 2).bind fun doubled => arch.checkedAdd pageSize doubled

/-- A ring of one page, the smallest that the kernel creates. -/
def pageRing : RingbufConsumer .bits64 := ⟨4095, 12, rfl, by decide, by decide⟩

/-! ## Control -/

/-- The variables of the two loops. -/
structure Locals where
  consumerPos : Nat
  producerPos : Nat
  consumedAny : Bool
  deriving DecidableEq, Repr

/-- Why consumption stops at a record without advancing past it. -/
inductive StopReason where
  | busy
  | outOfBounds (dataOffset dataLen : Nat)
  deriving DecidableEq, Repr

/-- The access that comes next, with what is needed afterwards. -/
inductive Control where
  | loadConsumerPos
  | loadProducerPos (consumerPos : Nat)
  | loadHeader (l : Locals)
  | callback (l : Locals) (dataOffset dataLen recordLen : Nat)
  | storeAdvanced (l : Locals)
  | storeStopped (consumerPos : Nat) (reason : StopReason)
  | returned
  /-- An addition overflowed in a build with overflow checks. -/
  | panicked
  deriving DecidableEq, Repr

/-- An access to shared memory, with the value read or written, or a callback
    with the slice it gets. -/
inductive Action where
  | loadConsumerPos (value : Nat)
  | loadProducerPos (value : Nat)
  | loadHeader (offset : Nat) (rawLen : UInt32)
  | callback (dataOffset dataLen : Nat)
  | storeConsumerPos (value : Nat)
  deriving DecidableEq, Repr

/-- The condition of the inner loop, and of the outer one once it fails. -/
def whileHead (l : Locals) : Control :=
  if l.consumerPos < l.producerPos then .loadHeader l
  else if l.consumedAny then .loadProducerPos l.consumerPos
  else .returned

section Consumer

variable (build : Build) (consumer : RingbufConsumer build.arch)

/-- `(consumer_pos as usize) & mask` -/
def recordOffset (consumerPos : Nat) : Nat :=
  (consumerPos % 2 ^ build.arch.width) &&& consumer.mask

/-- `consumer_pos += record_len as u64` -/
def advance (l : Locals) (recordLen : Nat) : Control :=
  match build.add 64 l.consumerPos recordLen with
  | some pos => .storeAdvanced { l with consumerPos := pos }
  | none => .panicked

/-- What the loop does with a header word, up to its next access. -/
def afterHeader (l : Locals) (rawLen : UInt32) : Control :=
  if rawLen &&& BPF_RINGBUF_BUSY_BIT ≠ 0 then
    .storeStopped l.consumerPos .busy
  else
    let dataLen := dataLen rawLen
    let recordLen := roundRecordLen build.arch dataLen
    if rawLen &&& BPF_RINGBUF_DISCARD_BIT = 0 then
      match build.add build.arch.width (recordOffset build consumer l.consumerPos)
          BPF_RINGBUF_HDR_SZ with
      | none => .panicked
      | some dataOffset =>
        match build.arch.checkedAdd consumer.mask 1 with
        | none => .storeStopped l.consumerPos (.outOfBounds dataOffset dataLen)
        | some ringSize =>
          if recordWithinMapping build.arch dataOffset dataLen ringSize then
            .callback l dataOffset dataLen recordLen
          else
            .storeStopped l.consumerPos (.outOfBounds dataOffset dataLen)
    else
      advance build l recordLen

/-- One access or callback of `consume_ring_records`. -/
inductive Step : Control → Action → Control → Prop where
  | loadConsumerPos (value : Nat) :
      Step .loadConsumerPos (.loadConsumerPos value) (.loadProducerPos value)
  | loadProducerPos (pos value : Nat) :
      Step (.loadProducerPos pos) (.loadProducerPos value) (whileHead ⟨pos, value, false⟩)
  | loadHeader (l : Locals) (rawLen : UInt32) :
      Step (.loadHeader l) (.loadHeader (recordOffset build consumer l.consumerPos) rawLen)
        (afterHeader build consumer l rawLen)
  | callback (l : Locals) (dataOffset dataLen recordLen : Nat) :
      Step (.callback l dataOffset dataLen recordLen) (.callback dataOffset dataLen)
        (advance build l recordLen)
  | storeAdvanced (l : Locals) :
      Step (.storeAdvanced l) (.storeConsumerPos l.consumerPos)
        (whileHead { l with consumedAny := true })
  | storeStopped (pos : Nat) (reason : StopReason) :
      Step (.storeStopped pos reason) (.storeConsumerPos pos) .returned

end Consumer

/-! ## What the helpers compute -/

theorem dataLen_lt (rawLen : UInt32) : dataLen rawLen < 2 ^ 30 := by
  have hmask : ~~~(BPF_RINGBUF_BUSY_BIT ||| BPF_RINGBUF_DISCARD_BIT) = 0x3FFFFFFF := by decide
  rw [dataLen, hmask, UInt32.toNat_and]
  exact Nat.lt_of_le_of_lt Nat.and_le_right (by decide)

/-- Clearing the three low bits. -/
theorem and_usizeMax_sub_seven (arch : Arch) {n : Nat} (h : n < 2 ^ arch.width) :
    n &&& (arch.usizeMax - 7) = 8 * (n / 8) := by
  have hhigh : (arch.usizeMax - 7) / 2 ^ 3 = 2 ^ (arch.width - 3) - 1 := by cases arch <;> decide
  have hlow : (arch.usizeMax - 7) % 2 ^ 3 = 0 := by cases arch <;> decide
  have hwidth : 2 ^ arch.width = 8 * 2 ^ (arch.width - 3) := by cases arch <;> decide
  have hdiv : (n &&& (arch.usizeMax - 7)) / 2 ^ 3 = n / 2 ^ 3 := by
    rw [Nat.and_div_two_pow, hhigh, Nat.and_two_pow_sub_one_eq_mod]
    exact Nat.mod_eq_of_lt (by omega)
  have hmod : (n &&& (arch.usizeMax - 7)) % 2 ^ 3 = 0 := by
    rw [Nat.and_mod_two_pow, hlow, Nat.and_zero]
  omega

theorem roundRecordLen_eq (arch : Arch) {n : Nat} (h : n < 2 ^ 30) :
    roundRecordLen arch n = 8 * ((n + 15) / 8) := by
  have hmax : 2 ^ 32 - 1 ≤ arch.usizeMax := by cases arch <;> decide
  have hwidth : 2 ^ 32 ≤ 2 ^ arch.width := by cases arch <;> decide
  have htotal : arch.saturatingAdd n BPF_RINGBUF_HDR_SZ = n + 8 :=
    Nat.min_eq_left (by unfold BPF_RINGBUF_HDR_SZ; omega)
  have hround : arch.saturatingAdd (n + 8) 7 = n + 15 := Nat.min_eq_left (by omega)
  rw [roundRecordLen, htotal, hround, and_usizeMax_sub_seven arch (by omega)]

/-- The three ways to go on from the head of the loops. -/
theorem whileHead_rule {P : Control → Prop} {l : Locals}
    (hloop : l.consumerPos < l.producerPos → P (.loadHeader l))
    (hagain : l.producerPos ≤ l.consumerPos → l.consumedAny = true →
      P (.loadProducerPos l.consumerPos))
    (hdone : l.producerPos ≤ l.consumerPos → l.consumedAny = false → P .returned) :
    P (whileHead l) := by
  unfold whileHead
  split
  · next hlt => exact hloop hlt
  · next hge =>
    split
    · next hany => exact hagain (Nat.le_of_not_lt hge) hany
    · next hnone => exact hdone (Nat.le_of_not_lt hge) (Bool.eq_false_of_not_eq_true hnone)

section Consumer

variable {build : Build} (consumer : RingbufConsumer build.arch)

theorem RingbufConsumer.ringSize_le : consumer.ringSize ≤ 2 ^ (build.arch.width - 1) :=
  Nat.pow_le_pow_right (by omega) (by have := consumer.order_lt; omega)

theorem RingbufConsumer.eight_dvd_ringSize : 8 ∣ consumer.ringSize :=
  Nat.pow_dvd_pow 2 consumer.order_ge

/-- Truncating to `usize` does not change what the mask keeps. -/
theorem recordOffset_eq (pos : Nat) : recordOffset build consumer pos = pos % consumer.ringSize := by
  rw [recordOffset, consumer.mask_eq, Nat.and_two_pow_sub_one_eq_mod]
  exact Nat.mod_mod_of_dvd pos (Nat.pow_dvd_pow 2 (Nat.le_of_lt consumer.order_lt))

theorem RingbufConsumer.eight_le_ringSize : 8 ≤ consumer.ringSize :=
  Nat.pow_le_pow_right Nat.two_pos consumer.order_ge

/-- Whatever the position is, a header at its offset lies in the doubled mapping. -/
theorem recordOffset_lt (pos : Nat) : recordOffset build consumer pos < consumer.ringSize := by
  rw [recordOffset_eq]
  exact Nat.mod_lt pos (Nat.lt_of_lt_of_le (by decide) consumer.eight_le_ringSize)

/-- A record position is a header inside the ring. -/
theorem recordOffset_header {pos : Nat} (h : pos % 8 = 0) :
    recordOffset build consumer pos % 8 = 0 ∧
      recordOffset build consumer pos + 8 ≤ consumer.ringSize := by
  have hdvd := consumer.eight_dvd_ringSize
  have hlt := recordOffset_lt consumer pos
  have hoffset : pos % consumer.ringSize % 8 = 0 := by
    rw [Nat.mod_mod_of_dvd pos hdvd, h]
  rw [recordOffset_eq] at hlt ⊢
  omega

theorem recordWithinMapping_iff {arch : Arch} {dataOffset dataLen ringSize : Nat} :
    recordWithinMapping arch dataOffset dataLen ringSize = true ↔
      dataOffset + dataLen ≤ ringSize * 2 ∧ ringSize * 2 ≤ arch.usizeMax := by
  unfold recordWithinMapping Arch.checkedAdd Arch.checkedMul
  split
  · next stop bound hstop hbound =>
    simp only [Option.ite_none_right_eq_some, Option.some.injEq] at hstop hbound
    rw [decide_eq_true_iff]
    omega
  · next hnone =>
    simp only [Bool.false_eq_true, false_iff, not_and, Nat.not_le]
    intro hle
    by_contra hfits
    exact hnone _ _ (if_pos (by omega)) (if_pos (by omega))

theorem recordWithinMapping_eq_false {arch : Arch} {dataOffset dataLen ringSize : Nat} :
    recordWithinMapping arch dataOffset dataLen ringSize = false ↔
      2 * ringSize < dataOffset + dataLen ∨ arch.usizeMax < 2 * ringSize := by
  rw [← Bool.not_eq_true, recordWithinMapping_iff]
  omega

theorem two_mul_ringSize_le {arch : Arch} {ringSize pageSize len : Nat}
    (h : mappingLen arch ringSize pageSize = some len) : ringSize * 2 ≤ arch.usizeMax := by
  unfold mappingLen Arch.checkedMul at h
  split at h
  · assumption
  · exact absurd h (by simp)

theorem advance_of_lt {l : Locals} {recordLen : Nat} (h : l.consumerPos + recordLen < 2 ^ 64) :
    advance build l recordLen =
      .storeAdvanced { l with consumerPos := l.consumerPos + recordLen } := by
  rw [advance, build.add_of_lt h]

/-- Only the last addition can overflow. -/
theorem afterHeader_eq {l : Locals} (rawLen : UInt32) :
    afterHeader build consumer l rawLen =
      let dataOffset := l.consumerPos % consumer.ringSize + 8
      let recordLen := roundRecordLen build.arch (dataLen rawLen)
      if rawLen &&& BPF_RINGBUF_BUSY_BIT ≠ 0 then .storeStopped l.consumerPos .busy
      else if rawLen &&& BPF_RINGBUF_DISCARD_BIT ≠ 0 then advance build l recordLen
      else if recordWithinMapping build.arch dataOffset (dataLen rawLen) consumer.ringSize then
        .callback l dataOffset (dataLen rawLen) recordLen
      else .storeStopped l.consumerPos (.outOfBounds dataOffset (dataLen rawLen)) := by
  have hsize := consumer.ringSize_le
  have hmax : build.arch.usizeMax < 2 ^ build.arch.width := by cases build.arch <;> decide
  have hroom : 2 ^ (build.arch.width - 1) + 8 ≤ build.arch.usizeMax := by
    cases build.arch <;> decide
  have hlt := recordOffset_lt consumer l.consumerPos
  have hoffset : build.add build.arch.width (recordOffset build consumer l.consumerPos)
      BPF_RINGBUF_HDR_SZ = some (l.consumerPos % consumer.ringSize + 8) := by
    rw [recordOffset_eq] at hlt ⊢
    exact build.add_of_lt (by unfold BPF_RINGBUF_HDR_SZ; omega)
  have hring : build.arch.checkedAdd consumer.mask 1 = some consumer.ringSize := by
    have hpos : 0 < consumer.ringSize := Nat.pow_pos (by omega)
    have hmask : consumer.mask + 1 = consumer.ringSize := by
      rw [consumer.mask_eq]
      exact Nat.sub_add_cancel hpos
    rw [Arch.checkedAdd, hmask, if_pos (by omega)]
  simp only [afterHeader, hoffset, hring, ite_not]

/-- What a header word makes the loop do. -/
theorem afterHeader_cases {l : Locals} (rawLen : UInt32) :
    (rawLen &&& BPF_RINGBUF_BUSY_BIT ≠ 0 ∧
      afterHeader build consumer l rawLen = .storeStopped l.consumerPos .busy) ∨
    (rawLen &&& BPF_RINGBUF_BUSY_BIT = 0 ∧ rawLen &&& BPF_RINGBUF_DISCARD_BIT = 0 ∧
      recordWithinMapping build.arch (l.consumerPos % consumer.ringSize + 8) (dataLen rawLen)
        consumer.ringSize = false ∧
      afterHeader build consumer l rawLen = .storeStopped l.consumerPos
        (.outOfBounds (l.consumerPos % consumer.ringSize + 8) (dataLen rawLen))) ∨
    (rawLen &&& BPF_RINGBUF_BUSY_BIT = 0 ∧ rawLen &&& BPF_RINGBUF_DISCARD_BIT = 0 ∧
      recordWithinMapping build.arch (l.consumerPos % consumer.ringSize + 8) (dataLen rawLen)
        consumer.ringSize = true ∧
      afterHeader build consumer l rawLen = .callback l
        (l.consumerPos % consumer.ringSize + 8) (dataLen rawLen)
        (roundRecordLen build.arch (dataLen rawLen))) ∨
    (rawLen &&& BPF_RINGBUF_BUSY_BIT = 0 ∧ rawLen &&& BPF_RINGBUF_DISCARD_BIT ≠ 0 ∧
      afterHeader build consumer l rawLen =
        advance build l (roundRecordLen build.arch (dataLen rawLen))) := by
  rw [afterHeader_eq consumer rawLen]
  by_cases hbusy : rawLen &&& BPF_RINGBUF_BUSY_BIT = 0
  · refine .inr ?_
    by_cases hdiscard : rawLen &&& BPF_RINGBUF_DISCARD_BIT = 0
    · cases hwithin : recordWithinMapping build.arch (l.consumerPos % consumer.ringSize + 8)
        (dataLen rawLen) consumer.ringSize with
      | false => exact .inl ⟨hbusy, hdiscard, rfl, by simp [*]⟩
      | true => exact .inr (.inl ⟨hbusy, hdiscard, rfl, by simp [*]⟩)
    · exact .inr (.inr ⟨hbusy, hdiscard, by simp [*]⟩)
  · exact .inl ⟨hbusy, if_pos hbusy⟩

end Consumer

end Ebpfkit
