-- SUMMARY: How far consumption can run ahead of the producer when a header word is corrupt.
import Ebpfkit.Loader.RingbufSafety

/-!
# Running ahead of the producer

The loop compares the position with the producer before it reads a header, and
the slice with the mapping before it delivers one. It compares no record length
with the producer, so a corrupt length is bounded by these two only.
-/

namespace Ebpfkit

/-! ## Histories -/

/-- The producer position last loaded. -/
def lastProducerPos (as : List Action) : Nat :=
  as.foldl (fun pos a => match a with | .loadProducerPos value => value | _ => pos) 0

/-- The header word last loaded. -/
def lastHeader (as : List Action) : UInt32 :=
  as.foldl (fun rawLen a => match a with | .loadHeader _ value => value | _ => rawLen) 0

@[simp] theorem lastProducerPos_snoc (as : List Action) (a : Action) :
    lastProducerPos (as ++ [a]) =
      match a with | .loadProducerPos value => value | _ => lastProducerPos as := by
  simp [lastProducerPos]

@[simp] theorem lastHeader_snoc (as : List Action) (a : Action) :
    lastHeader (as ++ [a]) = match a with | .loadHeader _ value => value | _ => lastHeader as := by
  simp [lastHeader]

/-! ## The invariant -/

/-- A ring of which only the alignment of the starting position is known. -/
def AlignedRing (_ : List Action) : Action → Prop
  | .loadConsumerPos value => value % 8 = 0 ∧ value < 2 ^ 64
  | .loadProducerPos value => value < 2 ^ 64
  | _ => True

section Overrun

variable {build : Build} (consumer : RingbufConsumer build.arch)

/-- A record that consumption does not advance past: it is busy, or it is to be
    delivered and leaves the doubled mapping. `RingbufConsumer::new` refuses a ring
    whose double does not fit in a `usize`. -/
def StopsAt (pos : Nat) (rawLen : UInt32) : Prop :=
  rawLen &&& BPF_RINGBUF_BUSY_BIT ≠ 0 ∨
    (rawLen &&& BPF_RINGBUF_DISCARD_BIT = 0 ∧
      (2 * consumer.ringSize < pos % consumer.ringSize + 8 + dataLen rawLen ∨
        build.arch.usizeMax < 2 * consumer.ringSize))

/-- The loops are at a record below the producer position they loaded. -/
structure AtRecord (as : List Action) (l : Locals) : Prop where
  aligned : l.consumerPos % 8 = 0
  published : l.consumerPos = position as
  before : l.consumerPos < l.producerPos
  loaded : l.producerPos = lastProducerPos as

/-- The position behind the record just read, as a `u64`. -/
def nextPosition (arch : Arch) (as : List Action) : Nat :=
  (position as + roundRecordLen arch (dataLen (lastHeader as))) % 2 ^ 64

/-- The invariant of a call that may run ahead. -/
def OverrunControl (as : List Action) : Control → Prop
  | .loadConsumerPos => True
  | .loadProducerPos pos => pos % 8 = 0 ∧ pos = position as
  | .loadHeader l => AtRecord as l
  | .callback l _ _ recordLen =>
    AtRecord as l ∧ ¬ StopsAt consumer (position as) (lastHeader as) ∧
      recordLen = roundRecordLen build.arch (dataLen (lastHeader as))
  | .storeAdvanced l =>
    ¬ StopsAt consumer (position as) (lastHeader as) ∧ position as < lastProducerPos as ∧
      position as % 8 = 0 ∧ l.producerPos = lastProducerPos as ∧
      l.consumerPos = nextPosition build.arch as
  | .storeStopped pos _ =>
    StopsAt consumer (position as) (lastHeader as) ∧ pos = position as ∧
      position as < lastProducerPos as
  | .returned | .panicked => True

theorem overrunControl_whileHead {as : List Action} {l : Locals}
    (haligned : l.consumerPos % 8 = 0) (hpublished : l.consumerPos = position as)
    (hloaded : l.producerPos = lastProducerPos as) :
    OverrunControl consumer as (whileHead l) := by
  apply whileHead_rule
  · exact fun hlt => ⟨haligned, hpublished, hlt, hloaded⟩
  · exact fun _ _ => ⟨haligned, hpublished⟩
  · exact fun _ _ => trivial

theorem overrunControl_advance {as : List Action} {l : Locals} (hrecord : AtRecord as l)
    (hstops : ¬ StopsAt consumer (position as) (lastHeader as)) :
    OverrunControl consumer as
      (advance build l (roundRecordLen build.arch (dataLen (lastHeader as)))) := by
  have haligned := hrecord.aligned
  have hbefore := hrecord.before
  rw [hrecord.loaded] at hbefore
  rw [hrecord.published] at haligned hbefore
  unfold advance
  split
  · next pos hadd =>
    refine ⟨hstops, hbefore, haligned, hrecord.loaded, ?_⟩
    rw [nextPosition, ← hrecord.published]
    exact Build.add_eq_mod hadd
  · trivial

/-- With the header word in the history, it decides what the loop does. -/
theorem overrunControl_afterHeader {as : List Action} {l : Locals} (hrecord : AtRecord as l) :
    OverrunControl consumer as (afterHeader build consumer l (lastHeader as)) := by
  have hbefore := hrecord.before
  rw [hrecord.loaded, hrecord.published] at hbefore
  rcases afterHeader_cases consumer (lastHeader as) with
    ⟨hbusy, heq⟩ | ⟨-, hdiscard, houtside, heq⟩ | ⟨hbusy, hdiscard, hwithin, heq⟩ |
      ⟨hbusy, hdiscard, heq⟩
  · rw [heq]
    exact ⟨.inl hbusy, hrecord.published, hbefore⟩
  · rw [hrecord.published] at houtside
    rw [heq]
    exact ⟨.inr ⟨hdiscard, recordWithinMapping_eq_false.mp houtside⟩, hrecord.published, hbefore⟩
  · rw [hrecord.published] at hwithin
    rw [heq]
    refine ⟨hrecord, ?_, rfl⟩
    rintro (hbusy' | ⟨-, houtside⟩)
    · exact hbusy' hbusy
    · rw [← recordWithinMapping_eq_false, hwithin] at houtside
      exact absurd houtside (by decide)
  · rw [heq]
    apply overrunControl_advance consumer hrecord
    rintro (hbusy' | ⟨hdiscard', -⟩)
    · exact hbusy' hbusy
    · exact hdiscard hdiscard'

/-- Actions that leave the positions alone keep the loops at their record. -/
theorem AtRecord.snoc {as : List Action} {l : Locals} {a : Action} (h : AtRecord as l)
    (hposition : position (as ++ [a]) = position as)
    (hproducer : lastProducerPos (as ++ [a]) = lastProducerPos as) : AtRecord (as ++ [a]) l := by
  refine ⟨h.aligned, ?_, h.before, ?_⟩
  · rw [hposition]
    exact h.published
  · rw [hproducer]
    exact h.loaded

theorem step_overrun {as : List Action} {t u : Control} {a : Action}
    (h : OverrunControl consumer as t) (hstep : Step build consumer t a u)
    (hring : AlignedRing as a) : OverrunControl consumer (as ++ [a]) u := by
  cases hstep with
  | loadConsumerPos value =>
    refine ⟨hring.1, ?_⟩
    rw [position_snoc]
    rfl
  | loadProducerPos pos value =>
    obtain ⟨haligned, hpublished⟩ := h
    apply overrunControl_whileHead
    · exact haligned
    · rw [position_snoc]
      exact hpublished
    · rw [lastProducerPos_snoc]
  | loadHeader l rawLen =>
    have hrecord : AtRecord (as ++ [.loadHeader (recordOffset build consumer l.consumerPos) rawLen])
        l := h.snoc (position_snoc _ _) (lastProducerPos_snoc _ _)
    have hnext := overrunControl_afterHeader consumer hrecord
    rw [lastHeader_snoc] at hnext
    exact hnext
  | callback l dataOffset dataLen recordLen =>
    obtain ⟨hrecord, hstops, rfl⟩ := h
    have hrecord : AtRecord (as ++ [.callback dataOffset dataLen]) l :=
      hrecord.snoc (position_snoc _ _) (lastProducerPos_snoc _ _)
    have hnext := overrunControl_advance consumer hrecord
    rw [lastHeader_snoc, position_snoc] at hnext
    exact hnext hstops
  | storeAdvanced l =>
    obtain ⟨-, -, haligned, hloaded, hpos⟩ := h
    apply overrunControl_whileHead
    · have hlen := (recordLen_roundRecordLen build.arch (lastHeader as)).aligned
      simp only [hpos, nextPosition]
      omega
    · rw [position_snoc]
      rfl
    · rw [lastProducerPos_snoc]
      exact hloaded
  | storeStopped pos reason => trivial

end Overrun

/-- Consumption can run ahead of the producer, by a part of the record it has just
    read: nothing compares a record's length with the producer position. What it
    does not advance past are records that are busy, and records to be delivered that
    leave the doubled mapping. -/
theorem consumeRingRecords_overrun (build : Build) (consumer : RingbufConsumer build.arch)
    {as : List Action} {t u : Control} {value : Nat}
    (hrun : Lts.Run (Step build consumer) AlignedRing .loadConsumerPos as t)
    (hstore : Step build consumer t (.storeConsumerPos value) u) :
    position as < lastProducerPos as ∧
      (StopsAt consumer (position as) (lastHeader as) →
        value = position as ∧ u = .returned) ∧
      (¬ StopsAt consumer (position as) (lastHeader as) →
        value = nextPosition build.arch as ∧
          value < lastProducerPos as + roundRecordLen build.arch (dataLen (lastHeader as))) := by
  have hcontrol : OverrunControl consumer as t := by
    apply Lts.Run.invariant (OverrunControl consumer) _ _ hrun
    · trivial
    · intro as t a u h hstep hring
      exact step_overrun consumer h hstep hring
  cases hstore with
  | storeAdvanced l =>
    obtain ⟨hstops, hbefore, -, -, hpos⟩ := hcontrol
    refine ⟨hbefore, fun h => absurd h hstops, fun _ => ⟨hpos, ?_⟩⟩
    have hle := Nat.mod_le (position as + roundRecordLen build.arch (dataLen (lastHeader as)))
      (2 ^ 64)
    rw [nextPosition] at hpos
    omega
  | storeStopped pos reason =>
    obtain ⟨hstops, hpos, hbefore⟩ := hcontrol
    exact ⟨hbefore, fun _ => ⟨hpos, rfl⟩, fun h => absurd hstops h⟩

/-- A header word of 1000 where the producer has published sixteen bytes. -/
theorem run_corruptLength :
    Lts.Run (Step ⟨.bits64, true⟩ pageRing) AlignedRing .loadConsumerPos
      [.loadConsumerPos 0, .loadProducerPos 16, .loadHeader 0 1000, .callback 8 1000]
      (.storeAdvanced ⟨1008, 16, false⟩) := by
  have hconsumer : Lts.Run (Step ⟨.bits64, true⟩ pageRing) AlignedRing .loadConsumerPos
      [.loadConsumerPos 0] (.loadProducerPos 0) :=
    .snoc .nil (.loadConsumerPos 0) ⟨by decide, by decide⟩
  have hproducer : Lts.Run (Step ⟨.bits64, true⟩ pageRing) AlignedRing .loadConsumerPos
      [.loadConsumerPos 0, .loadProducerPos 16] (.loadHeader ⟨0, 16, false⟩) :=
    .snoc hconsumer (.loadProducerPos 0 16) (by change 16 < 2 ^ 64; decide)
  have hheader : Lts.Run (Step ⟨.bits64, true⟩ pageRing) AlignedRing .loadConsumerPos
      [.loadConsumerPos 0, .loadProducerPos 16, .loadHeader 0 1000]
      (.callback ⟨0, 16, false⟩ 8 1000 1008) :=
    .snoc hproducer (.loadHeader ⟨0, 16, false⟩ 1000) trivial
  exact .snoc hheader (.callback ⟨0, 16, false⟩ 8 1000 1008) trivial

/-- The record is delivered and advanced past, far beyond the producer. -/
theorem consumeRingRecords_runs_ahead :
    ∃ as t u, Lts.Run (Step ⟨.bits64, true⟩ pageRing) AlignedRing .loadConsumerPos as t ∧
      Step ⟨.bits64, true⟩ pageRing t (.storeConsumerPos 1008) u ∧
      position as = 0 ∧ lastProducerPos as = 16 ∧ lastHeader as = 1000 ∧ u ≠ .returned :=
  ⟨_, _, _, run_corruptLength, .storeAdvanced ⟨1008, 16, false⟩, rfl, rfl, rfl, by decide⟩

theorem consumeRingRecords_overrun_1000 :
    (1008 : Nat) < lastProducerPos
      [.loadConsumerPos 0, .loadProducerPos 16, .loadHeader 0 1000, .callback 8 1000] + 1008 := by
  have hstops : ¬ @StopsAt ⟨.bits64, true⟩ pageRing 0 1000 := by
    rintro (hbusy | ⟨-, houtside⟩)
    · exact hbusy (by decide)
    · exact absurd houtside (by decide)
  exact ((consumeRingRecords_overrun ⟨.bits64, true⟩ pageRing run_corruptLength
    (.storeAdvanced ⟨1008, 16, false⟩)).2.2 hstops).2

end Ebpfkit
