-- SUMMARY: Consumption is memory safe and returns, whatever the ring contains.
import Ebpfkit.Loader.Ringbuf

/-!
# Consuming a hostile ring

Here nothing is assumed of the other side of the ring: the header words are
arbitrary, and may change between two loads. What is left to rely on is the
alignment of the starting position, which the rounding of record lengths keeps.
-/

namespace Ebpfkit

/-! ## Histories -/

/-- The position last loaded or published, as an action changes it. -/
def Action.updatePosition (pos : Nat) : Action → Nat
  | .loadConsumerPos value | .storeConsumerPos value => value
  | _ => pos

/-- The consumer position last loaded or published. -/
def position (as : List Action) : Nat := as.foldl Action.updatePosition 0

/-- The number of callbacks. -/
def callbacks (as : List Action) : Nat :=
  as.countP fun a => match a with
    | .callback _ _ => true
    | _ => false

@[simp] theorem position_snoc (as : List Action) (a : Action) :
    position (as ++ [a]) = a.updatePosition (position as) := by
  simp [position]

theorem callbacks_append (as bs : List Action) : callbacks (as ++ bs) = callbacks as + callbacks bs :=
  List.countP_append

/-! ## Safety -/

/-- A ring of which only the alignment of the starting position is known, and that
    the producer stays away from the end of its counter. -/
def HostileRing (_ : List Action) : Action → Prop
  | .loadConsumerPos value => value % 8 = 0 ∧ value < 2 ^ 64
  | .loadProducerPos value => value ≤ 2 ^ 64 - 2 ^ 31
  | _ => True

/-- What an action may do: headers are aligned and lie in the ring, slices lie in
    the doubled mapping, and published positions are aligned and grow, except that
    a stop publishes the same position again. -/
def SafeAction (ringSize : Nat) (as : List Action) (after : Control) : Action → Prop
  | .loadHeader offset _ => offset % 8 = 0 ∧ offset + 8 ≤ ringSize
  | .callback dataOffset dataLen => dataOffset + dataLen ≤ 2 * ringSize
  | .storeConsumerPos value =>
    value % 8 = 0 ∧ (position as < value ∨ value = position as ∧ after = .returned)
  | _ => True

section Safety

variable {build : Build} (consumer : RingbufConsumer build.arch)

/-- The loops work on the position that was last published. -/
structure InLoop (as : List Action) (l : Locals) : Prop where
  aligned : l.consumerPos % 8 = 0
  published : l.consumerPos = position as
  before : l.consumerPos < l.producerPos
  bound : l.producerPos ≤ 2 ^ 64 - 2 ^ 31

/-- Actions that leave the position alone keep the loops where they are. -/
theorem InLoop.snoc {as : List Action} {l : Locals} {a : Action} (h : InLoop as l)
    (ha : a.updatePosition (position as) = position as) : InLoop (as ++ [a]) l := by
  refine ⟨h.aligned, ?_, h.before, h.bound⟩
  rw [position_snoc, ha]
  exact h.published

/-- The length of a record is a multiple of eight, and not zero. -/
structure RecordLen (recordLen : Nat) : Prop where
  aligned : recordLen % 8 = 0
  pos : 8 ≤ recordLen
  lt : recordLen < 2 ^ 31

theorem recordLen_roundRecordLen (arch : Arch) (rawLen : UInt32) :
    RecordLen (roundRecordLen arch (dataLen rawLen)) := by
  have hlen := dataLen_lt rawLen
  rw [roundRecordLen_eq arch hlen]
  exact ⟨by omega, by omega, by omega⟩

/-- The invariant of a call on a hostile ring. -/
def SafeControl (as : List Action) : Control → Prop
  | .loadConsumerPos => True
  | .loadProducerPos pos => pos % 8 = 0 ∧ pos = position as
  | .loadHeader l => InLoop as l
  | .callback l dataOffset dataLen recordLen =>
    InLoop as l ∧ RecordLen recordLen ∧ dataOffset + dataLen ≤ 2 * consumer.ringSize
  | .storeAdvanced l =>
    l.consumerPos % 8 = 0 ∧ position as < l.consumerPos ∧ l.producerPos ≤ 2 ^ 64 - 2 ^ 31
  | .storeStopped pos _ => pos % 8 = 0 ∧ pos = position as
  | .returned => True
  | .panicked => False

theorem safeControl_whileHead {as : List Action} {l : Locals} (haligned : l.consumerPos % 8 = 0)
    (hpublished : l.consumerPos = position as) (hbound : l.producerPos ≤ 2 ^ 64 - 2 ^ 31) :
    SafeControl consumer as (whileHead l) := by
  apply whileHead_rule
  · exact fun hlt => ⟨haligned, hpublished, hlt, hbound⟩
  · exact fun _ _ => ⟨haligned, hpublished⟩
  · exact fun _ _ => trivial

/-- The producer is far enough from the end of its counter for the addition. -/
theorem advance_eq {as : List Action} {l : Locals} {recordLen : Nat} (hloop : InLoop as l)
    (hlen : RecordLen recordLen) :
    advance build l recordLen =
      .storeAdvanced { l with consumerPos := l.consumerPos + recordLen } := by
  apply advance_of_lt
  have := hloop.before
  have := hloop.bound
  have := hlen.lt
  omega

theorem safeControl_advance {as : List Action} {l : Locals} {recordLen : Nat}
    (hloop : InLoop as l) (hlen : RecordLen recordLen) :
    SafeControl consumer as (advance build l recordLen) := by
  rw [advance_eq hloop hlen]
  have haligned := hloop.aligned
  have hpublished := hloop.published
  have hrecord := hlen.aligned
  have hpos := hlen.pos
  exact ⟨by simp only; omega, by simp only; omega, hloop.bound⟩

theorem safeControl_afterHeader {as : List Action} {l : Locals} (rawLen : UInt32)
    (hloop : InLoop as l) : SafeControl consumer as (afterHeader build consumer l rawLen) := by
  have hlen := recordLen_roundRecordLen build.arch rawLen
  rcases afterHeader_cases consumer rawLen with
    ⟨-, heq⟩ | ⟨-, -, -, heq⟩ | ⟨-, -, hwithin, heq⟩ | ⟨-, -, heq⟩
  · rw [heq]
    exact ⟨hloop.aligned, hloop.published⟩
  · rw [heq]
    exact ⟨hloop.aligned, hloop.published⟩
  · rw [heq]
    have hslice := (recordWithinMapping_iff.mp hwithin).1
    exact ⟨hloop, hlen, by omega⟩
  · rw [heq]
    exact safeControl_advance consumer hloop hlen

/-- One step on a hostile ring: what it does is safe, and the call can go on. -/
theorem step_safe {as : List Action} {t u : Control} {a : Action} (hsafe : SafeControl consumer as t)
    (hstep : Step build consumer t a u) (hring : HostileRing as a) :
    SafeAction consumer.ringSize as u a ∧ SafeControl consumer (as ++ [a]) u := by
  cases hstep with
  | loadConsumerPos value =>
    refine ⟨trivial, hring.1, ?_⟩
    rw [position_snoc]
    rfl
  | loadProducerPos pos value =>
    obtain ⟨haligned, hpublished⟩ := hsafe
    refine ⟨trivial, ?_⟩
    apply safeControl_whileHead consumer haligned
    · rw [position_snoc]
      exact hpublished
    · exact hring
  | loadHeader l rawLen =>
    refine ⟨recordOffset_header consumer hsafe.aligned, ?_⟩
    apply safeControl_afterHeader
    exact hsafe.snoc rfl
  | callback l dataOffset dataLen recordLen =>
    obtain ⟨hloop, hlen, hslice⟩ := hsafe
    refine ⟨hslice, ?_⟩
    apply safeControl_advance consumer _ hlen
    exact hloop.snoc rfl
  | storeAdvanced l =>
    obtain ⟨haligned, hgrows, hbound⟩ := hsafe
    refine ⟨⟨haligned, .inl hgrows⟩, ?_⟩
    apply safeControl_whileHead
    · exact haligned
    · rw [position_snoc]
      rfl
    · exact hbound
  | storeStopped pos reason =>
    obtain ⟨haligned, hpublished⟩ := hsafe
    exact ⟨⟨haligned, .inr ⟨hpublished, rfl⟩⟩, trivial⟩

theorem run_safe {as : List Action} {t : Control}
    (hrun : Lts.Run (Step build consumer) HostileRing .loadConsumerPos as t) :
    SafeControl consumer as t := by
  apply Lts.Run.invariant (SafeControl consumer) _ _ hrun
  · trivial
  · intro as t a u hsafe hstep hring
    exact (step_safe consumer hsafe hstep hring).2

/-! ### Overflow -/

/-- An addition that does not overflow is the same in every build. -/
theorem advance_checked {b : Build} {as : List Action} {l : Locals} {recordLen : Nat}
    (hloop : InLoop as l) (hlen : RecordLen recordLen) :
    advance b l recordLen = advance b.checked l recordLen := by
  rw [advance_eq hloop hlen, advance_eq hloop hlen]

theorem afterHeader_checked {as : List Action} {l : Locals} (rawLen : UInt32)
    (hloop : InLoop as l) :
    afterHeader build consumer l rawLen = afterHeader build.checked consumer l rawLen := by
  have hadvance := advance_checked (b := build) hloop
    (recordLen_roundRecordLen build.arch rawLen)
  have heq := @afterHeader_eq build consumer l rawLen
  simp only [hadvance] at heq
  exact heq.trans (@afterHeader_eq build.checked consumer l rawLen).symm

/-- No addition overflows: a build with overflow checks takes the same step. -/
theorem step_checked {as : List Action} {t u : Control} {a : Action}
    (hsafe : SafeControl consumer as t) (hstep : Step build consumer t a u) :
    Step build.checked consumer t a u := by
  cases hstep with
  | loadConsumerPos value => exact .loadConsumerPos value
  | loadProducerPos pos value => exact .loadProducerPos pos value
  | loadHeader l rawLen =>
    rw [afterHeader_checked consumer rawLen hsafe]
    exact .loadHeader l rawLen
  | callback l dataOffset dataLen recordLen =>
    rw [advance_checked hsafe.1 hsafe.2.1]
    exact .callback l dataOffset dataLen recordLen
  | storeAdvanced l => exact .storeAdvanced l
  | storeStopped pos reason => exact .storeStopped pos reason

end Safety

/-! ## Termination -/

/-- A ring whose producer stands still, with header words chosen after the history. -/
def FixedRing (start producerPos : Nat) (headers : List Action → UInt32) (as : List Action) :
    Action → Prop
  | .loadConsumerPos value => value = start
  | .loadProducerPos value => value = producerPos
  | .loadHeader _ rawLen => rawLen = headers as
  | _ => True

/-- How many records fit between two positions: the distance in headers, rounded up. -/
def recordsBetween (pos producerPos : Nat) : Nat := (producerPos - pos + 7) / 8

section Termination

variable {build : Build} (consumer : RingbufConsumer build.arch) {start producerPos : Nat}
  {headers : List Action → UInt32}

/-- How many records there can still be. -/
def Control.remaining (start producerPos : Nat) : Control → Nat
  | .loadConsumerPos => recordsBetween start producerPos
  | .loadProducerPos pos => recordsBetween pos producerPos
  | .loadHeader l | .callback l _ _ _ | .storeAdvanced l =>
    recordsBetween l.consumerPos producerPos
  | .storeStopped _ _ | .returned | .panicked => 0

/-- The steps that are left before the next record, or before the call returns. -/
def Control.phase : Control → Nat
  | .loadConsumerPos => 3
  | .loadProducerPos _ => 2
  | .loadHeader _ => 1
  | .callback _ _ _ _ => 0
  | .storeAdvanced _ => 3
  | .storeStopped _ _ => 1
  | .returned | .panicked => 0

def Control.rank (start producerPos : Nat) (t : Control) : Nat :=
  4 * t.remaining start producerPos + t.phase

/-- The loops compare with the position where the producer stands. -/
def Control.Loaded (producerPos : Nat) : Control → Prop
  | .loadHeader l | .callback l _ _ _ | .storeAdvanced l => l.producerPos = producerPos
  | _ => True

theorem recordsBetween_advance {pos recordLen : Nat} (hlt : pos < producerPos)
    (hlen : 8 ≤ recordLen) :
    recordsBetween (pos + recordLen) producerPos + 1 ≤ recordsBetween pos producerPos := by
  unfold recordsBetween
  omega

theorem loaded_whileHead {l : Locals} (h : l.producerPos = producerPos) :
    (whileHead l).Loaded producerPos := by
  apply whileHead_rule
  · exact fun _ => h
  · exact fun _ _ => trivial
  · exact fun _ _ => trivial

theorem remaining_whileHead (l : Locals) :
    (whileHead l).remaining start producerPos ≤ recordsBetween l.consumerPos producerPos := by
  apply whileHead_rule (P := fun t =>
    t.remaining start producerPos ≤ recordsBetween l.consumerPos producerPos)
  · exact fun _ => Nat.le_refl _
  · exact fun _ _ => Nat.le_refl _
  · exact fun _ _ => Nat.zero_le _

/-- The outer loop goes on only after a record was consumed. -/
theorem rank_whileHead (l : Locals) :
    (whileHead l).rank start producerPos ≤
      4 * recordsBetween l.consumerPos producerPos + (if l.consumedAny then 2 else 1) := by
  apply whileHead_rule (P := fun t => t.rank start producerPos ≤
    4 * recordsBetween l.consumerPos producerPos + (if l.consumedAny then 2 else 1))
  · intro _
    apply Nat.add_le_add_left
    change 1 ≤ _
    split <;> decide
  · intro _ hany
    rw [if_pos hany]
    exact Nat.le_refl _
  · exact fun _ _ => Nat.zero_le _

/-- Advancing uses up a record. -/
theorem rank_advance {as : List Action} {l : Locals} {recordLen : Nat} (hloop : InLoop as l)
    (hlen : RecordLen recordLen) (hloaded : l.producerPos = producerPos) :
    (advance build l recordLen).Loaded producerPos ∧
      (advance build l recordLen).rank start producerPos <
        4 * recordsBetween l.consumerPos producerPos ∧
      (advance build l recordLen).remaining start producerPos <
        recordsBetween l.consumerPos producerPos := by
  have hless : recordsBetween (l.consumerPos + recordLen) producerPos + 1 ≤
      recordsBetween l.consumerPos producerPos := by
    apply recordsBetween_advance _ hlen.pos
    rw [← hloaded]
    exact hloop.before
  rw [advance_eq hloop hlen]
  refine ⟨hloaded, ?_, hless⟩
  simp only [Control.rank, Control.remaining, Control.phase]
  omega

theorem rank_afterHeader {as : List Action} {l : Locals} (rawLen : UInt32) (hloop : InLoop as l)
    (hloaded : l.producerPos = producerPos) :
    (afterHeader build consumer l rawLen).Loaded producerPos ∧
      (afterHeader build consumer l rawLen).rank start producerPos ≤
        4 * recordsBetween l.consumerPos producerPos ∧
      (afterHeader build consumer l rawLen).remaining start producerPos ≤
        recordsBetween l.consumerPos producerPos := by
  have hpos : 0 < recordsBetween l.consumerPos producerPos := by
    have hlt := hloop.before
    unfold recordsBetween
    omega
  rcases afterHeader_cases consumer rawLen with
    ⟨-, heq⟩ | ⟨-, -, -, heq⟩ | ⟨-, -, -, heq⟩ | ⟨-, -, heq⟩
  · rw [heq]
    refine ⟨trivial, ?_, Nat.zero_le _⟩
    simp only [Control.rank, Control.remaining, Control.phase]
    omega
  · rw [heq]
    refine ⟨trivial, ?_, Nat.zero_le _⟩
    simp only [Control.rank, Control.remaining, Control.phase]
    omega
  · rw [heq]
    exact ⟨hloaded, Nat.le_refl _, Nat.le_refl _⟩
  · rw [heq]
    obtain ⟨hnext, hrank, hless⟩ :=
      rank_advance hloop (recordLen_roundRecordLen build.arch rawLen) hloaded
    exact ⟨hnext, Nat.le_of_lt hrank, Nat.le_of_lt hless⟩

/-- Every step makes the rank smaller, and pays for its callback with a record. -/
theorem step_rank {as : List Action} {t u : Control} {a : Action}
    (hsafe : SafeControl consumer as t) (hloaded : t.Loaded producerPos)
    (hstep : Step build consumer t a u) (hring : FixedRing start producerPos headers as a) :
    u.Loaded producerPos ∧ u.rank start producerPos < t.rank start producerPos ∧
      callbacks [a] + u.remaining start producerPos ≤ t.remaining start producerPos := by
  cases hstep with
  | loadConsumerPos value =>
    obtain rfl : value = start := hring
    refine ⟨trivial, ?_, ?_⟩
    · exact Nat.lt_succ_self _
    · exact Nat.le_of_eq (Nat.zero_add _)
  | loadProducerPos pos value =>
    refine ⟨loaded_whileHead hring, ?_, ?_⟩
    · exact Nat.lt_succ_of_le (rank_whileHead _)
    · exact Nat.le_trans (Nat.le_of_eq (Nat.zero_add _)) (remaining_whileHead _)
  | loadHeader l rawLen =>
    obtain ⟨hnext, hrank, hless⟩ := rank_afterHeader consumer rawLen hsafe hloaded
    refine ⟨hnext, ?_, ?_⟩
    · exact Nat.lt_succ_of_le hrank
    · exact Nat.le_trans (Nat.le_of_eq (Nat.zero_add _)) hless
  | callback l dataOffset dataLen recordLen =>
    obtain ⟨hloop, hlen, -⟩ := hsafe
    obtain ⟨hnext, hrank, hless⟩ := rank_advance hloop hlen hloaded
    refine ⟨hnext, hrank, ?_⟩
    exact Nat.le_trans (Nat.le_of_eq (Nat.add_comm _ _)) hless
  | storeAdvanced l =>
    refine ⟨loaded_whileHead hloaded, ?_, ?_⟩
    · exact Nat.lt_succ_of_le (rank_whileHead _)
    · exact Nat.le_trans (Nat.le_of_eq (Nat.zero_add _)) (remaining_whileHead _)
  | storeStopped pos reason => exact ⟨trivial, Nat.lt_succ_self _, Nat.le_refl _⟩

/-- A producer that stands still may do so on a hostile ring. -/
theorem FixedRing.hostile {as : List Action} {a : Action} (haligned : start % 8 = 0)
    (hstart : start < 2 ^ 64) (hproducer : producerPos ≤ 2 ^ 64 - 2 ^ 31)
    (h : FixedRing start producerPos headers as a) : HostileRing as a := by
  cases a with
  | loadConsumerPos value =>
    obtain rfl : value = start := h
    exact ⟨haligned, hstart⟩
  | loadProducerPos value =>
    obtain rfl : value = producerPos := h
    exact hproducer
  | loadHeader offset rawLen => trivial
  | callback dataOffset dataLen => trivial
  | storeConsumerPos value => trivial

/-- The invariant of a call while the producer stands still. -/
structure Terminates (start producerPos : Nat) (as : List Action) (t : Control) : Prop where
  safe : SafeControl consumer as t
  loaded : t.Loaded producerPos
  length : as.length + t.rank start producerPos ≤ 4 * recordsBetween start producerPos + 3
  callbacks : callbacks as + t.remaining start producerPos ≤ recordsBetween start producerPos

theorem run_terminates {as : List Action} {t : Control} (haligned : start % 8 = 0)
    (hstart : start < 2 ^ 64) (hproducer : producerPos ≤ 2 ^ 64 - 2 ^ 31)
    (hrun : Lts.Run (Step build consumer) (FixedRing start producerPos headers)
      .loadConsumerPos as t) : Terminates consumer start producerPos as t := by
  apply Lts.Run.invariant (Terminates consumer start producerPos) _ _ hrun
  · exact ⟨trivial, trivial, Nat.le_of_eq (Nat.zero_add _), Nat.le_of_eq (Nat.zero_add _)⟩
  · intro as t a u h hstep hring
    have hhostile := hring.hostile haligned hstart hproducer
    obtain ⟨hloaded, hrank, hpaid⟩ := step_rank consumer h.safe h.loaded hstep hring
    refine ⟨(step_safe consumer h.safe hstep hhostile).2, hloaded, ?_, ?_⟩
    · have hlength := h.length
      rw [List.length_append, List.length_singleton]
      omega
    · have hcallbacks := h.callbacks
      rw [callbacks_append]
      omega

/-- A call can go on until it has returned. -/
theorem exists_step {as : List Action} {t : Control} (hsafe : SafeControl consumer as t)
    (hopen : t ≠ .returned) :
    ∃ a u, Step build consumer t a u ∧ FixedRing start producerPos headers as a := by
  cases t with
  | loadConsumerPos => exact ⟨_, _, .loadConsumerPos start, rfl⟩
  | loadProducerPos pos => exact ⟨_, _, .loadProducerPos pos producerPos, rfl⟩
  | loadHeader l => exact ⟨_, _, .loadHeader l (headers as), rfl⟩
  | callback l dataOffset dataLen recordLen =>
    exact ⟨_, _, .callback l dataOffset dataLen recordLen, trivial⟩
  | storeAdvanced l => exact ⟨_, _, .storeAdvanced l, trivial⟩
  | storeStopped pos reason => exact ⟨_, _, .storeStopped pos reason, trivial⟩
  | returned => exact absurd rfl hopen
  | panicked => exact hsafe.elim

theorem run_returns (headers : List Action → UInt32) (haligned : start % 8 = 0)
    (hstart : start < 2 ^ 64) (hproducer : producerPos ≤ 2 ^ 64 - 2 ^ 31) :
    ∃ as, Lts.Run (Step build consumer) (FixedRing start producerPos headers)
      .loadConsumerPos as .returned := by
  have hbound : ∀ as t, Lts.Run (Step build consumer) (FixedRing start producerPos headers)
      .loadConsumerPos as t → as.length ≤ 4 * recordsBetween start producerPos + 3 := by
    intro as t hrun
    have hlength := (run_terminates consumer haligned hstart hproducer hrun).length
    omega
  obtain ⟨as, t, hrun, hfinal⟩ := Lts.Run.exists_final hbound (fun as t hrun hopen =>
    exists_step consumer (run_terminates consumer haligned hstart hproducer hrun).safe hopen)
  exact ⟨as, hfinal ▸ hrun⟩

end Termination

/-- Against arbitrary header words, every access of a call is in bounds, the
    position it publishes stays aligned and grows, and no addition overflows. While
    the producer stands still the call returns, with at most one callback for each
    header that fits between the positions. -/
theorem consumeRingRecords_safe (build : Build) (consumer : RingbufConsumer build.arch) :
    (∀ as t a u, Lts.Run (Step build consumer) HostileRing .loadConsumerPos as t →
      Step build consumer t a u → HostileRing as a →
      SafeAction consumer.ringSize as u a ∧ Step build.checked consumer t a u ∧ u ≠ .panicked) ∧
    (∀ start producerPos headers, start % 8 = 0 → start < 2 ^ 64 →
      producerPos ≤ 2 ^ 64 - 2 ^ 31 →
      (∃ as, Lts.Run (Step build consumer) (FixedRing start producerPos headers)
        .loadConsumerPos as .returned) ∧
      ∀ as t, Lts.Run (Step build consumer) (FixedRing start producerPos headers)
        .loadConsumerPos as t → callbacks as ≤ (producerPos - start + 7) / 8) := by
  refine ⟨?_, ?_⟩
  · intro as t a u hrun hstep hring
    have hsafe := run_safe consumer hrun
    obtain ⟨haction, hnext⟩ := step_safe consumer hsafe hstep hring
    refine ⟨haction, step_checked consumer hsafe hstep, ?_⟩
    rintro rfl
    exact hnext
  · intro start producerPos headers haligned hstart hproducer
    refine ⟨run_returns consumer headers haligned hstart hproducer, ?_⟩
    intro as t hrun
    have hcallbacks := (run_terminates consumer haligned hstart hproducer hrun).callbacks
    exact Nat.le_trans (Nat.le_add_right _ _) hcallbacks

theorem consumeRingRecords_safe_page :
    SafeAction 4096 [.loadConsumerPos 8, .loadProducerPos 24] (.storeStopped 8 .busy)
      (.loadHeader 8 BPF_RINGBUF_BUSY_BIT) ∧
    ∃ as, Lts.Run (Step ⟨.bits64, true⟩ pageRing) (FixedRing 8 24 fun _ => 0)
      .loadConsumerPos as .returned ∧ callbacks as ≤ 2 := by
  obtain ⟨hsafe, hreturns⟩ := consumeRingRecords_safe ⟨.bits64, true⟩ pageRing
  refine ⟨?_, ?_⟩
  · have hloaded : Lts.Run (Step ⟨.bits64, true⟩ pageRing) HostileRing .loadConsumerPos
        [.loadConsumerPos 8, .loadProducerPos 24] (.loadHeader ⟨8, 24, false⟩) :=
      .snoc (.snoc .nil (.loadConsumerPos 8) ⟨by decide, by decide⟩) (.loadProducerPos 8 24)
        (by change 24 ≤ 2 ^ 64 - 2 ^ 31; decide)
    exact (hsafe _ _ _ _ hloaded (.loadHeader ⟨8, 24, false⟩ BPF_RINGBUF_BUSY_BIT) trivial).1
  · obtain ⟨⟨as, hrun⟩, hcallbacks⟩ :=
      hreturns 8 24 (fun _ => 0) (by decide) (by decide) (by decide)
    exact ⟨as, hrun, hcallbacks as _ hrun⟩

end Ebpfkit
