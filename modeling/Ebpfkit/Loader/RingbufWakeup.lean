-- SUMMARY: A poll never sleeps on a record that it could deliver: the wait of a poll, interleaved with the kernel's notifications.
import Ebpfkit.Loader.RingbufMailbox

/-!
# Wake-ups

`poll_ringbuf` registers the ring with an epoll instance, waits, and consumes what
it finds. The epoll instance is new in every poll: it looks at the ring once after
it is registered, and is told of records that are settled later. A writer settles
its record first, and then looks whether the consumer stands at it; only then does
it notify. These two are separate steps, so that anything can happen in between.
A poll ends early when the callback unwinds, or when a system call fails.
-/

namespace Ebpfkit

/-- Where a poll stands. -/
inductive Phase where
  | outside
  | registered
  | blocked
  | consuming
  deriving DecidableEq, Repr

structure PollState where
  system : System
  phase : Phase
  signalled : Bool
  /-- The records whose writers have settled them, and are still to look at the
      consumer position. -/
  checks : List Nat

namespace PollState

def initial (bytes : Nat → UInt8) (pos : Nat) : PollState where
  system := .initial bytes pos
  phase := .outside
  signalled := false
  checks := []

/-- A record at the consumer position concerns whoever is registered. -/
def notified (w : PollState) (pos : Nat) : Bool :=
  w.signalled || ((w.phase == .registered || w.phase == .blocked) &&
    pos == w.system.ring.consumerPos)

end PollState

/-- The records that a step of the producer has settled. -/
def settledStarts (g g' : RingState) : List Nat :=
  ((g.records.zip g'.records).filter fun p => p.1.status == .busy && p.2.status != .busy).map
    fun p => p.1.start

inductive PollAction where
  | register
  | look
  | wake
  | consume (a : Action)
  | finish
  | leave
  | produce
  | notify
  deriving DecidableEq, Repr

/-- The steps of a poll and of the kernel, in any order. -/
inductive PollStep (build : Build) (consumer : RingbufConsumer build.arch) (w : PollState) :
    PollAction → PollState → Prop where
  | register (hphase : w.phase = .outside) :
      PollStep build consumer w .register { w with phase := .registered, signalled := false }
  /-- There is something to read as soon as the positions differ. -/
  | look (hphase : w.phase = .registered) :
      PollStep build consumer w .look { w with
        phase := .blocked
        signalled := w.signalled || w.system.ring.consumerPos != w.system.ring.producerPos }
  | wake (hphase : w.phase = .blocked) (hsignalled : w.signalled = true) :
      PollStep build consumer w .wake { w with
        phase := .consuming
        system := { w.system with control := .loadConsumerPos } }
  | consume {a : Action} {u : Control} (hphase : w.phase = .consuming)
      (hstep : Step build consumer w.system.control a u)
      (hanswer : w.system.Answers consumer.ringSize a) :
      PollStep build consumer w (.consume a) { w with
        system := { w.system.perform consumer.ringSize a with control := u } }
  | finish (hphase : w.phase = .consuming) (hreturned : w.system.control = .returned) :
      PollStep build consumer w .finish { w with phase := .outside }
  | leave (hphase : w.phase ≠ .outside) :
      PollStep build consumer w .leave { w with
        phase := .outside
        system := { w.system with control := .returned } }
  | produce {g : RingState} (hstep : ProducerStep consumer.ringSize w.system.ring g) :
      PollStep build consumer w .produce { w with
        system := { w.system with ring := g }
        checks := w.checks ++ settledStarts w.system.ring g }
  | notify {before after : List Nat} {pos : Nat} (hchecks : w.checks = before ++ pos :: after) :
      PollStep build consumer w .notify { w with
        signalled := w.notified pos
        checks := before ++ after }

/-! ## The invariant -/

/-- Nobody sleeps on a record that is settled, unless its writer has still to look. -/
def PollState.Watched (w : PollState) : Prop :=
  w.phase = .blocked → w.signalled = false → ∀ r ∈ w.system.ring.records,
    r.start = w.system.ring.consumerPos → r.status = .busy ∨ r.start ∈ w.checks

/-- A poll moves only the system of the ring and its consumer, and calls of the
    consumer are part of a poll. -/
structure PollInv {build : Build} (consumer : RingbufConsumer build.arch) (bytes : Nat → UInt8)
    (base : Nat) (w : PollState) : Prop where
  run : ∃ as, Lts.Run (FaultStep build consumer) Lts.Any (.initial bytes base) as w.system
  outside : w.phase ≠ .consuming → w.system.control = .returned
  watched : w.Watched

section Invariant

variable {build : Build} {consumer : RingbufConsumer build.arch} {bytes : Nat → UInt8} {base : Nat}
  {w w' : PollState}

theorem mem_settledStarts {ringSize : Nat} {g : RingState} {pre post : List Record} {r : Record}
    {status : Status} (hrecords : g.records = pre ++ r :: post) (hbusy : r.status = .busy)
    (hstatus : status ≠ .busy) : r.start ∈ settledStarts g (g.settle ringSize pre r post status) := by
  have hpair : (r, r.settle status) ∈
      g.records.zip (g.settle ringSize pre r post status).records := by
    have hzip : g.records.zip (g.settle ringSize pre r post status).records =
        pre.zip pre ++ (r, r.settle status) :: post.zip post := by
      rw [hrecords]
      exact List.zip_append rfl
    rw [hzip]
    exact List.mem_append_right _ List.mem_cons_self
  refine List.mem_map.mpr ⟨(r, r.settle status), List.mem_filter.mpr ⟨hpair, ?_⟩, rfl⟩
  simp [Record.settle, hbusy, hstatus]

/-- Settling a record changes no other one. -/
theorem mem_records_settle {ringSize : Nat} {g : RingState} {pre post : List Record} {r x : Record}
    {status : Status} (hrecords : g.records = pre ++ r :: post)
    (hmem : x ∈ (g.settle ringSize pre r post status).records) :
    x ∈ g.records ∨ x = r.settle status := by
  rw [hrecords]
  rcases List.mem_append.mp hmem with hpre | hmem
  · exact .inl (List.mem_append_left _ hpre)
  · rcases List.mem_cons.mp hmem with rfl | hpost
    · exact .inr rfl
    · exact .inl (List.mem_append_right _ (List.mem_cons_of_mem _ hpost))

/-- A record after a step of the producer is busy, was there before, or is one that
    the step has settled. -/
theorem mem_records_produce {ringSize : Nat} {g g' : RingState} {x : Record}
    (hstep : ProducerStep ringSize g g') (hwritten : ∀ r, g.producer = .written r → r.status = .busy)
    (hmem : x ∈ g'.records) : x.status = .busy ∨ x ∈ g.records ∨ x.start ∈ settledStarts g g' := by
  cases hstep with
  | loadConsumerPos hidle => exact .inr (.inl hmem)
  | giveUp hloaded => exact .inr (.inl hmem)
  | writeHeader hloaded hstart hbusy hroom hbound => exact .inr (.inl hmem)
  | writeByte hrecord hbusy hoffset hinside => exact .inr (.inl hmem)
  | publish hrecord =>
    rcases List.mem_append.mp hmem with hold | hnew
    · exact .inr (.inl hold)
    · rw [List.mem_singleton.mp hnew]
      exact .inl (hwritten _ hrecord)
  | commit hrecords hbusy | discard hrecords hbusy =>
    rcases mem_records_settle hrecords hmem with hold | rfl
    · exact .inr (.inl hold)
    · exact .inr (.inr (mem_settledStarts hrecords hbusy (by simp)))

/-- Where the positions agree there is no record to wait for. -/
theorem FaultInv.start_ne {s : System} {regular : List (List UInt8)} {done live : List Record}
    (h : FaultInv consumer base s regular done live) (heq : s.ring.consumerPos = s.ring.producerPos)
    {r : Record} (hmem : r ∈ s.ring.records) : r.start ≠ s.ring.consumerPos := by
  rw [h.ring.records] at hmem
  rcases List.mem_append.mp hmem with hdone | hlive
  · exact Nat.ne_of_lt (h.ring.start_lt.1 hdone)
  · have hbounds := h.ring.published.bounds hlive
    have hlen := r.size_add_le_len
    omega

/-- A step of a poll is a step of the system, or one that the system does not see. -/
theorem pollStep_run {a : PollAction} (h : PollInv consumer bytes base w)
    (hstep : PollStep build consumer w a w') :
    ∃ as, Lts.Run (FaultStep build consumer) Lts.Any (.initial bytes base) as w'.system := by
  obtain ⟨as, hrun⟩ := h.run
  cases hstep with
  | register hphase | look hphase | finish hphase hreturned | notify hchecks => exact ⟨as, hrun⟩
  | wake hphase hsignalled =>
    have hreturned : w.system.control = .returned := h.outside (by simp [hphase])
    exact ⟨_, hrun.snoc (.regular (.call hreturned)) trivial⟩
  | consume hphase hstep hanswer =>
    exact ⟨_, hrun.snoc (.regular (.consume hstep hanswer)) trivial⟩
  | leave hphase =>
    by_cases hcontrol : w.system.control = .returned
    · rw [← hcontrol]
      exact ⟨as, hrun⟩
    · exact ⟨_, hrun.snoc (.abandon hcontrol) trivial⟩
  | produce hstep => exact ⟨_, hrun.snoc (.regular (.produce hstep)) trivial⟩

theorem pollStep_outside {a : PollAction} (h : PollInv consumer bytes base w)
    (hstep : PollStep build consumer w a w') :
    w'.phase ≠ .consuming → w'.system.control = .returned := by
  cases hstep with
  | register hphase | look hphase => exact fun _ => h.outside (by simp [hphase])
  | wake hphase hsignalled => exact fun hne => absurd rfl hne
  | consume hphase hstep hanswer => exact fun hne => absurd hphase hne
  | finish hphase hreturned => exact fun _ => hreturned
  | leave hphase => exact fun _ => rfl
  | produce hstep | notify hchecks => exact h.outside

variable {pageSize len : Nat} (hmapped : mappingLen build.arch consumer.ringSize pageSize = some len)
  (haligned : base % 8 = 0) (hbound : base < 2 ^ 63)

include hmapped haligned hbound

theorem PollInv.ring (h : PollInv consumer bytes base w) :
    ∃ regular done live, FaultInv consumer base w.system regular done live := by
  obtain ⟨as, hrun⟩ := h.run
  exact (run_simulates hmapped haligned hbound hrun).1

theorem pollStep_watched {a : PollAction} (h : PollInv consumer bytes base w)
    (hstep : PollStep build consumer w a w') : w'.Watched := by
  obtain ⟨regular, done, live, hring⟩ := h.ring hmapped haligned hbound
  intro hblocked hsilent r hmem hstart
  cases hstep with
  | register hphase | wake hphase hsignalled => exact absurd hblocked (by simp)
  | look hphase =>
    simp only [Bool.or_eq_false_iff, bne_eq_false_iff_eq] at hsilent
    exact absurd hstart (hring.start_ne hsilent.2 hmem)
  | consume hphase hstep hanswer =>
    rw [hphase] at hblocked
    exact absurd hblocked (by simp)
  | finish hphase hreturned | leave hphase => exact absurd hblocked (by simp)
  | produce hstep =>
    obtain ⟨hpos, -, -⟩ := producerStep_ringInv hring.ring hstep
    rcases mem_records_produce hstep hring.written hmem with hbusy | hold | hsettled
    · exact .inl hbusy
    · rcases h.watched hblocked hsilent r hold (hstart.trans hpos) with hbusy | hcheck
      · exact .inl hbusy
      · exact .inr (List.mem_append_left _ hcheck)
    · exact .inr (List.mem_append_right _ hsettled)
  | @notify before after pos hchecks =>
    simp only [PollState.notified, Bool.or_eq_false_iff, Bool.and_eq_false_iff] at hsilent
    rcases h.watched hblocked hsilent.1 r hmem hstart with hbusy | hcheck
    · exact .inl hbusy
    · refine .inr ?_
      -- The check that was made is not the one at the consumer position.
      have hne : r.start ≠ pos := by
        rintro rfl
        have hblocked' : w.phase = .blocked := hblocked
        have hstart' : r.start = w.system.ring.consumerPos := hstart
        simp [hblocked', hstart'] at hsilent
      rw [hchecks] at hcheck
      simpa [hne] using hcheck

theorem run_pollInv {as : List PollAction}
    (hrun : Lts.Run (PollStep build consumer) Lts.Any (.initial bytes base) as w) :
    PollInv consumer bytes base w := by
  apply hrun.invariant fun _ w => PollInv consumer bytes base w
  · exact ⟨⟨[], .nil⟩, fun _ => rfl, fun hblocked => absurd hblocked (by simp [PollState.initial])⟩
  · intro as w a w' h hstep _
    exact ⟨pollStep_run h hstep, pollStep_outside h hstep,
      pollStep_watched hmapped haligned hbound h hstep⟩

/-- Where no settled record stands at the consumer position, the consumer has passed
    every record that no busy one stands before. -/
theorem PollInv.prefix_passed (h : PollInv consumer bytes base w)
    (hbusy : ∀ r ∈ w.system.ring.records, r.start = w.system.ring.consumerPos → r.status = .busy)
    {pre : List Record} (hpre : pre <+: w.system.ring.records)
    (hsettled : ∀ r ∈ pre, r.status ≠ .busy) :
    pre <+: recordsBelow w.system.ring w.system.ring.consumerPos := by
  obtain ⟨regular, done, live, hring⟩ := h.ring hmapped haligned hbound
  rw [hring.ring.recordsBelow_eq]
  rw [hring.ring.records] at hpre hbusy
  cases live with
  | nil => simpa using hpre
  | cons r rest =>
    obtain ⟨back, hback⟩ := hpre
    have hhead : r.status = .busy := hbusy r (by simp) hring.ring.published.1
    obtain ⟨mid, rfl, -⟩ := split_of_settled hback hsettled hhead
    exact List.prefix_append pre mid

/-- What the consumer has passed was delivered, record by record. -/
theorem PollInv.atLeastOnce (h : PollInv consumer bytes base w) :
    Mailbox.AtLeastOnce (payloads (recordsBelow w.system.ring w.system.ring.consumerPos))
      w.system.delivered := by
  obtain ⟨as, hrun⟩ := h.run
  obtain ⟨counts, again, haccount, hpassed⟩ := run_account hmapped haligned hbound hrun
  rw [← hpassed]
  exact ⟨counts, again, haccount.length, haccount.pos, haccount.log⟩

end Invariant

/-! ## No lost wake-ups -/

/-- Only notifications that are under way, and the poll itself. -/
def WithoutProducer (_ : List PollAction) (a : PollAction) : Prop := a = .notify ∨ a = .wake

/-- In every interleaving, a poll that sleeps has delivered, in order and each of them at least
    once, the committed records that no busy one stands before, unless a notification for the next
    record is under way; and a poll that blocks while the next record is settled wakes up without
    any further step of a producer. -/
theorem pollRingbuf_wakes (build : Build) (consumer : RingbufConsumer build.arch)
    {pageSize len base : Nat} {bytes : Nat → UInt8} {as : List PollAction} {w : PollState}
    (hmapped : mappingLen build.arch consumer.ringSize pageSize = some len)
    (haligned : base % 8 = 0) (hbound : base < 2 ^ 63)
    (hrun : Lts.Run (PollStep build consumer) Lts.Any (.initial bytes base) as w)
    (hblocked : w.phase = .blocked) :
    (w.signalled = false → w.system.ring.consumerPos ∉ w.checks →
      ∀ pre, pre <+: w.system.ring.records → (∀ r ∈ pre, r.status ≠ .busy) →
        Mailbox.AtLeastOnce (payloads pre) w.system.delivered) ∧
    ((∃ r ∈ w.system.ring.records, r.start = w.system.ring.consumerPos ∧ r.status ≠ .busy) →
      ∃ bs w', Lts.Run (PollStep build consumer) WithoutProducer w bs w' ∧ w'.phase = .consuming) := by
  have h := run_pollInv hmapped haligned hbound hrun
  refine ⟨?_, ?_⟩
  · intro hsilent hcheck pre hpre hsettled
    have hbusy : ∀ r ∈ w.system.ring.records, r.start = w.system.ring.consumerPos →
        r.status = .busy := by
      intro r hmem hstart
      refine (h.watched hblocked hsilent r hmem hstart).resolve_right ?_
      rw [hstart]
      exact hcheck
    have hpassed := h.prefix_passed hmapped haligned hbound hbusy hpre hsettled
    exact (h.atLeastOnce hmapped haligned hbound).front (hpassed.filterMap _)
  · rintro ⟨r, hmem, hstart, hstatus⟩
    cases hsignalled : w.signalled with
    | true => exact ⟨_, _, .snoc .nil (.wake hblocked hsignalled) (.inr rfl), rfl⟩
    | false =>
      have hcheck := (h.watched hblocked hsignalled r hmem hstart).resolve_left hstatus
      obtain ⟨before, after, hchecks⟩ := List.append_of_mem hcheck
      have hnotified : w.notified r.start = true := by
        simp [PollState.notified, hblocked, hstart]
      exact ⟨_, _, .snoc (.snoc .nil (.notify hchecks) (.inl rfl))
        (.wake hblocked hnotified) (.inr rfl), rfl⟩

/-- A record of one byte is committed while a poll sleeps, and its writer has not looked at the
    consumer position yet. Once it is delivered, the next poll sleeps. -/
theorem pollRingbuf_wakes_committed :
    (∃ as w, Lts.Run (PollStep ⟨.bits64, true⟩ pageRing) Lts.Any (.initial (fun _ => 7) 0) as w ∧
      w.phase = .blocked ∧ w.signalled = false ∧ w.checks = [0] ∧
      ∃ bs w', Lts.Run (PollStep ⟨.bits64, true⟩ pageRing) WithoutProducer w bs w' ∧
        w'.phase = .consuming) ∧
    ∃ as w, Lts.Run (PollStep ⟨.bits64, true⟩ pageRing) Lts.Any (.initial (fun _ => 7) 0) as w ∧
      w.phase = .blocked ∧ w.signalled = false ∧ w.checks = [] ∧
      Mailbox.AtLeastOnce [[7]] w.system.delivered := by
  have hmapped : mappingLen .bits64 4096 4096 = some 12288 := by decide
  have hinitial : Lts.Run (PollStep ⟨.bits64, true⟩ pageRing) Lts.Any (.initial (fun _ => 7) 0) []
      (.initial (fun _ => 7) 0) := .nil
  have hregistered := hinitial.snoc (.register rfl) trivial
  have hblocked := hregistered.snoc (.look rfl) trivial
  have hloaded := hblocked.snoc (.produce (.loadConsumerPos rfl)) trivial
  have hwritten := hloaded.snoc (.produce (.writeHeader
    (r := ⟨0, 1, by decide, .busy⟩) rfl rfl rfl (by decide) (by decide))) trivial
  have hpublished := hwritten.snoc (.produce (.publish rfl)) trivial
  have hcommitted := hpublished.snoc (.produce (@ProducerStep.commit _ _ [] [] _ rfl rfl)) trivial
  have hnotified := hcommitted.snoc (@PollStep.notify _ _ _ [] [] 0 rfl) trivial
  have hwoken := hnotified.snoc (.wake rfl rfl) trivial
  have hconsumer := hwoken.snoc (.consume rfl (.loadConsumerPos 0) rfl) trivial
  have hproducer := hconsumer.snoc (.consume rfl (.loadProducerPos 0 16) rfl) trivial
  have hheader := hproducer.snoc (.consume rfl (.loadHeader ⟨0, 16, false⟩ 1) rfl) trivial
  have hcallback := hheader.snoc (.consume rfl (.callback ⟨0, 16, false⟩ 8 1 16) trivial) trivial
  have hstored := hcallback.snoc (.consume rfl (.storeAdvanced ⟨16, 16, false⟩) trivial) trivial
  have hreturned := hstored.snoc (.consume rfl (.loadProducerPos 16 16) rfl) trivial
  have hfinished := hreturned.snoc (.finish rfl rfl) trivial
  have hagain := (hfinished.snoc (.register rfl) trivial).snoc (.look rfl) trivial
  obtain ⟨-, hwakes⟩ := pollRingbuf_wakes ⟨.bits64, true⟩ pageRing hmapped (by decide) (by decide)
    hcommitted rfl
  obtain ⟨hsleeps, -⟩ := pollRingbuf_wakes ⟨.bits64, true⟩ pageRing hmapped (by decide) (by decide)
    hagain rfl
  have hdelivered := hsleeps rfl List.not_mem_nil [⟨0, 1, by decide, .committed [7]⟩]
    (List.prefix_refl _) (by simp)
  refine ⟨⟨_, _, hcommitted, rfl, rfl, rfl, ?_⟩, _, _, hagain, rfl, rfl, rfl, hdelivered⟩
  exact hwakes ⟨_, List.mem_singleton.mpr rfl, rfl, by simp [Record.settle]⟩

end Ebpfkit
