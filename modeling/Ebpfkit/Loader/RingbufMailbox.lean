-- SUMMARY: The ring and its consumer refine a mailbox, also when calls are abandoned halfway.
import Ebpfkit.Loader.RingbufDelivery
import Ebpfkit.Mailbox

/-!
# Abandoned calls

The callback is code of the user. If it unwinds, or if the thread ends while a call
is in progress, the call makes no further access, and the next one starts from the
consumer position in shared memory. The consumer publishes that position after the
callback, so an abandoned call can deliver a record that the next call delivers
again. The mailbox says what such a reader guarantees; here every step of the ring
is shown to be a step of a mailbox, or one that the mailbox does not see.
-/

namespace Ebpfkit

inductive FaultAction where
  | regular (a : SystemAction)
  | abandon
  deriving DecidableEq, Repr

/-- Any interleaving, where a call can end at any point. -/
inductive FaultStep (build : Build) (consumer : RingbufConsumer build.arch) (s : System) :
    FaultAction → System → Prop where
  | regular {a : SystemAction} {s' : System} (hstep : SystemStep build consumer s a s') :
      FaultStep build consumer s (.regular a) s'
  | abandon (hcalled : s.control ≠ .returned) :
      FaultStep build consumer s .abandon { s with control := .returned }

/-! ## The mailbox of a system -/

def Record.slot (r : Record) : Mailbox.Slot (List UInt8) :=
  match r.status with
  | .busy => .reserved
  | .committed payload => .ready payload
  | .discarded => .dropped

theorem Record.slot_value? (r : Record) : r.slot.value? = r.payload? := by
  unfold Record.slot Record.payload?
  cases r.status <;> rfl

namespace System

def read (s : System) : Nat := (recordsBelow s.ring s.ring.consumerPos).length

/-- The next record was delivered, and its position is not published. -/
def handed (s : System) : Bool :=
  match s.control with
  | .storeAdvanced _ => ((s.ring.records[s.read]?).bind Record.payload?).isSome
  | _ => false

def mailbox (s : System) : Mailbox.State (List UInt8) where
  slots := s.ring.records.map Record.slot
  read := s.read
  handed := s.handed
  log := s.delivered

end System

/-- What a step shows: deliveries, and calls that are abandoned. -/
def FaultAction.observed : FaultAction → List Mailbox.Label
  | .regular (.consume (.callback _ _)) => [.hand]
  | .abandon => [.interrupt]
  | .regular _ => []

/-- What the mailbox shows of a step. -/
def observedLabel : Mailbox.Label → List Mailbox.Label
  | .hand => [.hand]
  | .interrupt => [.interrupt]
  | .reserve | .settle | .acknowledge | .skip => []

/-! ## The invariant -/

/-- The invariant of the system for some list of deliveries: that of the calls that were
    not abandoned. A record is busy when it is published. -/
structure FaultInv {build : Build} (consumer : RingbufConsumer build.arch) (base : Nat) (s : System)
    (regular : List (List UInt8)) (done live : List Record) : Prop where
  ring : RingInv consumer.ringSize base s.ring done live
  consumer : ConsumerInv consumer.ringSize s.ring done live regular s.control
  written : ∀ r, s.ring.producer = .written r → r.status = .busy

section Refinement

variable {build : Build} {consumer : RingbufConsumer build.arch} {base : Nat} {s s' : System}
  {regular : List (List UInt8)} {done live : List Record}

theorem FaultInv.read_eq (h : FaultInv consumer base s regular done live) :
    s.read = done.length := by
  rw [System.read, h.ring.recordsBelow_eq]

/-- The mailbox reads at the first live record. -/
theorem FaultInv.next_eq {r : Record} (h : FaultInv consumer base s regular done live)
    (hhead : [r] <+: live) : s.ring.records[s.read]? = some r := by
  obtain ⟨rest, rfl⟩ := hhead
  rw [h.read_eq, h.ring.records, List.getElem?_append_right (Nat.le_refl _), Nat.sub_self]
  rfl

/-- The store behind a record moves past it. -/
theorem FaultInv.read_advance {l : Locals} (h : FaultInv consumer base s regular done live)
    (hcontrol : s.control = .storeAdvanced l) (u : Control) :
    System.read { s.perform consumer.ringSize (.storeConsumerPos l.consumerPos) with control := u } =
      s.read + 1 := by
  have hconsumer := h.consumer
  rw [hcontrol] at hconsumer
  obtain ⟨-, r, ⟨rest, rfl⟩, hstatus, hpos, -⟩ := hconsumer
  have hbelow := (h.ring.advance hstatus).recordsBelow_eq
  rw [← hpos] at hbelow
  have hread : (recordsBelow { s.ring with consumerPos := l.consumerPos } l.consumerPos).length =
      s.read + 1 := by
    rw [hbelow, h.read_eq, List.length_append]
    rfl
  exact hread

/-- Only between a callback and the store that follows is a record handed over. -/
theorem handed_of_ne (h : ∀ l, s.control ≠ .storeAdvanced l) : s.handed = false := by
  unfold System.handed
  cases hcontrol : s.control with
  | storeAdvanced l => exact absurd hcontrol (h l)
  | _ => rfl

theorem handed_eq {l : Locals} {r : Record} (hcontrol : s.control = .storeAdvanced l)
    (hnext : s.ring.records[s.read]? = some r) : s.handed = r.payload?.isSome := by
  simp only [System.handed, hcontrol, hnext]
  rfl

/-- The mailbox depends on the records, the consumer position and the deliveries, and on
    whether a record is handed over. -/
theorem mailbox_congr {t : System} (hrecords : t.ring.records = s.ring.records)
    (hpos : t.ring.consumerPos = s.ring.consumerPos) (hhanded : t.handed = s.handed)
    (hdelivered : t.delivered = s.delivered) : t.mailbox = s.mailbox := by
  simp only [System.mailbox, System.read, recordsBelow, hrecords, hpos, hhanded, hdelivered]

theorem whileHead_ne_storeAdvanced (l l' : Locals) : whileHead l ≠ .storeAdvanced l' := by
  refine @whileHead_rule (fun t => t ≠ .storeAdvanced l') l ?_ ?_ ?_ <;> simp

theorem getElem?_slots (s : System) (i : Nat) :
    s.mailbox.slots[i]? = (s.ring.records[i]?).map Record.slot :=
  List.getElem?_map

/-! ## One step -/

/-- A run of the mailbox that matches a step. -/
def Matches (s s' : System) (observed : List Mailbox.Label) : Prop :=
  ∃ labels, Lts.Run Mailbox.Step Lts.Any s.mailbox labels s'.mailbox ∧
    labels.flatMap observedLabel = observed

theorem Matches.stutter (h : s'.mailbox = s.mailbox) : Matches s s' [] := by
  refine ⟨[], ?_, rfl⟩
  rw [h]
  exact .nil

theorem Matches.single {label : Mailbox.Label} {m : Mailbox.State (List UInt8)}
    (hstep : Mailbox.Step s.mailbox label m) (heq : s'.mailbox = m) :
    Matches s s' (observedLabel label) := by
  refine ⟨[label], ?_, ?_⟩
  · rw [heq]
    exact .snoc .nil hstep trivial
  · simp

/-- A settled record is discarded, unless it is committed. -/
theorem slot_eq_of_settled {r : Record} (h : r.status ≠ .busy) :
    (r.slot = .dropped ∧ r.payload? = none) ∨ ∃ payload, r.slot = .ready payload ∧
      r.payload? = some payload := by
  unfold Record.slot Record.payload?
  cases hstatus : r.status with
  | busy => exact absurd hstatus h
  | committed payload => exact .inr ⟨payload, rfl, rfl⟩
  | discarded => exact .inl ⟨rfl, rfl⟩

section Consume

variable {pageSize len : Nat}
  (hmapped : mappingLen build.arch consumer.ringSize pageSize = some len)

include hmapped

/-- A header that is loaded hands nothing over: where the loop advances at once, the record is
    discarded. -/
theorem handed_afterHeader {l : Locals} {rawLen : UInt32}
    (h : FaultInv consumer base s regular done live) (hcontrol : s.control = .loadHeader l)
    (hloaded : rawLen = Ring.readWord consumer.ringSize s.ring.bytes
      (recordOffset build consumer l.consumerPos)) :
    { s with control := afterHeader build consumer l rawLen }.handed = false := by
  have hconsumer := h.consumer
  rw [hcontrol] at hconsumer
  obtain ⟨r, hhead, hafter⟩ := afterHeader_head consumer hmapped h.ring hconsumer hloaded
  have hnext := h.next_eq hhead
  rw [hafter]
  cases hstatus : r.status with
  | busy => rfl
  | committed payload => rfl
  | discarded =>
    change ((s.ring.records[s.read]?).bind Record.payload?).isSome = false
    simp [hnext, Record.payload?, hstatus]

/-- Every access of a call is a step of the mailbox, or one that it does not see. -/
theorem consume_matches {a : Action} {u : Control}
    (h : FaultInv consumer base s regular done live) (hstep : Step build consumer s.control a u)
    (hanswer : s.Answers consumer.ringSize a) :
    Matches s { s.perform consumer.ringSize a with control := u }
      (FaultAction.observed (.regular (.consume a))) := by
  have hring := h.ring
  have hconsumer := h.consumer
  generalize hcontrol : s.control = t at hstep hconsumer
  cases hstep with
  | loadConsumerPos value =>
    have hbefore : s.handed = false := handed_of_ne (by simp [hcontrol])
    exact .stutter (mailbox_congr rfl rfl hbefore.symm rfl)
  | loadProducerPos pos value =>
    have hbefore : s.handed = false := handed_of_ne (by simp [hcontrol])
    refine .stutter (mailbox_congr rfl rfl ?_ rfl)
    rw [hbefore]
    exact handed_of_ne (whileHead_ne_storeAdvanced _)
  | loadHeader l rawLen =>
    have hbefore : s.handed = false := handed_of_ne (by simp [hcontrol])
    refine .stutter (mailbox_congr rfl rfl ?_ rfl)
    rw [hbefore]
    exact handed_afterHeader hmapped h hcontrol hanswer
  | callback l dataOffset dataLen recordLen =>
    obtain ⟨hpos, -, -, r, payload, hhead, hstatus, rfl, rfl, rfl⟩ := hconsumer
    obtain ⟨hstart, hholds, -⟩ := hring.head hhead
    have hbefore : s.handed = false := handed_of_ne (by simp [hcontrol])
    have hnext := h.next_eq hhead
    have hready : s.mailbox.slots[s.mailbox.read]? = some (.ready payload) := by
      rw [getElem?_slots]
      change (s.ring.records[s.read]?).map Record.slot = _
      simp [hnext, Record.slot, hstatus]
    have hslice : Ring.slice consumer.ringSize s.ring.bytes
        (s.ring.consumerPos % consumer.ringSize + BPF_RINGBUF_HDR_SZ) r.size = payload := by
      rw [Ring.slice_mod_add, ← hstart]
      exact hholds.payload payload hstatus
    refine .single (.hand hbefore hready) ?_
    rw [advance_record consumer hring hpos hhead]
    have hafter : ((s.ring.records[s.read]?).bind Record.payload?).isSome = true := by
      simp [hnext, Record.payload?, hstatus]
    exact Mailbox.State.ext rfl rfl hafter (congrArg (fun slice => s.delivered ++ [slice]) hslice)
  | storeAdvanced l =>
    obtain ⟨-, r, hhead, hstatus, hpos, -⟩ := hconsumer
    have hnext := h.next_eq hhead
    -- The reader of the mailbox moves past the record.
    have hmailbox : System.mailbox { s.perform consumer.ringSize (.storeConsumerPos l.consumerPos)
        with control := whileHead { l with consumedAny := true } } =
        { s.mailbox with read := s.read + 1, handed := false } :=
      Mailbox.State.ext rfl (h.read_advance hcontrol _)
        (handed_of_ne (whileHead_ne_storeAdvanced _)) rfl
    have hslot : s.mailbox.slots[s.mailbox.read]? = some r.slot := by
      rw [getElem?_slots]
      exact congrArg (Option.map Record.slot) hnext
    have hhanded : s.mailbox.handed = r.payload?.isSome := handed_eq hcontrol hnext
    rcases slot_eq_of_settled hstatus with ⟨hdropped, hnone⟩ | ⟨payload, -, hsome⟩
    · rw [hnone] at hhanded
      rw [hdropped] at hslot
      refine .single (.skip hhanded hslot) ?_
      rw [hmailbox]
      exact Mailbox.State.ext rfl rfl hhanded.symm rfl
    · rw [hsome] at hhanded
      exact .single (.acknowledge hhanded) hmailbox
  | storeStopped pos reason =>
    obtain ⟨rfl, -, -⟩ := hconsumer
    have hbefore : s.handed = false := handed_of_ne (by simp [hcontrol])
    exact .stutter (mailbox_congr rfl rfl hbefore.symm rfl)

end Consume

/-- The first live record is kept by the producer once it is settled, and with it whether it is
    handed over. -/
theorem handed_produce {g : RingState} {live' : List Record}
    (h : FaultInv consumer base s regular done live)
    (h' : FaultInv consumer base { s with ring := g } regular done live')
    (hkeeps : KeepsSettled live live') : { s with ring := g }.handed = s.handed := by
  by_cases hstored : ∃ l, s.control = .storeAdvanced l
  · obtain ⟨l, hcontrol⟩ := hstored
    have hconsumer := h.consumer
    rw [hcontrol] at hconsumer
    obtain ⟨-, r, hhead, hstatus, -, -⟩ := hconsumer
    have hkept : [r] <+: live' := hkeeps [r] hhead (by simpa using hstatus)
    have hafter : { s with ring := g }.handed = r.payload?.isSome :=
      handed_eq hcontrol (h'.next_eq hkept)
    rw [hafter, handed_eq hcontrol (h.next_eq hhead)]
  · have hnone : ∀ l, s.control ≠ .storeAdvanced l := fun l hcontrol => hstored ⟨l, hcontrol⟩
    have hafter : { s with ring := g }.handed = false := handed_of_ne hnone
    rw [hafter, handed_of_ne hnone]

theorem producerStep_written {ringSize : Nat} {g g' : RingState}
    (h : ∀ r, g.producer = .written r → r.status = .busy) (hstep : ProducerStep ringSize g g') :
    ∀ r, g'.producer = .written r → r.status = .busy := by
  cases hstep with
  | loadConsumerPos hidle => simp
  | giveUp hloaded => simp
  | writeHeader hloaded hstart hbusy hroom hbound => simpa using hbusy
  | publish hwritten => simp
  | writeByte hmem hbusy hoffset hinside => exact h
  | commit hrecords hbusy => exact h
  | discard hrecords hbusy => exact h

theorem FaultInv.produce {g : RingState} (h : FaultInv consumer base s regular done live)
    (hstep : ProducerStep consumer.ringSize s.ring g) :
    ∃ live', FaultInv consumer base { s with ring := g } regular done live' ∧
      KeepsSettled live live' := by
  obtain ⟨hpos, hproducer, live', hring⟩ := producerStep_ringInv h.ring hstep
  have hkeeps := producerStep_keepsSettled hstep
  rw [h.ring.records, hring.records] at hkeeps
  have hkeeps := hkeeps.of_append h.ring.settled
  exact ⟨live', ⟨hring, h.consumer.produce hpos hproducer hkeeps,
    producerStep_written h.written hstep⟩, hkeeps⟩

/-- A record that is settled is settled in the mailbox. -/
theorem settle_slots {ringSize : Nat} {g : RingState} {pre post : List Record} {r : Record}
    (status : Status) (hrecords : g.records = pre ++ r :: post) :
    (g.settle ringSize pre r post status).records.map Record.slot =
      (g.records.map Record.slot).set pre.length (r.settle status).slot := by
  simp [RingState.settle, hrecords]

theorem produce_matches {g : RingState} (h : FaultInv consumer base s regular done live)
    (hstep : ProducerStep consumer.ringSize s.ring g) :
    Matches s { s with ring := g } (FaultAction.observed (.regular .produce)) := by
  obtain ⟨live', h', hkeeps⟩ := h.produce hstep
  have hread : { s with ring := g }.read = s.read := h'.read_eq.trans h.read_eq.symm
  have hhanded := handed_produce h h' hkeeps
  cases hstep with
  | loadConsumerPos hidle => exact .stutter (Mailbox.State.ext rfl hread hhanded rfl)
  | giveUp hloaded => exact .stutter (Mailbox.State.ext rfl hread hhanded rfl)
  | writeHeader hloaded hstart hbusy hroom hbound =>
    exact .stutter (Mailbox.State.ext rfl hread hhanded rfl)
  | writeByte hmem hbusy hoffset hinside =>
    exact .stutter (Mailbox.State.ext rfl hread hhanded rfl)
  | @publish r hwritten =>
    have hbusy := h.written r hwritten
    refine .single .reserve (Mailbox.State.ext ?_ hread hhanded rfl)
    simp [System.mailbox, Record.slot, hbusy]
  | @commit pre post r hrecords hbusy =>
    refine .single (.settle (i := pre.length) ?_ (by simp [Record.slot, Record.settle]))
      (Mailbox.State.ext (settle_slots _ hrecords) hread hhanded rfl)
    rw [getElem?_slots, hrecords]
    simp [Record.slot, hbusy]
  | @discard pre post r hrecords hbusy =>
    refine .single (.settle (i := pre.length) ?_ (by simp [Record.slot, Record.settle]))
      (Mailbox.State.ext (settle_slots _ hrecords) hread hhanded rfl)
    rw [getElem?_slots, hrecords]
    simp [Record.slot, hbusy]

/-! ## Runs -/

theorem System.answers_delivered {ringSize : Nat} {a : Action} (h : s.Answers ringSize a) :
    { s with delivered := regular }.Answers ringSize a := by
  cases a <;> exact h

theorem System.perform_delivered (ringSize : Nat) (s : System) (a : Action) :
    ({ s with delivered := regular }.perform ringSize a).ring = (s.perform ringSize a).ring := by
  cases a <;> rfl

section Runs

variable {pageSize len : Nat}
  (hmapped : mappingLen build.arch consumer.ringSize pageSize = some len)

include hmapped

theorem FaultInv.consume {a : Action} {u : Control}
    (h : FaultInv consumer base s regular done live) (hstep : Step build consumer s.control a u)
    (hanswer : s.Answers consumer.ringSize a) :
    ∃ regular' done' live', FaultInv consumer base
      { s.perform consumer.ringSize a with control := u } regular' done' live' := by
  have hregular : SystemInv consumer base { s with delivered := regular } done live :=
    ⟨h.ring, h.consumer⟩
  obtain ⟨done', live', hring, hconsumer⟩ :=
    step_consume consumer hmapped hregular hstep (System.answers_delivered hanswer)
  have hproducer : (s.perform consumer.ringSize a).ring.producer = s.ring.producer := by
    cases a <;> rfl
  simp only [System.perform_delivered] at hring hconsumer
  refine ⟨_, done', live', hring, hconsumer, ?_⟩
  simp only [hproducer]
  exact h.written

/-- The invariant is kept, and the mailbox follows. -/
theorem faultStep_simulates {a : FaultAction} (h : FaultInv consumer base s regular done live)
    (hstep : FaultStep build consumer s a s') :
    (∃ regular' done' live', FaultInv consumer base s' regular' done' live') ∧
      Matches s s' a.observed := by
  cases hstep with
  | abandon hcalled =>
    refine ⟨⟨payloads done, done, live, h.ring, rfl, h.written⟩, ?_⟩
    exact .single .interrupt (Mailbox.State.ext rfl rfl rfl rfl)
  | regular hstep =>
    cases hstep with
    | call hreturned =>
      have hconsumer := h.consumer
      rw [hreturned] at hconsumer
      have hbefore : s.handed = false := handed_of_ne (by simp [hreturned])
      exact ⟨⟨regular, done, live, h.ring, hconsumer, h.written⟩,
        .stutter (mailbox_congr rfl rfl hbefore.symm rfl)⟩
    | consume hstep hanswer =>
      exact ⟨h.consume hmapped hstep hanswer, consume_matches hmapped h hstep hanswer⟩
    | produce hstep =>
      obtain ⟨live', h', -⟩ := h.produce hstep
      exact ⟨⟨regular, done, live', h'⟩, produce_matches h hstep⟩

omit hmapped in
theorem ringInv_empty {ringSize : Nat} {bytes : Nat → UInt8} (haligned : base % 8 = 0)
    (hbound : base < 2 ^ 63) : RingInv ringSize base (.empty bytes base) [] [] where
  aligned := haligned
  records := rfl
  settled := by simp
  consumed := rfl
  published := rfl
  reserved := ⟨base, rfl, Nat.le_add_right _ _, hbound⟩
  held := by simp [RingState.pending, RingState.empty]
  snapshot := by simp [RingState.empty]

/-- Every run is followed by a run of the mailbox that shows the same deliveries and
    interruptions, and the invariant holds in the end. -/
theorem run_simulates {as : List FaultAction} {bytes : Nat → UInt8}
    (haligned : base % 8 = 0) (hbound : base < 2 ^ 63)
    (hrun : Lts.Run (FaultStep build consumer) Lts.Any (.initial bytes base) as s) :
    (∃ regular done live, FaultInv consumer base s regular done live) ∧
      ∃ labels, Lts.Run Mailbox.Step Lts.Any (Mailbox.empty _) labels s.mailbox ∧
        labels.flatMap observedLabel = as.flatMap FaultAction.observed := by
  let R (s : System) (m : Mailbox.State (List UInt8)) : Prop :=
    (∃ regular done live, FaultInv consumer base s regular done live) ∧ m = s.mailbox
  have hinit : R (.initial bytes base) (Mailbox.empty _) := by
    refine ⟨⟨[], [], [], ringInv_empty haligned hbound, rfl, ?_⟩, rfl⟩
    intro r hr
    exact absurd hr (by simp [System.initial, RingState.empty])
  have hstep : ∀ t a u m, R t m → FaultStep build consumer t a u →
      ∃ labels m', Lts.Run Mailbox.Step Lts.Any m labels m' ∧ R u m' ∧
        labels.flatMap observedLabel = a.observed := by
    rintro t a u m ⟨⟨regular, done, live, h⟩, rfl⟩ hstep
    obtain ⟨hinv, labels, hlabels, hobserved⟩ := faultStep_simulates hmapped h hstep
    exact ⟨labels, u.mailbox, hlabels, ⟨hinv, rfl⟩, hobserved⟩
  obtain ⟨labels, m, hlabels, ⟨hinv, rfl⟩, hobserved⟩ :=
    hrun.simulates R FaultAction.observed observedLabel hstep hinit
  exact ⟨hinv, labels, hlabels, hobserved⟩

end Runs

end Refinement

/-! ## At least once -/

/-- A callback unwinds, and its record is delivered once more by the next call. -/
theorem exists_redelivery :
    ∃ as s, Lts.Run (FaultStep ⟨.bits64, true⟩ pageRing) Lts.Any (.initial (fun _ => 7) 0) as s ∧
      as.count .abandon = 1 ∧ s.control = .returned ∧ s.ring.consumerPos = 16 ∧
      s.delivered = [[7], [7]] := by
  have hinitial : Lts.Run (FaultStep ⟨.bits64, true⟩ pageRing) Lts.Any (.initial (fun _ => 7) 0) []
      (.initial (fun _ => 7) 0) := .nil
  have hloaded := hinitial.snoc (.regular (.produce (.loadConsumerPos rfl))) trivial
  have hwritten := hloaded.snoc (.regular (.produce (.writeHeader
    (r := ⟨0, 1, by decide, .busy⟩) rfl rfl rfl (by decide) (by decide)))) trivial
  have hpublished := hwritten.snoc (.regular (.produce (.publish rfl))) trivial
  have hcommitted := hpublished.snoc (.regular (.produce
    (@ProducerStep.commit _ _ [] [] _ rfl rfl))) trivial
  have hcalled := hcommitted.snoc (.regular (.call rfl)) trivial
  have hconsumer := hcalled.snoc (.regular (.consume (.loadConsumerPos 0) rfl)) trivial
  have hproducer := hconsumer.snoc (.regular (.consume (.loadProducerPos 0 16) rfl)) trivial
  have hheader := hproducer.snoc (.regular (.consume (.loadHeader ⟨0, 16, false⟩ 1) rfl)) trivial
  have hcallback := hheader.snoc
    (.regular (.consume (.callback ⟨0, 16, false⟩ 8 1 16) trivial)) trivial
  have habandoned := hcallback.snoc (.abandon (by simp [advance, Build.add])) trivial
  have hcalled' := habandoned.snoc (.regular (.call rfl)) trivial
  have hconsumer' := hcalled'.snoc (.regular (.consume (.loadConsumerPos 0) rfl)) trivial
  have hproducer' := hconsumer'.snoc (.regular (.consume (.loadProducerPos 0 16) rfl)) trivial
  have hheader' := hproducer'.snoc
    (.regular (.consume (.loadHeader ⟨0, 16, false⟩ 1) rfl)) trivial
  have hcallback' := hheader'.snoc
    (.regular (.consume (.callback ⟨0, 16, false⟩ 8 1 16) trivial)) trivial
  have hstored := hcallback'.snoc
    (.regular (.consume (.storeAdvanced ⟨16, 16, false⟩) trivial)) trivial
  have hreturned := hstored.snoc (.regular (.consume (.loadProducerPos 16 16) rfl)) trivial
  exact ⟨_, _, hreturned, rfl, rfl, rfl, rfl⟩

theorem count_observedLabel (labels : List Mailbox.Label) :
    (labels.flatMap observedLabel).count .interrupt = labels.count .interrupt := by
  induction labels with
  | nil => rfl
  | cons label labels ih => cases label <;> simp [observedLabel, ih]

theorem count_observed (as : List FaultAction) :
    (as.flatMap FaultAction.observed).count .interrupt = as.count .abandon := by
  induction as with
  | nil => rfl
  | cons a as ih =>
    rw [List.flatMap_cons, List.count_append, List.count_cons, ih, Nat.add_comm]
    congr 1
    rcases a with (_ | a | _) | _
    · rfl
    · cases a <;> rfl
    · rfl
    · rfl

/-- The ring and its consumer refine a mailbox, in every interleaving with the producer and with
    calls that are abandoned at any point: the same deliveries and interruptions, in the same
    order. -/
theorem consumeRingRecords_refines_mailbox (build : Build) (consumer : RingbufConsumer build.arch)
    {pageSize len base : Nat} {bytes : Nat → UInt8} {as : List FaultAction} {s : System}
    (hmapped : mappingLen build.arch consumer.ringSize pageSize = some len)
    (haligned : base % 8 = 0) (hbound : base < 2 ^ 63)
    (hrun : Lts.Run (FaultStep build consumer) Lts.Any (.initial bytes base) as s) :
    ∃ labels, Lts.Run Mailbox.Step Lts.Any (Mailbox.empty _) labels s.mailbox ∧
      labels.flatMap observedLabel = as.flatMap FaultAction.observed :=
  (run_simulates hmapped haligned hbound hrun).2

/-- The mailbox hands its value over twice as well. -/
theorem consumeRingRecords_refines_mailbox_twice :
    ∃ labels m, Lts.Run Mailbox.Step Lts.Any (Mailbox.empty (List UInt8)) labels m ∧
      m.log = [[7], [7]] ∧
      labels.flatMap observedLabel ≠ [] := by
  obtain ⟨as, s, hrun, hcount, -, -, hdelivered⟩ := exists_redelivery
  obtain ⟨labels, hlabels, hobserved⟩ := consumeRingRecords_refines_mailbox ⟨.bits64, true⟩ pageRing
    (show mappingLen .bits64 4096 4096 = some 12288 by decide) (by decide) (by decide) hrun
  refine ⟨labels, s.mailbox, hlabels, hdelivered, ?_⟩
  intro hnone
  rw [hobserved] at hnone
  have hzero := count_observed as
  rw [hnone, hcount] at hzero
  exact absurd hzero (by simp)

theorem FaultInv.passed_eq {build : Build} {consumer : RingbufConsumer build.arch} {base : Nat}
    {s : System} {regular : List (List UInt8)} {done live : List Record}
    (h : FaultInv consumer base s regular done live) :
    s.mailbox.passed = payloads (recordsBelow s.ring s.ring.consumerPos) := by
  have hslots : (Mailbox.Slot.value? ∘ Record.slot) = Record.payload? :=
    funext Record.slot_value?
  have hpassed : s.mailbox.passed =
      ((s.ring.records.map Record.slot).take s.read).filterMap Mailbox.Slot.value? := rfl
  rw [hpassed, h.read_eq, h.ring.records, h.ring.recordsBelow_eq, List.map_append,
    List.take_left' (List.length_map _), List.filterMap_map, hslots]
  rfl

/-- The account of the mailbox, with abandoned calls for its interruptions. -/
theorem run_account {build : Build} {consumer : RingbufConsumer build.arch}
    {pageSize len base : Nat} {bytes : Nat → UInt8} {as : List FaultAction} {s : System}
    (hmapped : mappingLen build.arch consumer.ringSize pageSize = some len)
    (haligned : base % 8 = 0) (hbound : base < 2 ^ 63)
    (hrun : Lts.Run (FaultStep build consumer) Lts.Any (.initial bytes base) as s) :
    ∃ counts again, Mailbox.Account (as.count .abandon) s.mailbox counts again ∧
      s.mailbox.passed = payloads (recordsBelow s.ring s.ring.consumerPos) := by
  obtain ⟨⟨regular, done, live, h⟩, labels, hlabels, hobserved⟩ :=
    run_simulates hmapped haligned hbound hrun
  obtain ⟨counts, again, haccount⟩ := Mailbox.run_account hlabels
  have hinterrupts : labels.count .interrupt = as.count .abandon := by
    rw [← count_observedLabel, hobserved, count_observed]
  rw [hinterrupts] at haccount
  exact ⟨counts, again, haccount, h.passed_eq⟩

/-- Whatever calls are abandoned, no committed record below the consumer position is lost or out of
    order: the deliveries are the payloads of these records in order, each one or more times in a
    row, and then the payload of the next record as often as it was delivered in vain. There are no
    more repetitions than abandoned calls, but for a callback that has just returned. -/
theorem consumeRingRecords_atLeastOnce (build : Build) (consumer : RingbufConsumer build.arch)
    {pageSize len base : Nat} {bytes : Nat → UInt8} {as : List FaultAction} {s : System}
    (hmapped : mappingLen build.arch consumer.ringSize pageSize = some len)
    (haligned : base % 8 = 0) (hbound : base < 2 ^ 63)
    (hrun : Lts.Run (FaultStep build consumer) Lts.Any (.initial bytes base) as s) :
    let passed := payloads (recordsBelow s.ring s.ring.consumerPos)
    ∃ counts again, counts.length = passed.length ∧ (∀ c ∈ counts, 0 < c) ∧
      s.delivered = Mailbox.repeats counts passed ++ again ∧
      (∀ payload ∈ again, ∃ r, s.ring.records[s.read]? = some r ∧ r.status = .committed payload) ∧
      s.delivered.length ≤ passed.length + as.count .abandon + s.handed.toNat := by
  obtain ⟨counts, again, haccount, hpassed⟩ := run_account hmapped haligned hbound hrun
  have hlength := haccount.length
  have hlog := haccount.log
  have hle := haccount.log_le
  rw [hpassed] at hlength hlog hle
  refine ⟨counts, again, hlength, haccount.pos, hlog, ?_, hle⟩
  intro payload hpayload
  have hnext := haccount.next payload hpayload
  rw [getElem?_slots, Option.map_eq_some_iff] at hnext
  obtain ⟨r, hrecord, hslot⟩ := hnext
  refine ⟨r, hrecord, ?_⟩
  unfold Record.slot at hslot
  cases hstatus : r.status with
  | busy => simp [hstatus] at hslot
  | committed x => simpa [hstatus] using hslot
  | discarded => simp [hstatus] at hslot

/-- One repetition for the one call that was abandoned. -/
theorem consumeRingRecords_atLeastOnce_twice :
    ∃ as s, Lts.Run (FaultStep ⟨.bits64, true⟩ pageRing) Lts.Any (.initial (fun _ => 7) 0) as s ∧
      s.delivered = [[7], [7]] ∧ ∃ counts again,
        s.delivered = Mailbox.repeats counts (payloads (recordsBelow s.ring 16)) ++ again ∧
        s.delivered.length ≤ (payloads (recordsBelow s.ring 16)).length + 1 := by
  obtain ⟨as, s, hrun, hcount, hreturned, hpos, hdelivered⟩ := exists_redelivery
  obtain ⟨counts, again, -, -, hlog, -, hle⟩ := consumeRingRecords_atLeastOnce ⟨.bits64, true⟩
    pageRing (show mappingLen .bits64 4096 4096 = some 12288 by decide) (by decide) (by decide) hrun
  have hfree : s.handed = false := handed_of_ne (by simp [hreturned])
  rw [hpos] at hlog hle
  rw [hcount, hfree] at hle
  exact ⟨as, s, hrun, hdelivered, counts, again, hlog, hle⟩

end Ebpfkit
