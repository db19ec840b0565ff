-- SUMMARY: Every committed record is delivered exactly once and in order, in any interleaving with the producer.
import Ebpfkit.Loader.RingbufRecords

/-!
# Delivery

The consumer stands at the first live record, with everything before it
delivered. The producer does not disturb this, since it keeps settled records as
they are; a step of the consumer is justified by what the memory holds.
-/

namespace Ebpfkit

/-! ## The consumer -/

/-- What is to be delivered of the records. -/
def payloads (l : List Record) : List (List UInt8) := l.filterMap Record.payload?

/-- Where the consumer stands, and what it has delivered. From the callback on, it
    has delivered one record more than it has advanced past. -/
def ConsumerInv (ringSize : Nat) (g : RingState) (done live : List Record)
    (delivered : List (List UInt8)) : Control → Prop
  | .loadConsumerPos | .returned => delivered = payloads done
  | .loadProducerPos pos => pos = g.consumerPos ∧ delivered = payloads done
  | .loadHeader l =>
    l.consumerPos = g.consumerPos ∧ l.consumerPos < l.producerPos ∧
      l.producerPos ≤ g.producerPos ∧ delivered = payloads done
  | .callback l dataOffset dataLen recordLen =>
    l.consumerPos = g.consumerPos ∧ l.producerPos ≤ g.producerPos ∧ delivered = payloads done ∧
      ∃ r payload, [r] <+: live ∧ r.status = .committed payload ∧
        dataOffset = g.consumerPos % ringSize + BPF_RINGBUF_HDR_SZ ∧ dataLen = r.size ∧
        recordLen = r.len
  | .storeAdvanced l =>
    l.producerPos ≤ g.producerPos ∧
      ∃ r, [r] <+: live ∧ r.status ≠ .busy ∧ l.consumerPos = g.consumerPos + r.len ∧
        delivered = payloads (done ++ [r])
  | .storeStopped pos reason =>
    pos = g.consumerPos ∧ reason = .busy ∧ delivered = payloads done
  | .panicked => False

section Consumer

variable {ringSize base : Nat} {g g' : RingState} {done live live' : List Record}
  {delivered : List (List UInt8)} {t : Control}

theorem payloads_committed {r : Record} {payload : List UInt8} (l : List Record)
    (h : r.status = .committed payload) : payloads (l ++ [r]) = payloads l ++ [payload] := by
  simp [payloads, Record.payload?, h]

theorem payloads_discarded {r : Record} (l : List Record) (h : r.status = .discarded) :
    payloads (l ++ [r]) = payloads l := by
  simp [payloads, Record.payload?, h]

theorem KeepsSettled.of_append (h : KeepsSettled (done ++ live) (done ++ live'))
    (hsettled : ∀ r ∈ done, r.status ≠ .busy) : KeepsSettled live live' := by
  intro pre hpre hpre_settled
  have hprefix : done ++ pre <+: done ++ live := (List.prefix_append_right_inj done).mpr hpre
  apply (List.prefix_append_right_inj done).mp
  apply h _ hprefix
  intro r hmem
  rcases List.mem_append.mp hmem with hdone | hmem
  · exact hsettled r hdone
  · exact hpre_settled r hmem

/-- The producer does not disturb the consumer. -/
theorem ConsumerInv.produce (h : ConsumerInv ringSize g done live delivered t)
    (hconsumer : g'.consumerPos = g.consumerPos) (hproducer : g.producerPos ≤ g'.producerPos)
    (hkeeps : KeepsSettled live live') : ConsumerInv ringSize g' done live' delivered t := by
  cases t with
  | loadConsumerPos => exact h
  | loadProducerPos pos =>
    obtain ⟨hpos, hdelivered⟩ := h
    exact ⟨hpos.trans hconsumer.symm, hdelivered⟩
  | loadHeader l =>
    obtain ⟨hpos, hbefore, hloaded, hdelivered⟩ := h
    exact ⟨hpos.trans hconsumer.symm, hbefore, Nat.le_trans hloaded hproducer, hdelivered⟩
  | callback l dataOffset dataLen recordLen =>
    obtain ⟨hpos, hloaded, hdelivered, r, payload, hhead, hstatus, hoffset, hlen, hrecord⟩ := h
    have hkept : [r] <+: live' := hkeeps [r] hhead (by simp [hstatus])
    rw [← hconsumer] at hoffset
    exact ⟨hpos.trans hconsumer.symm, Nat.le_trans hloaded hproducer, hdelivered, r, payload, hkept,
      hstatus, hoffset, hlen, hrecord⟩
  | storeAdvanced l =>
    obtain ⟨hloaded, r, hhead, hstatus, hpos, hdelivered⟩ := h
    have hkept : [r] <+: live' := hkeeps [r] hhead (by simpa using hstatus)
    rw [← hconsumer] at hpos
    exact ⟨Nat.le_trans hloaded hproducer, r, hkept, hstatus, hpos, hdelivered⟩
  | storeStopped pos reason =>
    obtain ⟨hpos, hreason, hdelivered⟩ := h
    exact ⟨hpos.trans hconsumer.symm, hreason, hdelivered⟩
  | returned => exact h
  | panicked => exact h

/-- The loops go on from the position that was published last. -/
theorem consumerInv_whileHead {l : Locals} (hpos : l.consumerPos = g.consumerPos)
    (hloaded : l.producerPos ≤ g.producerPos) (hdelivered : delivered = payloads done) :
    ConsumerInv ringSize g done live delivered (whileHead l) := by
  apply whileHead_rule
  · exact fun hlt => ⟨hpos, hlt, hloaded, hdelivered⟩
  · exact fun _ _ => ⟨hpos, hdelivered⟩
  · exact fun _ _ => hdelivered

end Consumer

section Calls

variable {build : Build} (consumer : RingbufConsumer build.arch) {base : Nat} {g : RingState}
  {s s' : System} {done live : List Record} {delivered : List (List UInt8)}

/-- The invariant of the system. -/
structure SystemInv (base : Nat) (s : System) (done live : List Record) : Prop where
  ring : RingInv consumer.ringSize base s.ring done live
  consumer : ConsumerInv consumer.ringSize s.ring done live s.delivered s.control

/-- Advancing past the first live record does not overflow. -/
theorem advance_record {l : Locals} {r : Record} (h : RingInv consumer.ringSize base g done live)
    (hpos : l.consumerPos = g.consumerPos) (hhead : [r] <+: live) :
    advance build l r.len = .storeAdvanced { l with consumerPos := g.consumerPos + r.len } := by
  have hmem : r ∈ live ++ g.pending := List.mem_append_left _ (hhead.mem List.mem_cons_self)
  obtain ⟨hlow, -, hbound⟩ := h.bounds hmem
  rw [advance_of_lt (by omega), hpos]

variable {pageSize len : Nat}
  (hmapped : mappingLen build.arch consumer.ringSize pageSize = some len)

include hmapped

/-- The consumer reads the header of a record that fits into the ring. -/
theorem afterHeader_record {l : Locals} {r : Record} (hfits : r.len ≤ consumer.ringSize) :
    afterHeader build consumer l r.header = match r.status with
      | .busy => .storeStopped l.consumerPos .busy
      | .committed _ =>
        .callback l (l.consumerPos % consumer.ringSize + BPF_RINGBUF_HDR_SZ) r.size r.len
      | .discarded => advance build l r.len := by
  have hbusy := header_and_busy r
  have hdiscard := header_and_discard r
  rw [afterHeader_eq consumer r.header, hbusy, hdiscard, dataLen_header,
    r.roundRecordLen_size]
  cases hstatus : r.status with
  | busy => rfl
  | discarded => rfl
  | committed payload =>
    have hwithin : recordWithinMapping build.arch (l.consumerPos % consumer.ringSize + 8) r.size
        consumer.ringSize = true := by
      have hoffset := recordOffset_lt consumer l.consumerPos
      have hlen := r.size_add_le_len
      rw [recordOffset_eq] at hoffset
      exact recordWithinMapping_iff.mpr ⟨by omega, two_mul_ringSize_le hmapped⟩
    simp [Status.bits, hwithin, BPF_RINGBUF_HDR_SZ]

/-- The header word at the consumer position is that of the first live record. -/
theorem afterHeader_head {l : Locals} {rawLen : UInt32}
    (hring : RingInv consumer.ringSize base g done live)
    (hconsumer : ConsumerInv consumer.ringSize g done live delivered (.loadHeader l))
    (hloaded : rawLen = Ring.readWord consumer.ringSize g.bytes
      (recordOffset build consumer l.consumerPos)) :
    ∃ r, [r] <+: live ∧ afterHeader build consumer l rawLen = match r.status with
      | .busy => .storeStopped g.consumerPos .busy
      | .committed _ =>
        .callback l (g.consumerPos % consumer.ringSize + BPF_RINGBUF_HDR_SZ) r.size r.len
      | .discarded => .storeAdvanced { l with consumerPos := g.consumerPos + r.len } := by
  obtain ⟨hpos, hbefore, hproducer, -⟩ := hconsumer
  obtain ⟨r, hhead⟩ := hring.exists_head (by omega)
  obtain ⟨hstart, hholds, hfits⟩ := hring.head hhead
  have hraw : rawLen = r.header := by
    rw [hloaded, recordOffset_eq, hpos, Ring.readWord_mod, ← hstart]
    exact hholds.header
  refine ⟨r, hhead, ?_⟩
  rw [hraw, afterHeader_record consumer hmapped hfits,
    advance_record consumer hring hpos hhead, hpos]

theorem consumerInv_afterHeader {l : Locals} {rawLen : UInt32}
    (hring : RingInv consumer.ringSize base g done live)
    (hconsumer : ConsumerInv consumer.ringSize g done live delivered (.loadHeader l))
    (hloaded : rawLen = Ring.readWord consumer.ringSize g.bytes
      (recordOffset build consumer l.consumerPos)) :
    ConsumerInv consumer.ringSize g done live delivered (afterHeader build consumer l rawLen) := by
  obtain ⟨r, hhead, hafter⟩ := afterHeader_head consumer hmapped hring hconsumer hloaded
  obtain ⟨hpos, -, hproducer, hdelivered⟩ := hconsumer
  rw [hafter]
  cases hstatus : r.status with
  | busy => exact ⟨rfl, rfl, hdelivered⟩
  | committed payload =>
    exact ⟨hpos, hproducer, hdelivered, r, payload, hhead, hstatus, rfl, rfl, rfl⟩
  | discarded =>
    refine ⟨hproducer, r, hhead, by simp [hstatus], rfl, ?_⟩
    rw [payloads_discarded done hstatus]
    exact hdelivered

/-- One step of a call. -/
theorem step_consume {a : Action} {u : Control}
    (h : SystemInv consumer base s done live) (hstep : Step build consumer s.control a u)
    (hanswer : s.Answers consumer.ringSize a) :
    ∃ done' live',
      SystemInv consumer base { s.perform consumer.ringSize a with control := u } done' live' := by
  obtain ⟨hring, hconsumer⟩ := h
  generalize s.control = t at hstep hconsumer
  cases hstep with
  | loadConsumerPos value => exact ⟨done, live, hring, hanswer, hconsumer⟩
  | loadProducerPos pos value =>
    obtain ⟨hpos, hdelivered⟩ := hconsumer
    exact ⟨done, live, hring,
      consumerInv_whileHead hpos (Nat.le_of_eq hanswer) hdelivered⟩
  | loadHeader l rawLen =>
    exact ⟨done, live, hring, consumerInv_afterHeader consumer hmapped hring hconsumer hanswer⟩
  | callback l dataOffset dataLen recordLen =>
    obtain ⟨hpos, hloaded, hdelivered, r, payload, hhead, hstatus, rfl, rfl, rfl⟩ := hconsumer
    obtain ⟨hstart, hholds, -⟩ := hring.head hhead
    refine ⟨done, live, hring, ?_⟩
    rw [advance_record consumer hring hpos hhead]
    refine ⟨hloaded, r, hhead, by simp [hstatus], rfl, ?_⟩
    have hslice := hholds.payload payload hstatus
    rw [payloads_committed done hstatus, ← hdelivered, ← hslice, hstart, ← Ring.slice_mod_add]
    rfl
  | storeAdvanced l =>
    obtain ⟨hloaded, r, hhead, hstatus, hpos, hdelivered⟩ := hconsumer
    obtain ⟨rest, rfl⟩ := hhead
    refine ⟨done ++ [r], rest, ?_, ?_⟩
    · have hadvanced := hring.advance hstatus
      rw [← hpos] at hadvanced
      exact hadvanced
    · exact consumerInv_whileHead rfl hloaded hdelivered
  | storeStopped pos reason =>
    obtain ⟨rfl, -, hdelivered⟩ := hconsumer
    exact ⟨done, live, hring, hdelivered⟩

theorem systemStep_inv {a : SystemAction}
    (h : SystemInv consumer base s done live) (hstep : SystemStep build consumer s a s') :
    ∃ done' live', SystemInv consumer base s' done' live' := by
  cases hstep with
  | call hreturned =>
    have hconsumer := h.consumer
    rw [hreturned] at hconsumer
    exact ⟨done, live, h.ring, hconsumer⟩
  | consume hstep hanswer => exact step_consume consumer hmapped h hstep hanswer
  | produce hstep =>
    obtain ⟨hpos, hproducer, live', hring⟩ := producerStep_ringInv h.ring hstep
    have hkeeps := producerStep_keepsSettled hstep
    rw [h.ring.records, hring.records] at hkeeps
    exact ⟨done, live', hring,
      h.consumer.produce hpos hproducer (hkeeps.of_append h.ring.settled)⟩

theorem run_systemInv {as : List SystemAction} {bytes : Nat → UInt8}
    (haligned : base % 8 = 0) (hbound : base < 2 ^ 63)
    (hrun : Lts.Run (SystemStep build consumer) Lts.Any (.initial bytes base) as s) :
    ∃ done live, SystemInv consumer base s done live := by
  have hinit : RingInv consumer.ringSize base (.empty bytes base) [] [] :=
    ⟨haligned, rfl, by simp, rfl, rfl, ⟨base, rfl, Nat.le_add_right _ _, hbound⟩,
      by simp [RingState.pending, RingState.empty], by simp [RingState.empty]⟩
  apply Lts.Run.invariant (fun _ s => ∃ done live, SystemInv consumer base s done live) _ _ hrun
  · exact ⟨[], [], hinit, rfl⟩
  · rintro as t a u ⟨done, live, h⟩ hstep -
    exact systemStep_inv consumer hmapped h hstep

end Calls

/-! ## Catching up -/

/-- Until the next call. -/
def SameCall (_ : List SystemAction) (a : SystemAction) : Prop := a ≠ .call

/-- How far a call is committed to go, where `pre` was settled when it started. -/
def CatchesUp (pre : List Record) (consumerPos : Nat) : Control → Prop
  | .loadConsumerPos | .loadProducerPos _ | .panicked => True
  | .loadHeader l | .callback l _ _ _ | .storeAdvanced l => ∀ r ∈ pre, r.start < l.producerPos
  | .storeStopped pos _ => ∀ r ∈ pre, r.start < pos
  | .returned => ∀ r ∈ pre, r.start < consumerPos

theorem catchesUp_whileHead {pre : List Record} {l : Locals} {pos : Nat}
    (hpos : l.consumerPos = pos) (hpre : ∀ r ∈ pre, r.start < l.producerPos) :
    CatchesUp pre pos (whileHead l) := by
  apply whileHead_rule
  · exact fun _ => hpre
  · exact fun _ _ => trivial
  · intro hle _ r hmem
    have hlt := hpre r hmem
    omega

section CatchingUp

variable {build : Build} (consumer : RingbufConsumer build.arch) {base : Nat} {s s' : System}
  {done live : List Record} {pageSize len : Nat}
  (hmapped : mappingLen build.arch consumer.ringSize pageSize = some len)

include hmapped

theorem step_catchesUp {pre : List Record} {a : Action} {u : Control}
    (h : SystemInv consumer base s done live) (hpre : pre <+: s.ring.records)
    (hsettled : ∀ r ∈ pre, r.status ≠ .busy)
    (hcatches : CatchesUp pre s.ring.consumerPos s.control)
    (hstep : Step build consumer s.control a u) (hanswer : s.Answers consumer.ringSize a) :
    CatchesUp pre (s.perform consumer.ringSize a).ring.consumerPos u := by
  obtain ⟨hring, hconsumer⟩ := h
  generalize s.control = t at hstep hconsumer hcatches
  cases hstep with
  | loadConsumerPos value => trivial
  | loadProducerPos pos value =>
    apply catchesUp_whileHead hconsumer.1
    intro r hmem
    have hrecord := hpre.mem hmem
    rw [hring.records] at hrecord
    obtain rfl : value = s.ring.producerPos := hanswer
    have hle := hring.le
    rcases List.mem_append.mp hrecord with hdone | hlive
    · exact Nat.lt_of_lt_of_le (hring.start_lt.1 hdone) hle
    · exact hring.start_lt.2 hlive
  | loadHeader l rawLen =>
    obtain ⟨r, ⟨rest, hrest⟩, hafter⟩ := afterHeader_head consumer hmapped hring hconsumer hanswer
    rw [hafter]
    cases hstatus : r.status with
    | busy =>
      -- The records of `pre` are settled, so they end before this one.
      obtain ⟨tail, htail⟩ := hpre
      rw [hring.records, ← hrest] at htail
      obtain ⟨mid, rfl, -⟩ := split_of_settled htail hsettled hstatus
      intro x hmem
      exact hring.start_lt.1 (List.mem_append_left _ hmem)
    | committed payload => exact hcatches
    | discarded => exact hcatches
  | callback l dataOffset dataLen recordLen =>
    obtain ⟨hpos, -, -, r, -, hhead, -, -, -, rfl⟩ := hconsumer
    rw [advance_record consumer hring hpos hhead]
    exact hcatches
  | storeAdvanced l => exact catchesUp_whileHead rfl hcatches
  | storeStopped pos reason => exact hcatches

/-- The records that are settled when a call starts stay first, and the call does not
    return before it has passed them. -/
theorem run_catchesUp {pre : List Record} {bs : List SystemAction}
    (h : SystemInv consumer base s done live) (hstart : s.control = .loadConsumerPos)
    (hpre : pre <+: s.ring.records) (hsettled : ∀ r ∈ pre, r.status ≠ .busy)
    (hrun : Lts.Run (SystemStep build consumer) SameCall s bs s') :
    (∃ done live, SystemInv consumer base s' done live) ∧ pre <+: s'.ring.records ∧
      CatchesUp pre s'.ring.consumerPos s'.control := by
  apply Lts.Run.invariant (fun _ t => (∃ done live, SystemInv consumer base t done live) ∧
    pre <+: t.ring.records ∧ CatchesUp pre t.ring.consumerPos t.control) _ _ hrun
  · refine ⟨⟨done, live, h⟩, hpre, ?_⟩
    rw [hstart]
    trivial
  · rintro as t a u ⟨⟨done, live, h⟩, hpre, hcatches⟩ hstep hcall
    refine ⟨systemStep_inv consumer hmapped h hstep, ?_⟩
    cases hstep with
    | call hreturned => exact absurd rfl hcall
    | consume hstep hanswer =>
      refine ⟨?_, step_catchesUp consumer hmapped h hpre hsettled hcatches hstep hanswer⟩
      simp only [System.perform_records]
      exact hpre
    | produce hstep =>
      refine ⟨producerStep_keepsSettled hstep pre hpre hsettled, ?_⟩
      have hpos := (producerStep_ringInv h.ring hstep).1
      simp only [hpos]
      exact hcatches

end CatchingUp

/-! ## The protocol -/

/-- A position where a record starts, or where the next one will. -/
def RecordBoundary (g : RingState) (pos : Nat) : Prop :=
  pos = g.producerPos ∨ ∃ r ∈ g.records, r.start = pos

/-- The records that lie below a position. -/
def recordsBelow (g : RingState) (pos : Nat) : List Record :=
  g.records.filter fun r => r.start < pos

section Protocol

variable {ringSize base : Nat} {g : RingState} {done live : List Record}

theorem RingInv.recordBoundary (h : RingInv ringSize base g done live) :
    RecordBoundary g g.consumerPos := by
  cases live with
  | nil => exact .inl h.published
  | cons r rest =>
    refine .inr ⟨r, ?_, h.published.1⟩
    rw [h.records]
    exact List.mem_append_right _ List.mem_cons_self

theorem RingInv.recordsBelow_eq (h : RingInv ringSize base g done live) :
    recordsBelow g g.consumerPos = done := by
  have hdone : done.filter (fun r => decide (r.start < g.consumerPos)) = done := by
    apply List.filter_eq_self.mpr
    intro r hmem
    exact decide_eq_true (h.start_lt.1 hmem)
  have hlive : live.filter (fun r => decide (r.start < g.consumerPos)) = [] := by
    apply List.filter_eq_nil_iff.mpr
    intro r hmem
    have := (h.published.bounds hmem).1
    simp only [decide_eq_true_eq]
    omega
  rw [recordsBelow, h.records, List.filter_append, hdone, hlive, List.append_nil]

/-- Records that start below the consumer position are among those advanced past. -/
theorem RingInv.prefix_done {pre : List Record} (h : RingInv ringSize base g done live)
    (hpre : pre <+: g.records) (hbelow : ∀ r ∈ pre, r.start < g.consumerPos) : pre <+: done := by
  rw [h.records] at hpre
  cases live with
  | nil => simpa using hpre
  | cons r rest =>
    obtain ⟨back, hback⟩ := hpre
    have hlow := (h.published.bounds List.mem_cons_self).1
    obtain ⟨mid, rfl, -⟩ := split_before hback hbelow (Nat.not_lt.mpr hlow)
    exact List.prefix_append pre mid

end Protocol

/-- In every interleaving with the producer, the consumer position is a record
    boundary and does not pass the producer, no record is out of bounds, and after
    every call the slices delivered so far are the payloads of the committed records
    below the consumer position, in the order of their reservation. A call passes
    every record that was settled when it started, unless a busy one stands before it. -/
theorem consumeRingRecords_delivers (build : Build) (consumer : RingbufConsumer build.arch)
    {pageSize len base : Nat} {bytes : Nat → UInt8} {as : List SystemAction} {s : System}
    (hmapped : mappingLen build.arch consumer.ringSize pageSize = some len)
    (haligned : base % 8 = 0) (hbound : base < 2 ^ 63)
    (hrun : Lts.Run (SystemStep build consumer) Lts.Any (.initial bytes base) as s) :
    RecordBoundary s.ring s.ring.consumerPos ∧ s.ring.consumerPos ≤ s.ring.producerPos ∧
    (∀ pos dataOffset dataLen,
      s.control ≠ .storeStopped pos (.outOfBounds dataOffset dataLen)) ∧
    s.control ≠ .panicked ∧
    (s.control = .returned →
      s.delivered = payloads (recordsBelow s.ring s.ring.consumerPos) ∧
      ∀ r ∈ recordsBelow s.ring s.ring.consumerPos, r.status ≠ .busy) ∧
    (s.control = .loadConsumerPos → ∀ bs s' pre,
      Lts.Run (SystemStep build consumer) SameCall s bs s' → s'.control = .returned →
      pre <+: s.ring.records → (∀ r ∈ pre, r.status ≠ .busy) →
      pre <+: recordsBelow s'.ring s'.ring.consumerPos) := by
  obtain ⟨done, live, h⟩ := run_systemInv consumer hmapped haligned hbound hrun
  have hconsumer := h.consumer
  refine ⟨h.ring.recordBoundary, h.ring.le, ?_, ?_, ?_, ?_⟩
  · intro pos dataOffset dataLen hcontrol
    rw [hcontrol] at hconsumer
    exact absurd hconsumer.2.1 (by simp)
  · intro hcontrol
    rw [hcontrol] at hconsumer
    exact hconsumer
  · intro hcontrol
    rw [hcontrol] at hconsumer
    rw [h.ring.recordsBelow_eq]
    exact ⟨hconsumer, h.ring.settled⟩
  · intro hstart bs s' pre hcall hreturned hpre hsettled
    obtain ⟨⟨done', live', h'⟩, hpre', hcatches⟩ :=
      run_catchesUp consumer hmapped h hstart hpre hsettled hcall
    rw [hreturned] at hcatches
    rw [h'.ring.recordsBelow_eq]
    exact h'.ring.prefix_done hpre' hcatches

/-- Two records of one byte are reserved. The second is committed first, and a call that finds the
    first one busy delivers neither; the next call delivers both, in the order of their reservation. -/
theorem consumeRingRecords_delivers_two :
    ∃ as s, Lts.Run (SystemStep ⟨.bits64, true⟩ pageRing) Lts.Any (.initial (fun _ => 7) 0) as s ∧
      s.control = .returned ∧ s.ring.consumerPos = 32 ∧ RecordBoundary s.ring s.ring.consumerPos ∧
      s.delivered = [[7], [5]] := by
  have hmapped : mappingLen .bits64 4096 4096 = some 12288 := by decide
  have hinitial : Lts.Run (SystemStep ⟨.bits64, true⟩ pageRing) Lts.Any (.initial (fun _ => 7) 0) []
      (.initial (fun _ => 7) 0) := .nil
  have hloaded := hinitial.snoc (.produce (.loadConsumerPos rfl)) trivial
  have hwritten := hloaded.snoc (.produce (.writeHeader (r := ⟨0, 1, by decide, .busy⟩) rfl rfl rfl
    (by decide) (by decide))) trivial
  have hpublished := hwritten.snoc (.produce (.publish rfl)) trivial
  have hloaded := hpublished.snoc (.produce (.loadConsumerPos rfl)) trivial
  have hwritten := hloaded.snoc (.produce (.writeHeader (r := ⟨16, 1, by decide, .busy⟩) rfl rfl rfl
    (by decide) (by decide))) trivial
  have hpublished := hwritten.snoc (.produce (.publish rfl)) trivial
  have hfilled := hpublished.snoc (.produce (@ProducerStep.writeByte _ _ ⟨16, 1, by decide, .busy⟩ 8 5
    (by simp [System.initial, RingState.empty]) rfl (by decide) (by decide))) trivial
  have hsecond := hfilled.snoc (.produce (@ProducerStep.commit _ _ [⟨0, 1, by decide, .busy⟩] [] _
    rfl rfl)) trivial
  have hcalled := hsecond.snoc (.call rfl) trivial
  have hconsumer := hcalled.snoc (.consume (.loadConsumerPos 0) rfl) trivial
  have hproducer := hconsumer.snoc (.consume (.loadProducerPos 0 32) rfl) trivial
  have hheader := hproducer.snoc (.consume (.loadHeader ⟨0, 32, false⟩ 0x80000001) rfl) trivial
  have hstopped := hheader.snoc (.consume (.storeStopped 0 .busy) trivial) trivial
  have hfirst := hstopped.snoc (.produce (@ProducerStep.commit _ _ [] _ _ rfl rfl)) trivial
  have hcalled := hfirst.snoc (.call rfl) trivial
  have hconsumer := hcalled.snoc (.consume (.loadConsumerPos 0) rfl) trivial
  have hproducer := hconsumer.snoc (.consume (.loadProducerPos 0 32) rfl) trivial
  have hheader := hproducer.snoc (.consume (.loadHeader ⟨0, 32, false⟩ 1) rfl) trivial
  have hcallback := hheader.snoc (.consume (.callback ⟨0, 32, false⟩ 8 1 16) trivial) trivial
  have hstored := hcallback.snoc (.consume (.storeAdvanced ⟨16, 32, false⟩) trivial) trivial
  have hheader := hstored.snoc (.consume (.loadHeader ⟨16, 32, true⟩ 1) rfl) trivial
  have hcallback := hheader.snoc (.consume (.callback ⟨16, 32, true⟩ 24 1 16) trivial) trivial
  have hstored := hcallback.snoc (.consume (.storeAdvanced ⟨32, 32, true⟩) trivial) trivial
  have hreturned := hstored.snoc (.consume (.loadProducerPos 32 32) rfl) trivial
  have hresult := consumeRingRecords_delivers ⟨.bits64, true⟩ pageRing hmapped (by decide) (by decide)
    hreturned
  obtain ⟨hboundary, -, -, -, hdelivered, -⟩ := hresult
  have hlog := (hdelivered rfl).1
  exact ⟨_, _, hreturned, rfl, rfl, hboundary, hlog⟩

end Ebpfkit
