-- SUMMARY: The memory of a ring holds the records between the two positions, whatever the producer does.
import Ebpfkit.Loader.RingbufProtocol

/-!
# Records in the ring

The records split into those the consumer has advanced past and those between
the two positions, the live ones. Live records and the reservation in progress
take less space than the ring has, so that they do not overlap and a step of the
producer changes one of them at most. Of the others it keeps everything, and of
the settled ones also their place.
-/

namespace Ebpfkit

/-! ## Records in memory -/

/-- The memory holds a record: its header, and its payload once it is committed. -/
structure Holds (ringSize : Nat) (bytes : Nat → UInt8) (r : Record) : Prop where
  header : Ring.readWord ringSize bytes r.start = r.header
  payload : ∀ payload, r.status = .committed payload →
    Ring.slice ringSize bytes (r.start + BPF_RINGBUF_HDR_SZ) r.size = payload

/-- A record depends on the memory between its ends only. -/
theorem Holds.congr {ringSize : Nat} {bytes bytes' : Nat → UInt8} {r : Record}
    (h : Holds ringSize bytes r)
    (hsame : Ring.SameBetween ringSize bytes bytes' r.start (r.start + r.len)) :
    Holds ringSize bytes' r := by
  have hlen := r.size_add_le_len
  refine ⟨?_, ?_⟩
  · rw [hsame.readWord_eq (Nat.le_refl _) (by omega)]
    exact h.header
  · intro payload hstatus
    rw [hsame.slice_eq (Nat.le_add_right _ _) (by unfold BPF_RINGBUF_HDR_SZ; omega)]
    exact h.payload payload hstatus

/-- Records that all have a property end before one that has not. -/
theorem split_before {p : Record → Prop} {pre rest front post : List Record} {r : Record}
    (heq : pre ++ rest = front ++ r :: post) (hpre : ∀ x ∈ pre, p x) (hr : ¬ p r) :
    ∃ mid, front = pre ++ mid ∧ rest = mid ++ r :: post := by
  rcases List.append_eq_append_iff.mp heq with ⟨mid, hfront, hrest⟩ | ⟨back, hback, hpost⟩
  · exact ⟨mid, hfront, hrest⟩
  · cases back with
    | nil => exact ⟨[], by simpa using hback.symm, hpost.symm⟩
    | cons x back =>
      obtain ⟨rfl, -⟩ := List.cons.inj hpost
      exact absurd (hpre r (by simp [hback])) hr

/-- Settled records end before a busy one. -/
theorem split_of_settled {settled rest front post : List Record} {r : Record}
    (heq : settled ++ rest = front ++ r :: post) (hsettled : ∀ x ∈ settled, x.status ≠ .busy)
    (hbusy : r.status = .busy) : ∃ mid, front = settled ++ mid ∧ rest = mid ++ r :: post :=
  split_before heq hsettled (not_not_intro hbusy)

/-- The record whose header is written and that is not published yet. -/
def RingState.pending (g : RingState) : List Record :=
  match g.producer with
  | .written r => [r]
  | _ => []

/-- What holds of the ring, with the records split at the consumer position. The
    last reservation ends at `stop`, less than a ring away from the consumer. -/
structure RingInv (ringSize base : Nat) (g : RingState) (done live : List Record) : Prop where
  aligned : base % 8 = 0
  records : g.records = done ++ live
  settled : ∀ r ∈ done, r.status ≠ .busy
  consumed : Ring.Chain Record.start Record.len base done g.consumerPos
  published : Ring.Chain Record.start Record.len g.consumerPos live g.producerPos
  reserved : ∃ stop, Ring.Chain Record.start Record.len g.producerPos g.pending stop ∧
    stop ≤ g.consumerPos + (ringSize - 1) ∧ stop < 2 ^ 63
  held : ∀ r ∈ live ++ g.pending, Holds ringSize g.bytes r
  snapshot : ∀ pos, g.producer = .loaded pos → pos ≤ g.consumerPos

namespace RingInv

variable {ringSize base : Nat} {g : RingState} {done live : List Record}

theorem le (h : RingInv ringSize base g done live) : g.consumerPos ≤ g.producerPos := h.published.le

/-- A record lies below the position that was published behind it. -/
theorem start_lt (h : RingInv ringSize base g done live) {r : Record} :
    (r ∈ done → r.start < g.consumerPos) ∧ (r ∈ live → r.start < g.producerPos) := by
  have hlen := r.size_add_le_len
  refine ⟨fun hmem => ?_, fun hmem => ?_⟩
  · have := (h.consumed.bounds hmem).2
    omega
  · have := (h.published.bounds hmem).2
    omega

/-- Everything in use fits between the consumer and one ring further on. -/
theorem bounds (h : RingInv ringSize base g done live) {r : Record} (hmem : r ∈ live ++ g.pending) :
    g.consumerPos ≤ r.start ∧ r.start + r.len ≤ g.consumerPos + (ringSize - 1) ∧
      r.start + r.len < 2 ^ 63 := by
  obtain ⟨stop, hpending, hroom, hbound⟩ := h.reserved
  obtain ⟨hlow, hhigh⟩ := (h.published.append hpending).bounds hmem
  exact ⟨hlow, by omega, by omega⟩

/-- A busy record is a live one. -/
theorem split_busy (h : RingInv ringSize base g done live) {pre post : List Record} {r : Record}
    (hrecords : g.records = pre ++ r :: post) (hbusy : r.status = .busy) :
    ∃ front, pre = done ++ front ∧ live = front ++ r :: post :=
  split_of_settled (h.records.symm.trans hrecords) h.settled hbusy

/-- Writing inside one record leaves the others as they are. -/
theorem held_replace {front post : List Record} {r r' : Record}
    (h : RingInv ringSize base g done (front ++ r :: post)) {bytes : Nat → UInt8}
    (hsame : ∀ pos, g.consumerPos ≤ pos → pos < g.consumerPos + ringSize →
      pos < r.start ∨ r.start + r.len ≤ pos →
      Ring.read ringSize bytes pos = Ring.read ringSize g.bytes pos)
    (hnew : Holds ringSize bytes r') :
    ∀ x ∈ (front ++ r' :: post) ++ g.pending, Holds ringSize bytes x := by
  obtain ⟨stop, hpending, -, -⟩ := h.reserved
  have hchain := h.published.append hpending
  rw [List.append_assoc, List.cons_append] at hchain
  intro x hx
  rw [List.append_assoc, List.cons_append, List.mem_append, List.mem_cons] at hx
  -- A record apart from the one written to is as it was.
  have hkept : x ∈ (front ++ r :: post) ++ g.pending →
      x.start + x.len ≤ r.start ∨ r.start + r.len ≤ x.start → Holds ringSize bytes x := by
    intro hmem hapart
    obtain ⟨hlow, hhigh, -⟩ := h.bounds hmem
    apply (h.held x hmem).congr
    intro pos hstart hstop
    exact hsame pos (by omega) (by omega) (by omega)
  rcases hx with hfront | rfl | hback
  · exact hkept (by simp [hfront]) (.inl (hchain.apart.1 hfront))
  · exact hnew
  · refine hkept ?_ (.inr (hchain.apart.2 hback))
    rw [List.append_assoc, List.cons_append]
    exact List.mem_append_right _ (List.mem_cons_of_mem _ hback)

/-- A live record is replaced, with the memory between its ends. -/
theorem replace {front post : List Record} {r r' : Record}
    (h : RingInv ringSize base g done (front ++ r :: post)) {bytes : Nat → UInt8}
    (hsame : ∀ pos, g.consumerPos ≤ pos → pos < g.consumerPos + ringSize →
      pos < r.start ∨ r.start + r.len ≤ pos →
      Ring.read ringSize bytes pos = Ring.read ringSize g.bytes pos)
    (hstart : r'.start = r.start) (hlen : r'.len = r.len) (hnew : Holds ringSize bytes r') :
    RingInv ringSize base { g with bytes := bytes, records := done ++ (front ++ r' :: post) } done
      (front ++ r' :: post) where
  aligned := h.aligned
  records := rfl
  settled := h.settled
  consumed := h.consumed
  published := h.published.replace hstart hlen
  reserved := h.reserved
  held := h.held_replace hsame hnew
  snapshot := h.snapshot

/-- The first live record. -/
theorem head {r : Record} (h : RingInv ringSize base g done live) (hhead : [r] <+: live) :
    r.start = g.consumerPos ∧ Holds ringSize g.bytes r ∧ r.len ≤ ringSize := by
  obtain ⟨rest, rfl⟩ := hhead
  have hmem : r ∈ ([r] ++ rest) ++ g.pending := by simp
  obtain ⟨hlow, hhigh, -⟩ := h.bounds hmem
  exact ⟨h.published.1, h.held r hmem, by omega⟩

theorem exists_head (h : RingInv ringSize base g done live) (hlt : g.consumerPos < g.producerPos) :
    ∃ r, [r] <+: live := by
  cases live with
  | nil => exact absurd h.published (Nat.ne_of_lt hlt)
  | cons r rest => exact ⟨r, List.prefix_append [r] rest⟩

/-- The consumer publishes the position behind the first live record. -/
theorem advance {r : Record} {rest : List Record}
    (h : RingInv ringSize base g done ([r] ++ rest)) (hstatus : r.status ≠ .busy) :
    RingInv ringSize base { g with consumerPos := g.consumerPos + r.len } (done ++ [r]) rest := by
  obtain ⟨stop, hpending, hroom, hbound⟩ := h.reserved
  obtain ⟨hstart, hrest⟩ := h.published
  refine ⟨h.aligned, ?_, ?_, ?_, hrest, ⟨stop, hpending, ?_, hbound⟩, ?_, ?_⟩
  · rw [List.append_assoc]
    exact h.records
  · intro x hx
    rcases List.mem_append.mp hx with hdone | hx
    · exact h.settled x hdone
    · obtain rfl : x = r := List.mem_singleton.mp hx
      exact hstatus
  · exact h.consumed.append ⟨hstart, rfl⟩
  · simp only
    omega
  · intro x hx
    exact h.held x (List.mem_cons_of_mem r hx)
  · intro pos hpos
    exact Nat.le_trans (h.snapshot pos hpos) (Nat.le_add_right _ _)

end RingInv

/-! ## The producer -/

section Producer

variable {ringSize base : Nat} {g g' : RingState} {done live : List Record}

theorem ringInv_settle {front post : List Record} {r : Record} {status : Status}
    (h : RingInv ringSize base g done (front ++ r :: post))
    (hpayload : ∀ payload, status = .committed payload →
      payload = Ring.slice ringSize g.bytes (r.start + BPF_RINGBUF_HDR_SZ) r.size) :
    RingInv ringSize base (g.settle ringSize (done ++ front) r post status) done
      (front ++ r.settle status :: post) := by
  have hmem : r ∈ (front ++ r :: post) ++ g.pending := by simp
  obtain ⟨hlow, hhigh, -⟩ := h.bounds hmem
  have hlen := r.size_add_le_len
  have hframe : ∀ pos, g.consumerPos ≤ pos → pos < g.consumerPos + ringSize →
      pos < r.start ∨ r.start + 4 ≤ pos →
      Ring.read ringSize (Ring.writeWord ringSize g.bytes r.start (r.settle status).header) pos =
        Ring.read ringSize g.bytes pos :=
    fun pos hpos hpos' hapart => Ring.read_writeWord ⟨hpos, hpos'⟩ ⟨hlow, by omega⟩ hapart
  have hnew : Holds ringSize (Ring.writeWord ringSize g.bytes r.start (r.settle status).header)
      (r.settle status) := by
    refine ⟨Ring.readWord_writeWord (by omega) _, ?_⟩
    intro payload hstatus
    have hsame : Ring.SameBetween ringSize g.bytes
        (Ring.writeWord ringSize g.bytes r.start (r.settle status).header)
        (r.start + BPF_RINGBUF_HDR_SZ) (r.start + r.len) := by
      intro pos hpos hpos'
      unfold BPF_RINGBUF_HDR_SZ at hpos
      exact hframe pos (by omega) (by omega) (by omega)
    rw [hpayload payload hstatus]
    exact hsame.slice_eq (Nat.le_refl _) (by unfold BPF_RINGBUF_HDR_SZ; simp only [Record.settle]; omega)
  have hstart : (r.settle status).start = r.start := rfl
  have hresult := h.replace (fun pos hpos hpos' hapart => hframe pos hpos hpos' (by omega)) hstart rfl
    hnew
  rw [← List.append_assoc] at hresult
  exact hresult

/-- Without a header written, the producer holds no space. -/
theorem ringInv_producer {producer : Producer} (h : RingInv ringSize base g done live)
    (hpending : g.pending = []) (hpending' : { g with producer := producer }.pending = [])
    (hsnapshot : ∀ pos, producer = .loaded pos → pos ≤ g.consumerPos) :
    RingInv ringSize base { g with producer := producer } done live := by
  refine ⟨h.aligned, h.records, h.settled, h.consumed, h.published, ?_, ?_, hsnapshot⟩
  · have hreserved := h.reserved
    rw [hpending] at hreserved
    rw [hpending']
    exact hreserved
  · have hheld := h.held
    rw [hpending] at hheld
    rw [hpending']
    exact hheld

/-- A header is written where nothing is in use. -/
theorem ringInv_writeHeader {pos : Nat} {r : Record} (h : RingInv ringSize base g done live)
    (hloaded : g.producer = .loaded pos) (hstart : r.start = g.producerPos)
    (hbusy : r.status = .busy) (hroom : g.producerPos + r.len - pos ≤ ringSize - 1)
    (hbound : g.producerPos + r.len < 2 ^ 63) :
    RingInv ringSize base { g with
      producer := .written r
      bytes := Ring.writeWord ringSize g.bytes r.start r.header } done live := by
  have hsnapshot := h.snapshot pos hloaded
  have hle := h.le
  have hlen := r.size_add_le_len
  refine ⟨h.aligned, h.records, h.settled, h.consumed, h.published, ?_, ?_, ?_⟩
  · exact ⟨g.producerPos + r.len, ⟨hstart, rfl⟩, by simp only; omega, hbound⟩
  · intro x hx
    rcases List.mem_append.mp hx with hlive | hpending
    · obtain ⟨hlow, hhigh⟩ := h.published.bounds hlive
      apply (h.held x (List.mem_append_left _ hlive)).congr
      intro q hq hq'
      have hinside : g.consumerPos ≤ q ∧ q < g.consumerPos + ringSize := by omega
      exact Ring.read_writeWord hinside ⟨by omega, by omega⟩ (.inl (by omega))
    · obtain rfl : x = r := List.mem_singleton.mp hpending
      refine ⟨Ring.readWord_writeWord (by omega) _, ?_⟩
      intro payload hstatus
      rw [hbusy] at hstatus
      exact absurd hstatus (by simp)
  · intro q hq
    exact absurd hq (by simp)

theorem ringInv_publish {r : Record} (h : RingInv ringSize base g done live)
    (hwritten : g.producer = .written r) :
    RingInv ringSize base { g with
      producer := .idle
      producerPos := g.producerPos + r.len
      records := g.records ++ [r] } done (live ++ [r]) := by
  have hpending : g.pending = [r] := by rw [RingState.pending, hwritten]
  obtain ⟨stop, hchain, hroom, hbound⟩ := h.reserved
  rw [hpending] at hchain
  obtain ⟨hstart, rfl⟩ : r.start = g.producerPos ∧ g.producerPos + r.len = stop := hchain
  refine ⟨h.aligned, ?_, h.settled, h.consumed, ?_, ?_, ?_, ?_⟩
  · simp only [h.records, List.append_assoc]
  · exact h.published.append ⟨hstart, rfl⟩
  · exact ⟨g.producerPos + r.len, rfl, hroom, hbound⟩
  · intro x hx
    have hheld := h.held x
    rw [hpending] at hheld
    exact hheld (by simpa [RingState.pending] using hx)
  · intro q hq
    exact absurd hq (by simp)

theorem ringInv_writeByte {r : Record} {offset : Nat} {value : UInt8}
    (h : RingInv ringSize base g done live) (hmem : r ∈ g.records) (hbusy : r.status = .busy)
    (hoffset : 4 ≤ offset) (hinside : offset < r.len) :
    RingInv ringSize base
      { g with bytes := Ring.write ringSize g.bytes (r.start + offset) value } done live := by
  obtain ⟨pre, post, hrecords⟩ := List.append_of_mem hmem
  obtain ⟨front, hpre, rfl⟩ := h.split_busy hrecords hbusy
  have hused : r ∈ (front ++ r :: post) ++ g.pending := by simp
  obtain ⟨hlow, hhigh, -⟩ := h.bounds hused
  have hframe : ∀ pos, g.consumerPos ≤ pos → pos < g.consumerPos + ringSize →
      pos ≠ r.start + offset →
      Ring.read ringSize (Ring.write ringSize g.bytes (r.start + offset) value) pos =
        Ring.read ringSize g.bytes pos := by
    intro pos hpos hpos' hne
    have hwindow : Ring.Window ringSize g.consumerPos pos (r.start + offset) :=
      ⟨⟨hpos, hpos'⟩, by omega, by omega⟩
    exact Ring.read_write hwindow hne
  have hnew : Holds ringSize (Ring.write ringSize g.bytes (r.start + offset) value) r := by
    have hsame : Ring.SameBetween ringSize g.bytes
        (Ring.write ringSize g.bytes (r.start + offset) value) r.start (r.start + 4) :=
      fun pos hpos hpos' => hframe pos (by omega) (by omega) (by omega)
    refine ⟨?_, ?_⟩
    · rw [hsame.readWord_eq (Nat.le_refl _) (Nat.le_refl _)]
      exact (h.held r hused).header
    · intro payload hstatus
      rw [hbusy] at hstatus
      exact absurd hstatus (by simp)
  have hresult := h.replace (fun pos hpos hpos' hapart => hframe pos hpos hpos' (by omega)) rfl rfl hnew
  rw [← h.records] at hresult
  exact hresult

/-- What is settled stays so: every prefix of settled records is kept. -/
def KeepsSettled (l l' : List Record) : Prop :=
  ∀ pre, pre <+: l → (∀ r ∈ pre, r.status ≠ .busy) → pre <+: l'

theorem keepsSettled_append (l l' : List Record) : KeepsSettled l (l ++ l') :=
  fun _ hpre _ => hpre.trans (List.prefix_append l l')

theorem keepsSettled_replace {front post : List Record} {r r' : Record} (hbusy : r.status = .busy) :
    KeepsSettled (front ++ r :: post) (front ++ r' :: post) := by
  intro pre hpre hsettled
  obtain ⟨rest, heq⟩ := hpre
  obtain ⟨mid, rfl, -⟩ := split_of_settled heq hsettled hbusy
  rw [List.append_assoc]
  exact List.prefix_append _ _

theorem producerStep_keepsSettled (hstep : ProducerStep ringSize g g') :
    KeepsSettled g.records g'.records := by
  cases hstep with
  | loadConsumerPos hidle => exact fun _ hpre _ => hpre
  | giveUp hloaded => exact fun _ hpre _ => hpre
  | writeHeader hloaded hstart hbusy hroom hbound => exact fun _ hpre _ => hpre
  | publish hwritten => exact keepsSettled_append _ _
  | writeByte hmem hbusy hoffset hinside => exact fun _ hpre _ => hpre
  | commit hrecords hbusy =>
    rw [hrecords]
    exact keepsSettled_replace hbusy
  | discard hrecords hbusy =>
    rw [hrecords]
    exact keepsSettled_replace hbusy

/-- One step of the producer. -/
theorem producerStep_ringInv (h : RingInv ringSize base g done live)
    (hstep : ProducerStep ringSize g g') :
    g'.consumerPos = g.consumerPos ∧ g.producerPos ≤ g'.producerPos ∧
      ∃ live', RingInv ringSize base g' done live' := by
  cases hstep with
  | loadConsumerPos hidle =>
    refine ⟨rfl, Nat.le_refl _, live, ringInv_producer h ?_ rfl ?_⟩
    · rw [RingState.pending, hidle]
    · intro pos hpos
      exact Nat.le_of_eq (Producer.loaded.inj hpos).symm
  | giveUp hloaded =>
    refine ⟨rfl, Nat.le_refl _, live, ringInv_producer h ?_ rfl ?_⟩
    · rw [RingState.pending, hloaded]
    · intro pos hpos
      exact absurd hpos (by simp)
  | writeHeader hloaded hstart hbusy hroom hbound =>
    exact ⟨rfl, Nat.le_refl _, live, ringInv_writeHeader h hloaded hstart hbusy hroom hbound⟩
  | publish hwritten =>
    exact ⟨rfl, Nat.le_add_right _ _, _, ringInv_publish h hwritten⟩
  | writeByte hmem hbusy hoffset hinside =>
    exact ⟨rfl, Nat.le_refl _, live, ringInv_writeByte h hmem hbusy hoffset hinside⟩
  | commit hrecords hbusy =>
    obtain ⟨front, rfl, rfl⟩ := h.split_busy hrecords hbusy
    refine ⟨rfl, Nat.le_refl _, _, ringInv_settle h ?_⟩
    intro payload hpayload
    exact (Status.committed.inj hpayload).symm
  | discard hrecords hbusy =>
    obtain ⟨front, rfl, rfl⟩ := h.split_busy hrecords hbusy
    refine ⟨rfl, Nat.le_refl _, _, ringInv_settle h ?_⟩
    intro payload hpayload
    exact absurd hpayload (by simp)

end Producer

end Ebpfkit
