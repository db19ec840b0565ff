-- SUMMARY: The kernel's producer, and its interleaving with calls of the consumer over one shared ring.
import Ebpfkit.Loader.RingbufSafety
import Ebpfkit.Ring
import Mathlib.Data.Nat.Bitwise

/-!
# The ring-buffer protocol

The producer is the kernel, which is not part of the source; what is modelled of
it is the protocol the consumer relies on. A reservation loads the consumer
position, writes a busy header at the producer position if there is room, and
then publishes the new producer position. Reserved records are filled and
settled, that is committed or discarded, in any order.

A system is the memory that both sides share, together with the state of each
side. The consumer's loads are answered from that memory. The data pages are
mapped twice, so that an offset into the mapping names a byte by its remainder.
A callback sees its slice in one step: the position behind the record is published
after the callback, and until then the memory of the record stays as it is.
-/

namespace Ebpfkit

/-! ## Records -/

inductive Status where
  | busy
  | committed (payload : List UInt8)
  | discarded
  deriving DecidableEq, Repr

/-- The bits that a status adds to the header word. -/
def Status.bits : Status → UInt32
  | .busy => BPF_RINGBUF_BUSY_BIT
  | .committed _ => 0
  | .discarded => BPF_RINGBUF_DISCARD_BIT

/-- A reserved record. Its header stands at `start`, its payload behind it. -/
structure Record where
  start : Nat
  size : Nat
  size_lt : size < 2 ^ 30
  status : Status
  deriving DecidableEq, Repr

def roundup8 (n : Nat) : Nat := (n + 7) / 8 * 8

namespace Record

/-- The space that a record takes, header included. -/
def len (r : Record) : Nat := roundup8 (r.size + BPF_RINGBUF_HDR_SZ)

def header (r : Record) : UInt32 := UInt32.ofNat r.size ||| r.status.bits

/-- The record once its writer is done with it. -/
def settle (r : Record) (status : Status) : Record := { r with status := status }

/-- What is delivered of a record. -/
def payload? (r : Record) : Option (List UInt8) :=
  match r.status with
  | .committed payload => some payload
  | _ => none

end Record

/-! ## The system -/

/-- A reservation in progress. -/
inductive Producer where
  | idle
  /-- The consumer position is loaded. -/
  | loaded (consumerPos : Nat)
  /-- The header is written, and the record is not yet published. -/
  | written (r : Record)
  deriving DecidableEq, Repr

/-- The memory that both sides share, and what the producer knows: the records
    reserved so far, and the reservation in progress. -/
structure RingState where
  bytes : Nat → UInt8
  consumerPos : Nat
  producerPos : Nat
  records : List Record
  producer : Producer

namespace RingState

/-- A ring without records. -/
def empty (bytes : Nat → UInt8) (pos : Nat) : RingState where
  bytes := bytes
  consumerPos := pos
  producerPos := pos
  records := []
  producer := .idle

/-- A record leaves the busy state: its header is written again. -/
def settle (ringSize : Nat) (g : RingState) (pre : List Record) (r : Record) (post : List Record)
    (status : Status) : RingState :=
  { g with
    bytes := Ring.writeWord ringSize g.bytes r.start (r.settle status).header
    records := pre ++ r.settle status :: post }

end RingState

/-- The steps of the producer. Positions stay below 2^63. -/
inductive ProducerStep (ringSize : Nat) (g : RingState) : RingState → Prop where
  | loadConsumerPos (hidle : g.producer = .idle) :
      ProducerStep ringSize g { g with producer := .loaded g.consumerPos }
  /-- There is no room, or nothing to reserve. -/
  | giveUp {consumerPos : Nat} (hloaded : g.producer = .loaded consumerPos) :
      ProducerStep ringSize g { g with producer := .idle }
  | writeHeader {consumerPos : Nat} {r : Record} (hloaded : g.producer = .loaded consumerPos)
      (hstart : r.start = g.producerPos) (hbusy : r.status = .busy)
      (hroom : g.producerPos + r.len - consumerPos ≤ ringSize - 1)
      (hbound : g.producerPos + r.len < 2 ^ 63) :
      ProducerStep ringSize g { g with
        producer := .written r
        bytes := Ring.writeWord ringSize g.bytes r.start r.header }
  | publish {r : Record} (hwritten : g.producer = .written r) :
      ProducerStep ringSize g { g with
        producer := .idle
        producerPos := g.producerPos + r.len
        records := g.records ++ [r] }
  /-- A busy record belongs to its writer, but for the header word. -/
  | writeByte {r : Record} {offset : Nat} {value : UInt8} (hmem : r ∈ g.records)
      (hbusy : r.status = .busy) (hoffset : 4 ≤ offset) (hinside : offset < r.len) :
      ProducerStep ringSize g { g with
        bytes := Ring.write ringSize g.bytes (r.start + offset) value }
  | commit {pre post : List Record} {r : Record} (hrecords : g.records = pre ++ r :: post)
      (hbusy : r.status = .busy) :
      ProducerStep ringSize g (g.settle ringSize pre r post
        (.committed (Ring.slice ringSize g.bytes (r.start + BPF_RINGBUF_HDR_SZ) r.size)))
  | discard {pre post : List Record} {r : Record} (hrecords : g.records = pre ++ r :: post)
      (hbusy : r.status = .busy) :
      ProducerStep ringSize g (g.settle ringSize pre r post .discarded)

/-- The ring, the control state of the consumer, and the slices that it has
    delivered over all calls. -/
structure System where
  ring : RingState
  control : Control
  delivered : List (List UInt8)

namespace System

/-- An empty ring, and no call in progress. -/
def initial (bytes : Nat → UInt8) (pos : Nat) : System where
  ring := .empty bytes pos
  control := .returned
  delivered := []

/-- Loads of the consumer return what the memory holds. -/
def Answers (ringSize : Nat) (s : System) : Action → Prop
  | .loadConsumerPos value => value = s.ring.consumerPos
  | .loadProducerPos value => value = s.ring.producerPos
  | .loadHeader offset rawLen => rawLen = Ring.readWord ringSize s.ring.bytes offset
  | .callback _ _ | .storeConsumerPos _ => True

/-- What an action of the consumer changes. -/
def perform (ringSize : Nat) (s : System) : Action → System
  | .callback dataOffset dataLen =>
    { s with delivered := s.delivered ++ [Ring.slice ringSize s.ring.bytes dataOffset dataLen] }
  | .storeConsumerPos value => { s with ring := { s.ring with consumerPos := value } }
  | .loadConsumerPos _ | .loadProducerPos _ | .loadHeader _ _ => s

/-- Records are the producer's. -/
@[simp] theorem perform_records (ringSize : Nat) (s : System) (a : Action) :
    (s.perform ringSize a).ring.records = s.ring.records := by
  cases a <;> rfl

end System

inductive SystemAction where
  | call
  | consume (a : Action)
  | produce
  deriving DecidableEq, Repr

/-- Any interleaving of the producer with one call after the other. -/
inductive SystemStep (build : Build) (consumer : RingbufConsumer build.arch) (s : System) :
    SystemAction → System → Prop where
  | call (hreturned : s.control = .returned) :
      SystemStep build consumer s .call { s with control := .loadConsumerPos }
  | consume {a : Action} {u : Control} (hstep : Step build consumer s.control a u)
      (hanswer : s.Answers consumer.ringSize a) :
      SystemStep build consumer s (.consume a) { s.perform consumer.ringSize a with control := u }
  | produce {g : RingState} (hstep : ProducerStep consumer.ringSize s.ring g) :
      SystemStep build consumer s .produce { s with ring := g }

/-! ## Header words -/

theorem Record.len_eq (r : Record) : r.len = 8 * ((r.size + 15) / 8) := by
  unfold Record.len roundup8 BPF_RINGBUF_HDR_SZ
  omega

/-- A record holds its header and its payload. -/
theorem Record.size_add_le_len (r : Record) : r.size + 8 ≤ r.len := by
  rw [r.len_eq]
  omega

theorem Record.roundRecordLen_size (r : Record) (arch : Arch) :
    roundRecordLen arch r.size = r.len := by
  rw [roundRecordLen_eq arch r.size_lt, r.len_eq]

theorem toNat_ofNat_size (r : Record) : (UInt32.ofNat r.size).toNat = r.size := by
  have hlt := r.size_lt
  exact UInt32.toNat_ofNat_of_lt' (Nat.lt_of_lt_of_le hlt (by decide))

/-- The length bits leave out the two flags. -/
theorem dataLen_eq (rawLen : UInt32) : dataLen rawLen = rawLen.toNat % 2 ^ 30 := by
  have hmask : ~~~(BPF_RINGBUF_BUSY_BIT ||| BPF_RINGBUF_DISCARD_BIT) = 0x3FFFFFFF := by decide
  rw [dataLen, hmask, UInt32.toNat_and]
  exact Nat.and_two_pow_sub_one_eq_mod _ 30

/-- A size lies below the flags, so a flag of the header is one of the status. -/
theorem header_and_flag {bit : Nat} {flag : UInt32} (hflag : flag.toNat = 2 ^ bit)
    (hbit : 30 ≤ bit) (r : Record) : r.header &&& flag = r.status.bits &&& flag := by
  apply UInt32.toNat.inj
  have hlt : r.size < 2 ^ bit :=
    Nat.lt_of_lt_of_le r.size_lt (Nat.pow_le_pow_right (by omega) hbit)
  have hsize : r.size &&& 2 ^ bit = 0 := by
    rw [Nat.and_two_pow, Nat.testBit_lt_two_pow hlt]
    exact Nat.zero_mul _
  rw [Record.header, UInt32.toNat_and, UInt32.toNat_or, UInt32.toNat_and, toNat_ofNat_size, hflag,
    Nat.and_or_distrib_right, hsize, Nat.zero_or]

theorem header_and_busy (r : Record) :
    r.header &&& BPF_RINGBUF_BUSY_BIT = r.status.bits &&& BPF_RINGBUF_BUSY_BIT :=
  @header_and_flag 31 _ (by decide) (by decide) r

theorem header_and_discard (r : Record) :
    r.header &&& BPF_RINGBUF_DISCARD_BIT = r.status.bits &&& BPF_RINGBUF_DISCARD_BIT :=
  @header_and_flag 30 _ (by decide) (by decide) r

@[simp] theorem dataLen_header (r : Record) : dataLen r.header = r.size := by
  have hbits : r.status.bits.toNat % 2 ^ 30 = 0 := by cases r.status <;> rfl
  rw [dataLen_eq, Record.header, UInt32.toNat_or, toNat_ofNat_size, Nat.or_mod_two_pow, hbits,
    Nat.or_zero]
  exact Nat.mod_eq_of_lt r.size_lt

end Ebpfkit
