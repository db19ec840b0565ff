-- SUMMARY: One poll of a ring buffer with the mappings and descriptors it opens, and when it releases all of them.
import Ebpfkit.Loader.Ringbuf
import Ebpfkit.Resource

/-!
# Polling a ring buffer

`poll_ringbuf` of `src/loader/ringbuf.rs` with `RingbufConsumer::new`, `EpollFd`
and their destructors. What each system call answers is a parameter. Records are
consumed by the loop of `Ebpfkit/Loader/Ringbuf.lean`; its accesses are recorded
where the poll makes them, with the mapping and the bytes that they touch.
-/

namespace Ebpfkit

open Resource

def BPF_MAP_TYPE_RINGBUF : Nat := 27

/-- What a process holds: an open descriptor, or a mapping with its length. -/
inductive Handle where
  | descriptor (fd : RawFd)
  | mapping (addr len : Nat)
  deriving DecidableEq, Repr

/-- The fields of `BpfMapInfo` that are read. A map has at least one entry. -/
structure MapInfo where
  mapType : Nat
  maxEntries : Nat
  maxEntries_pos : 0 < maxEntries
  maxEntries_lt : maxEntries < 2 ^ 32

/-- How `consume_ring_records` ends: it returns, or it unwinds from a panic. -/
inductive Ending where
  | returned
  | unwound
  deriving DecidableEq, Repr

/-- What `consume_ring_records` does with the ring it is given: its accesses and
    callbacks, in order, and how it ends. -/
structure Consumption where
  actions : List Action
  ending : Ending

def Ending.result : Ending → Outcome IoError Unit
  | .returned => .ok ()
  | .unwound => .panicked

/-- What the system answers during a poll, and what the poll finds in the ring. -/
structure PollKernel where
  /-- The page size, once an earlier call has stored it. -/
  cachedPageSize : Option Nat
  /-- `_SC_PAGESIZE`, and `errno` in case it is not positive. -/
  sysconf : Int
  sysconfError : IoError
  objGetInfo : RawFd → Except IoError MapInfo
  /-- The address for a length, a descriptor and an offset. -/
  mmap : Nat → RawFd → Nat → Except IoError Nat
  munmap : Nat → Nat → Option IoError
  epollCreate : Except IoError RawFd
  epollCtl : RawFd → RawFd → Option IoError
  /-- The answers to the calls of `epoll_wait`, in order. -/
  epollWait : List (Except IoError Unit)
  consumption : Consumption

/-! ## Releasing -/

/-- A failed `munmap` leaves the mapping, and is only logged. -/
def munmapOrWarn (kernel : PollKernel) (addr len : Nat) : List (Op Handle) :=
  match kernel.munmap addr len with
  | none => [.release (.mapping addr len)]
  | some _ => []

/-- On Linux `close` releases the descriptor even when it reports an error, which
    is only logged. -/
def closeOrWarn (fd : RawFd) : List (Op Handle) := [.release (.descriptor fd)]

/-! ## Mappings -/

/-- The fields of a `RingbufConsumer`. -/
structure MappedRing where
  consumerMapping : Nat
  producerMapping : Nat
  dataPtr : Nat
  mappingLen : Nat
  mask : Nat
  pageSize : Nat

def mappingOverflowError : IoError :=
  ⟨.invalidInput, "ring buffer mapping length overflowed. Fix: use a smaller ring size."⟩

/-- `RingbufConsumer::new`. Until the value exists, what is mapped has no owner:
    the early return on overflow leaves the consumer page mapped. -/
def MappedRing.new (arch : Arch) (kernel : PollKernel) (mapFd : RawFd) (ringSize pageSize : Nat) :
    Traced Handle (Outcome IoError MappedRing) :=
  match kernel.mmap pageSize mapFd 0 with
  | .error error => .pure (.err error)
  | .ok consumerMapping =>
    match Ebpfkit.mappingLen arch ringSize pageSize with
    | none => ⟨.err mappingOverflowError, [.acquire (.mapping consumerMapping pageSize)]⟩
    | some mappingLen =>
      match kernel.mmap mappingLen mapFd pageSize with
      | .error error =>
        ⟨.err error,
          .acquire (.mapping consumerMapping pageSize) ::
            munmapOrWarn kernel consumerMapping pageSize⟩
      | .ok producerMapping =>
        ⟨.ok
          { consumerMapping
            producerMapping
            dataPtr := producerMapping + pageSize
            mappingLen
            mask := ringSize - 1
            pageSize },
          [.acquire (.mapping consumerMapping pageSize),
            .acquire (.mapping producerMapping mappingLen)]⟩

/-- The destructor of `RingbufConsumer`. -/
def MappedRing.drop (kernel : PollKernel) (consumer : MappedRing) : List (Op Handle) :=
  munmapOrWarn kernel consumer.consumerMapping consumer.pageSize ++
    munmapOrWarn kernel consumer.producerMapping consumer.mappingLen

/-- The mapping that an access belongs to. -/
def Action.handle (m : MappedRing) : Action → Handle
  | .loadConsumerPos _ | .storeConsumerPos _ => .mapping m.consumerMapping m.pageSize
  | .loadProducerPos _ | .loadHeader _ _ | .callback _ _ => .mapping m.producerMapping m.mappingLen

/-- The address and the length of an access: `consumer_pos`, `producer_pos`,
    `header` and `data_slice`. -/
def Action.footprint (m : MappedRing) : Action → Nat × Nat
  | .loadConsumerPos _ | .storeConsumerPos _ => (m.consumerMapping, 8)
  | .loadProducerPos _ => (m.producerMapping, 8)
  | .loadHeader offset _ => (m.dataPtr + offset, 8)
  | .callback dataOffset dataLen => (m.dataPtr + dataOffset, dataLen)

/-- `consume_ring_records`, on the addresses of a mapped ring. -/
def Consumption.run (consumption : Consumption) (m : MappedRing) :
    Recorded Handle (Nat × Nat) (Outcome IoError Unit) :=
  ⟨consumption.ending.result, consumption.actions.map fun a => .use (a.handle m) (a.footprint m)⟩

/-! ## Polling -/

/-- The page size, from the cache or from the system, and what the cache holds
    afterwards. -/
def pageSize (arch : Arch) (kernel : PollKernel) : Outcome IoError Nat × Option Nat :=
  match kernel.cachedPageSize with
  | some value => (.ok value, some value)
  | none =>
    if kernel.sysconf ≤ 0 then
      (.err kernel.sysconfError, none)
    else if kernel.sysconf.toNat > arch.usizeMax then
      (.err ⟨.invalidData,
        "system page size does not fit in usize. Fix: run on a supported userspace architecture."⟩,
        none)
    else
      (.ok kernel.sysconf.toNat, some kernel.sysconf.toNat)

/-- `EpollFd::wait`, with the answers still to come. It is blocked when they run out. -/
def epollWait : List (Except IoError Unit) → Option (Outcome IoError Unit)
  | [] => none
  | .ok () :: _ => some (.ok ())
  | .error error :: answers =>
    if error.kind = .interrupted then epollWait answers else some (.err error)

/-- `EpollFd::add`, `EpollFd::wait` and the consumption of the records. -/
def pollRegistered (kernel : PollKernel) (consumer : MappedRing) (mapFd epollFd : RawFd) :
    Option (Recorded Handle (Nat × Nat) (Outcome IoError Unit)) :=
  match kernel.epollCtl epollFd mapFd with
  | some error => some (.pure (.err error))
  | none =>
    (epollWait kernel.epollWait).map fun
      | .ok () => kernel.consumption.run consumer
      | waited => .pure waited

/-- The scope of the `EpollFd`, whose destructor closes it. -/
def pollMapped (kernel : PollKernel) (consumer : MappedRing) (mapFd : RawFd) :
    Option (Recorded Handle (Nat × Nat) (Outcome IoError Unit)) :=
  match kernel.epollCreate with
  | .error error => some (.pure (.err error))
  | .ok epollFd =>
    (pollRegistered kernel consumer mapFd epollFd).map fun body =>
      ⟨body.result, [.op (.acquire (.descriptor epollFd))] ++
        (body.events ++ (closeOrWarn epollFd).map .op)⟩

/-- The scope of the `RingbufConsumer`, whose destructor unmaps it. -/
def pollRing (arch : Arch) (kernel : PollKernel) (mapFd : RawFd) (ringSize pageSize : Nat) :
    Option (Recorded Handle (Nat × Nat) (Outcome IoError Unit)) :=
  match MappedRing.new arch kernel mapFd ringSize pageSize with
  | ⟨.err error, ops⟩ => some ⟨.err error, ops.map .op⟩
  | ⟨.panicked, ops⟩ => some ⟨.panicked, ops.map .op⟩
  | ⟨.ok consumer, ops⟩ =>
    (pollMapped kernel consumer mapFd).map fun body =>
      ⟨body.result, ops.map .op ++ (body.events ++ (consumer.drop kernel).map .op)⟩

/-- A poll that has returned, and the page size stored then. -/
structure Poll extends Recorded Handle (Nat × Nat) (Outcome IoError Unit) where
  pageCache : Option Nat
  deriving DecidableEq, Repr

def pollRingbuf (arch : Arch) (kernel : PollKernel) (mapFd : RawFd) : Option Poll :=
  match kernel.objGetInfo mapFd with
  | .error error => some ⟨.pure (.err error), kernel.cachedPageSize⟩
  | .ok info =>
    if info.mapType ≠ BPF_MAP_TYPE_RINGBUF then
      some ⟨.pure (.err ⟨.invalidInput,
        "fd does not reference a BPF ring buffer map. Fix: pass the fd returned by create_ringbuf or a BPF_MAP_TYPE_RINGBUF map."⟩),
        kernel.cachedPageSize⟩
    else
      match pageSize arch kernel with
      | (.err error, cache) => some ⟨.pure (.err error), cache⟩
      | (.panicked, cache) => some ⟨.pure .panicked, cache⟩
      | (.ok pageSize, cache) =>
        if info.maxEntries > arch.usizeMax then
          some ⟨.pure (.err ⟨.invalidData,
            "ring buffer max_entries does not fit in usize. Fix: use a smaller ring size."⟩), cache⟩
        else
          (pollRing arch kernel mapFd info.maxEntries pageSize).map fun body => ⟨body, cache⟩

/-! ## What each scope leaves -/

section Scopes

variable {arch : Arch} {kernel : PollKernel} {mapFd : RawFd}

/-- Enough answers return from the wait: one that is not an interruption. -/
theorem epollWait_returns {answers : List (Except IoError Unit)}
    (h : ∃ answer ∈ answers, ∀ error, answer = .error error → error.kind ≠ .interrupted) :
    ∃ result, epollWait answers = some result := by
  induction answers with
  | nil => simp at h
  | cons answer answers ih =>
    cases answer with
    | ok _ => exact ⟨_, rfl⟩
    | error error =>
      rw [epollWait]
      split
      · next hinterrupted =>
        refine ih ?_
        obtain ⟨answer, hmem, hsettles⟩ := h
        rcases List.mem_cons.mp hmem with rfl | hmem
        · exact absurd hinterrupted (hsettles error rfl)
        · exact ⟨answer, hmem, hsettles⟩
      · exact ⟨_, rfl⟩

/-- The only place where a poll can stay for ever is the wait. -/
theorem pollMapped_returns (m : MappedRing) (mapFd : RawFd)
    (hwait : ∃ result, epollWait kernel.epollWait = some result) :
    ∃ t, pollMapped kernel m mapFd = some t := by
  obtain ⟨result, hresult⟩ := hwait
  unfold pollMapped
  split
  · exact ⟨_, rfl⟩
  · unfold pollRegistered
    split
    · exact ⟨_, rfl⟩
    · exact ⟨_, by rw [hresult]; rfl⟩

/-- The destructors release a handle, unless it is a mapping and `munmap` fails. -/
def PollKernel.releases (kernel : PollKernel) : Handle → Bool
  | .descriptor _ => true
  | .mapping addr len => (kernel.munmap addr len).isNone

theorem releases_mapping {addr len : Nat} :
    kernel.releases (.mapping addr len) = false ↔ kernel.munmap addr len ≠ none := by
  simp [PollKernel.releases, Option.isSome_iff_ne_none]

theorem mem_kept {rs : List Handle} {h : Handle} :
    h ∈ (rs.filter fun r => !kernel.releases r).toFinset ↔ h ∈ rs ∧ kernel.releases h = false := by
  simp

theorem munmapOrWarn_eq (kernel : PollKernel) (addr len : Nat) :
    munmapOrWarn kernel addr len =
      ([Handle.mapping addr len].filter kernel.releases).map Op.release := by
  cases hunmap : kernel.munmap addr len with
  | none => simp [munmapOrWarn, hunmap, PollKernel.releases]
  | some error => simp [munmapOrWarn, hunmap, PollKernel.releases]

/-- The mappings of a ring, in the order in which they are made and released. -/
def MappedRing.mappings (m : MappedRing) : List Handle :=
  [.mapping m.consumerMapping m.pageSize, .mapping m.producerMapping m.mappingLen]

theorem MappedRing.drop_eq (kernel : PollKernel) (m : MappedRing) :
    m.drop kernel = (m.mappings.filter kernel.releases).map Op.release := by
  rw [MappedRing.drop, munmapOrWarn_eq, munmapOrWarn_eq, ← List.map_append, ← List.filter_append]
  rfl

theorem Consumption.run_ops (consumption : Consumption) (m : MappedRing) :
    (consumption.run m).ops = [] :=
  operations_uses _ (fun _ => rfl) _

theorem pollRegistered_ops {m : MappedRing} {epollFd : RawFd}
    {t : Recorded Handle (Nat × Nat) (Outcome IoError Unit)}
    (h : pollRegistered kernel m mapFd epollFd = some t) : t.ops = [] := by
  unfold pollRegistered at h
  split at h
  · cases h
    rfl
  · obtain ⟨waited, -, rfl⟩ := Option.map_eq_some_iff.mp h
    split
    · exact kernel.consumption.run_ops m
    · rfl

theorem pollMapped_leaves {m : MappedRing}
    {t : Recorded Handle (Nat × Nat) (Outcome IoError Unit)}
    (h : pollMapped kernel m mapFd = some t) : Leaves t.ops ∅ := by
  unfold pollMapped at h
  split at h
  · cases h
    exact .nil
  · next epollFd _ =>
    obtain ⟨body, hbody, rfl⟩ := Option.map_eq_some_iff.mp h
    have hops : operations body.events = [] := pollRegistered_ops hbody
    have hscope := Leaves.nil.scope [Handle.descriptor epollFd] fun _ => true
    rw [Recorded.ops, operations_append, operations_append, hops, operations_ops]
    exact hscope

theorem mappingLen_eq_none {ringSize pageSize : Nat} :
    mappingLen arch ringSize pageSize = none ↔ arch.usizeMax < pageSize + 2 * ringSize := by
  unfold mappingLen Arch.checkedMul Arch.checkedAdd
  split
  · simp only [Option.bind_some, ite_eq_right_iff, reduceCtorEq, imp_false]
    omega
  · simp only [Option.bind_none, true_iff]
    omega

theorem mappingLen_eq_some {ringSize pageSize : Nat}
    (hfits : ¬ arch.usizeMax < pageSize + 2 * ringSize) :
    mappingLen arch ringSize pageSize = some (pageSize + 2 * ringSize) := by
  have hdouble : ringSize * 2 ≤ arch.usizeMax := by omega
  have hsum : pageSize + ringSize * 2 ≤ arch.usizeMax := by omega
  rw [mappingLen, Arch.checkedMul, if_pos hdouble, Option.bind_some, Arch.checkedAdd, if_pos hsum,
    Nat.mul_comm]

/-- What is still mapped after a poll of a ring of this size. The consumer page
    stays if the length of the other mapping overflows. -/
inductive RingLeaves (arch : Arch) (kernel : PollKernel) (mapFd : RawFd) (ringSize pageSize : Nat) :
    Handle → Prop where
  | consumerPage {addr : Nat} (hconsumer : kernel.mmap pageSize mapFd 0 = .ok addr)
      (hkept : arch.usizeMax < pageSize + 2 * ringSize ∨ kernel.munmap addr pageSize ≠ none) :
      RingLeaves arch kernel mapFd ringSize pageSize (.mapping addr pageSize)
  | producerPages {consumer addr : Nat} (hconsumer : kernel.mmap pageSize mapFd 0 = .ok consumer)
      (hfits : ¬ arch.usizeMax < pageSize + 2 * ringSize)
      (hproducer : kernel.mmap (pageSize + 2 * ringSize) mapFd pageSize = .ok addr)
      (hkept : kernel.munmap addr (pageSize + 2 * ringSize) ≠ none) :
      RingLeaves arch kernel mapFd ringSize pageSize (.mapping addr (pageSize + 2 * ringSize))

/-- A poll of a mapped ring leaves the mappings that it could not unmap. -/
theorem pollRing_leaves {ringSize pageSize : Nat}
    {t : Recorded Handle (Nat × Nat) (Outcome IoError Unit)}
    (hpoll : pollRing arch kernel mapFd ringSize pageSize = some t) :
    ∃ left, Leaves t.ops left ∧
      ∀ h, h ∈ left ↔ RingLeaves arch kernel mapFd ringSize pageSize h := by
  cases hconsumer : kernel.mmap pageSize mapFd 0 with
  | error error =>
    simp only [pollRing, MappedRing.new, hconsumer, Traced.pure] at hpoll
    cases hpoll
    refine ⟨∅, .nil, ?_⟩
    intro h
    refine iff_of_false (Finset.notMem_empty h) ?_
    rintro (⟨hmmap, -⟩ | ⟨hmmap, -⟩)
    · simp [hconsumer] at hmmap
    · simp [hconsumer] at hmmap
  | ok consumer =>
    by_cases hoverflow : arch.usizeMax < pageSize + 2 * ringSize
    · simp only [pollRing, MappedRing.new, hconsumer, mappingLen_eq_none.mpr hoverflow] at hpoll
      cases hpoll
      have hleaves := Leaves.nil.scope [Handle.mapping consumer pageSize] fun _ => false
      refine ⟨_, by rw [Recorded.ops, operations_ops]; exact hleaves, ?_⟩
      intro h
      simp only [Bool.not_false, List.filter_true, List.toFinset_cons, List.toFinset_nil,
        Finset.empty_union, insert_empty_eq, Finset.mem_singleton]
      constructor
      · rintro rfl
        exact .consumerPage hconsumer (.inl hoverflow)
      · rintro (⟨hmmap, -⟩ | ⟨-, hfits⟩)
        · rw [hconsumer] at hmmap
          cases hmmap
          rfl
        · exact absurd hoverflow hfits
    · have hlen := mappingLen_eq_some hoverflow
      cases hproducer : kernel.mmap (pageSize + 2 * ringSize) mapFd pageSize with
      | error error =>
        simp only [pollRing, MappedRing.new, hconsumer, hlen, hproducer, munmapOrWarn_eq] at hpoll
        cases hpoll
        have hleaves := Leaves.nil.scope [Handle.mapping consumer pageSize] kernel.releases
        refine ⟨_, by rw [Recorded.ops, operations_ops]; exact hleaves, ?_⟩
        intro h
        rw [Finset.empty_union, mem_kept, List.mem_singleton]
        constructor
        · rintro ⟨rfl, hkept⟩
          exact .consumerPage hconsumer (.inr (releases_mapping.mp hkept))
        · rintro (⟨hmmap, hkept⟩ | ⟨-, -, hmmap, -⟩)
          · rw [hconsumer] at hmmap
            cases hmmap
            exact ⟨rfl, releases_mapping.mpr (hkept.resolve_left hoverflow)⟩
          · simp [hproducer] at hmmap
      | ok producer =>
        simp only [pollRing, MappedRing.new, hconsumer, hlen, hproducer, MappedRing.drop_eq] at hpoll
        obtain ⟨body, hbody, rfl⟩ := Option.map_eq_some_iff.mp hpoll
        have hleaves := (pollMapped_leaves hbody).scope [Handle.mapping consumer pageSize,
          .mapping producer (pageSize + 2 * ringSize)] kernel.releases
        refine ⟨_, by
          simp only [Recorded.ops, operations_append, operations_ops]
          exact hleaves, ?_⟩
        intro h
        rw [Finset.empty_union, mem_kept, List.mem_cons, List.mem_singleton]
        constructor
        · rintro ⟨rfl | rfl, hkept⟩
          · exact .consumerPage hconsumer (.inr (releases_mapping.mp hkept))
          · exact .producerPages hconsumer hoverflow hproducer (releases_mapping.mp hkept)
        · rintro (⟨hmmap, hkept⟩ | ⟨-, -, hmmap, hkept⟩)
          · rw [hconsumer] at hmmap
            cases hmmap
            exact ⟨.inl rfl, releases_mapping.mpr (hkept.resolve_left hoverflow)⟩
          · rw [hproducer] at hmmap
            cases hmmap
            exact ⟨.inr rfl, releases_mapping.mpr hkept⟩

theorem pollRing_returns (arch : Arch) (mapFd : RawFd) (ringSize pageSize : Nat)
    (hwait : ∃ result, epollWait kernel.epollWait = some result) :
    ∃ t, pollRing arch kernel mapFd ringSize pageSize = some t := by
  unfold pollRing
  split
  · exact ⟨_, rfl⟩
  · exact ⟨_, rfl⟩
  · next m _ _ =>
    obtain ⟨body, hbody⟩ := pollMapped_returns m mapFd hwait
    exact ⟨_, by rw [hbody]; rfl⟩

end Scopes

/-! ## The whole poll -/

/-- The poll gets as far as mapping the consumer page of a ring, and then the
    length of the other mapping does not fit in a `usize`. -/
def MappingOverflows (arch : Arch) (kernel : PollKernel) (mapFd : RawFd) : Prop :=
  ∃ info size addr, kernel.objGetInfo mapFd = .ok info ∧ info.mapType = BPF_MAP_TYPE_RINGBUF ∧
    (pageSize arch kernel).1 = .ok size ∧ kernel.mmap size mapFd 0 = .ok addr ∧
    arch.usizeMax < size + 2 * info.maxEntries

/-- A `u32` fits in a `usize` of either width. -/
theorem MapInfo.maxEntries_le (info : MapInfo) (arch : Arch) : info.maxEntries ≤ arch.usizeMax := by
  have hlt := info.maxEntries_lt
  cases arch <;> simp only [Arch.usizeMax, Arch.width] <;> omega

/-- Past its checks a poll maps the ring. -/
theorem pollRingbuf_eq_pollRing {arch : Arch} {kernel : PollKernel} {mapFd : RawFd} {info : MapInfo}
    {size : Nat} (hinfo : kernel.objGetInfo mapFd = .ok info)
    (htype : info.mapType = BPF_MAP_TYPE_RINGBUF) (hpage : (pageSize arch kernel).1 = .ok size) :
    pollRingbuf arch kernel mapFd =
      (pollRing arch kernel mapFd info.maxEntries size).map fun body =>
        ⟨body, (pageSize arch kernel).2⟩ := by
  have hpair : pageSize arch kernel = (.ok size, (pageSize arch kernel).2) := by rw [← hpage]
  rw [pollRingbuf, hinfo, hpair]
  simp only [htype, Nat.not_lt.mpr (info.maxEntries_le arch)]
  rfl

/-- A poll fails one of its checks, without touching anything, or it maps the ring. -/
theorem pollRingbuf_cases (arch : Arch) (kernel : PollKernel) (mapFd : RawFd) :
    ((∃ result cache, pollRingbuf arch kernel mapFd = some ⟨.pure result, cache⟩) ∧
      ∀ info size, kernel.objGetInfo mapFd = .ok info → info.mapType = BPF_MAP_TYPE_RINGBUF →
        (pageSize arch kernel).1 ≠ .ok size) ∨
    ∃ info size, kernel.objGetInfo mapFd = .ok info ∧ info.mapType = BPF_MAP_TYPE_RINGBUF ∧
      (pageSize arch kernel).1 = .ok size := by
  cases hinfo : kernel.objGetInfo mapFd with
  | error error =>
    refine .inl ⟨⟨_, _, by rw [pollRingbuf, hinfo]⟩, ?_⟩
    intro info size hinfo'
    cases hinfo'
  | ok info =>
    by_cases htype : info.mapType = BPF_MAP_TYPE_RINGBUF
    · cases hpage : pageSize arch kernel with
      | mk result cache =>
        cases result with
        | ok size => exact .inr ⟨info, size, rfl, htype, rfl⟩
        | err error =>
          refine .inl ⟨⟨_, _, by rw [pollRingbuf, hinfo]; simp only [htype, hpage]; rfl⟩, ?_⟩
          intro _ size _ _ hsize
          cases hsize
        | panicked =>
          refine .inl ⟨⟨_, _, by rw [pollRingbuf, hinfo]; simp only [htype, hpage]; rfl⟩, ?_⟩
          intro _ size _ _ hsize
          cases hsize
    · refine .inl ⟨⟨_, _, by rw [pollRingbuf, hinfo]; exact if_pos htype⟩, ?_⟩
      intro info' size hinfo' htype'
      cases hinfo'
      exact absurd htype' htype

/-- A poll returns, and on every path it releases what it acquired, each resource
    once and a mapping with the length it was mapped with, unless the length of
    the second mapping overflows. The hypotheses are that the kernel hands out
    nothing that is live, that `munmap` works and that the wait is interrupted
    only finitely often. -/
theorem pollRingbuf_restores (arch : Arch) (kernel : PollKernel) (mapFd : RawFd)
    (live : Finset Handle)
    (hfresh : ∀ t, pollRingbuf arch kernel mapFd = some t → Fresh live t.ops)
    (hmunmap : ∀ addr len, kernel.munmap addr len = none)
    (hwait : ∃ answer ∈ kernel.epollWait,
      ∀ error, answer = .error error → error.kind ≠ .interrupted) :
    ∃ t, pollRingbuf arch kernel mapFd = some t ∧
      (Restores live t.ops ↔ ¬ MappingOverflows arch kernel mapFd) := by
  rcases pollRingbuf_cases arch kernel mapFd with
    ⟨⟨result, cache, hpoll⟩, hchecks⟩ | ⟨info, size, hinfo, htype, hpage⟩
  · refine ⟨_, hpoll, iff_of_true rfl ?_⟩
    rintro ⟨info, size, addr, hinfo, htype, hpage, -⟩
    exact hchecks info size hinfo htype hpage
  · obtain ⟨body, hbody⟩ := pollRing_returns arch mapFd info.maxEntries size
      (epollWait_returns hwait)
    have hpoll := pollRingbuf_eq_pollRing hinfo htype hpage
    rw [hbody] at hpoll
    obtain ⟨left, hleaves, hleft⟩ := pollRing_leaves hbody
    refine ⟨_, hpoll, (hleaves.restores_iff (hfresh _ hpoll)).trans ?_⟩
    -- When `munmap` works, only the overflow leaves something: the consumer page.
    constructor
    · rintro hnone ⟨info', size', addr, hinfo', -, hpage', hmmap, hoverflow⟩
      rw [hinfo] at hinfo'
      rw [hpage] at hpage'
      cases hinfo'
      cases hpage'
      exact hnone _ ((hleft _).mpr (.consumerPage hmmap (.inl hoverflow)))
    · intro hfits h hmem
      rcases (hleft h).mp hmem with ⟨hmmap, hkept⟩ | ⟨-, -, -, hkept⟩
      · have hoverflow := hkept.resolve_right (fun hfails => hfails (hmunmap _ _))
        exact hfits ⟨info, size, _, hinfo, htype, hpage, hmmap, hoverflow⟩
      · exact hkept (hmunmap _ _)

/-- A system with pages of 4096 bytes where every call succeeds, on a ring of the
    given size, after one interrupted wait. -/
def successfulKernel (maxEntries : Nat) (hpos : 0 < maxEntries) (hlt : maxEntries < 2 ^ 32) :
    PollKernel where
  cachedPageSize := none
  sysconf := 4096
  sysconfError := ⟨.other, "Invalid argument"⟩
  objGetInfo _ := .ok ⟨BPF_MAP_TYPE_RINGBUF, maxEntries, hpos, hlt⟩
  mmap _ _ offset := .ok (0x10000 + offset)
  munmap _ _ := none
  epollCreate := .ok 7
  epollCtl _ _ := none
  epollWait := [.error ⟨.interrupted, "Interrupted system call"⟩, .ok ()]
  consumption := ⟨[.loadConsumerPos 0, .loadProducerPos 0], .returned⟩

/-- Such a system, and a ring of one page. -/
def pageKernel : PollKernel := successfulKernel 4096 (by decide) (by decide)

theorem successfulKernel_settles (maxEntries : Nat) (hpos : 0 < maxEntries)
    (hlt : maxEntries < 2 ^ 32) :
    ∃ answer ∈ (successfulKernel maxEntries hpos hlt).epollWait,
      ∀ error, answer = .error error → error.kind ≠ .interrupted :=
  ⟨.ok (), by simp [successfulKernel], by simp⟩

/-- A ring of one page on a 64-bit target, polled through descriptor 3. -/
theorem pollRingbuf_restores_page :
    ∃ t, pollRingbuf .bits64 pageKernel 3 = some t ∧ t.result = .ok () ∧
      Restores {.descriptor 3} t.ops := by
  have hfresh : ∀ t, pollRingbuf .bits64 pageKernel 3 = some t → Fresh {.descriptor 3} t.ops := by
    intro t ht
    cases ht
    decide
  obtain ⟨t, ht, hrestores⟩ := pollRingbuf_restores .bits64 pageKernel 3 {.descriptor 3} hfresh
    (fun _ _ => rfl) (successfulKernel_settles 4096 (by decide) (by decide))
  refine ⟨t, ht, ?_, hrestores.mpr ?_⟩
  · cases ht
    rfl
  · rintro ⟨info, size, addr, hinfo, -, hpage, -, hoverflow⟩
    cases hinfo
    cases hpage
    exact absurd hoverflow (by decide)

/-- A ring of two gigabytes on a 32-bit target: every system call succeeds, the
    poll returns an error, and the consumer page stays mapped. -/
theorem pollRingbuf_leaks_consumer_page :
    pollRingbuf .bits32 (successfulKernel (2 ^ 31) (by decide) (by decide)) 3 =
      some ⟨⟨.err mappingOverflowError, [.op (.acquire (.mapping 0x10000 4096))]⟩, some 4096⟩ ∧
    replay {Handle.descriptor 3} [.acquire (.mapping 0x10000 4096)] =
      some {Handle.mapping 0x10000 4096, Handle.descriptor 3} ∧
    ¬ Restores {Handle.descriptor 3} [.acquire (.mapping 0x10000 4096)] :=
  ⟨rfl, by decide, not_restores_acquire _⟩

end Ebpfkit
