-- SUMMARY: Creating a ring buffer, and that a poll of it accesses memory inside its mappings only, while they are mapped.
import Ebpfkit.Loader.PollRingbuf
import Ebpfkit.Loader.RingbufSafety

/-!
# Memory of a poll

`create_ringbuf` of `src/loader/ringbuf.rs`, and what the size check in it is good
for: whatever another process writes to the shared pages, the mask and the check of
a record against the doubled mapping keep every access of a poll inside the mapping
it belongs to, and every access is made while that mapping is live.
-/

namespace Ebpfkit

open Resource

/-! ## Creating a ring buffer -/

/-- The fields of `BpfAttrMapCreate` that are set; the others are zero. -/
structure MapCreateAttr where
  mapType : Nat
  maxEntries : UInt32
  deriving DecidableEq, Repr

/-- `u32::is_power_of_two`. -/
def isPowerOfTwo (n : UInt32) : Bool := (List.range 32).any fun k => n.toNat == 2 ^ k

def ringSizeError : IoError :=
  ⟨.invalidInput, "ring buffer size must be a non-zero power of two. Fix: pass 4096, 8192, 16384, or another power of two."⟩

def createRingbuf (mapCreate : MapCreateAttr → Except IoError RawFd) (sizeBytes : UInt32) :
    Traced Handle (Outcome IoError RawFd) :=
  if sizeBytes == 0 || !isPowerOfTwo sizeBytes then
    .pure (.err ringSizeError)
  else
    match mapCreate ⟨BPF_MAP_TYPE_RINGBUF, sizeBytes⟩ with
    | .error error => .pure (.err error)
    | .ok fd => ⟨.ok fd, [.acquire (.descriptor fd)]⟩

/-- A ring buffer that was created has a power of two as its size. -/
theorem createRingbuf_size {mapCreate : MapCreateAttr → Except IoError RawFd} {sizeBytes : UInt32}
    {fd : RawFd} (h : (createRingbuf mapCreate sizeBytes).result = .ok fd) :
    ∃ order < 32, sizeBytes.toNat = 2 ^ order := by
  unfold createRingbuf at h
  split at h
  · cases h
  · next hgate =>
    have hpower : isPowerOfTwo sizeBytes = true := by
      simp only [Bool.or_eq_true, Bool.not_eq_true', not_or, Bool.not_eq_false] at hgate
      exact hgate.2
    obtain ⟨order, horder, heq⟩ := List.any_eq_true.mp hpower
    exact ⟨order, List.mem_range.mp horder, by simpa using heq⟩

/-- A ring from `createRingbuf` that holds a header satisfies what the consumption
    relies on. -/
theorem exists_consumer (arch : Arch) {mapCreate : MapCreateAttr → Except IoError RawFd}
    {sizeBytes : UInt32} {mapFd : RawFd} (hcreate : (createRingbuf mapCreate sizeBytes).result = .ok mapFd)
    (hsize : 8 ≤ sizeBytes.toNat) :
    ∃ consumer : RingbufConsumer arch, consumer.mask = sizeBytes.toNat - 1 ∧
      consumer.ringSize = sizeBytes.toNat := by
  obtain ⟨order, horder, heq⟩ := createRingbuf_size hcreate
  have hge : 3 ≤ order := by
    by_contra hlt
    have hpow : 2 ^ order ≤ 2 ^ 2 := Nat.pow_le_pow_right (by decide) (by omega)
    omega
  have hwidth : order < arch.width := by
    cases arch
    · exact horder
    · exact Nat.lt_trans horder (by decide)
  exact ⟨⟨2 ^ order - 1, order, rfl, hge, hwidth⟩, by rw [heq], heq.symm⟩

/-! ## Offsets -/

section Offsets

variable {build : Build} (consumer : RingbufConsumer build.arch)

/-- An offset that is read lies in the doubled mapping. -/
def BoundedAction (ringSize : Nat) : Action → Prop
  | .loadHeader offset _ => offset + 8 ≤ 2 * ringSize
  | .callback dataOffset dataLen => dataOffset + dataLen ≤ 2 * ringSize
  | _ => True

/-- The invariant of a call about which only the size of the ring is known. -/
def BoundedControl : Control → Prop
  | .callback _ dataOffset dataLen _ => dataOffset + dataLen ≤ 2 * consumer.ringSize
  | _ => True

theorem boundedControl_whileHead (l : Locals) : BoundedControl consumer (whileHead l) :=
  whileHead_rule (fun _ => trivial) (fun _ _ => trivial) (fun _ _ => trivial)

theorem boundedControl_advance (l : Locals) (recordLen : Nat) :
    BoundedControl consumer (advance build l recordLen) := by
  unfold advance
  split
  · trivial
  · trivial

theorem boundedControl_afterHeader (l : Locals) (rawLen : UInt32) :
    BoundedControl consumer (afterHeader build consumer l rawLen) := by
  rcases @afterHeader_cases build consumer l rawLen with
    ⟨-, heq⟩ | ⟨-, -, -, heq⟩ | ⟨-, -, hwithin, heq⟩ | ⟨-, -, heq⟩
  · rw [heq]
    trivial
  · rw [heq]
    trivial
  · rw [heq]
    have hslice := (recordWithinMapping_iff.mp hwithin).1
    change l.consumerPos % consumer.ringSize + 8 + dataLen rawLen ≤ 2 * consumer.ringSize
    omega
  · rw [heq]
    exact boundedControl_advance consumer l _

/-- One step, whatever the shared memory holds. -/
theorem step_bounded {t u : Control} {a : Action} (h : BoundedControl consumer t)
    (hstep : Step build consumer t a u) :
    BoundedAction consumer.ringSize a ∧ BoundedControl consumer u := by
  cases hstep with
  | loadConsumerPos value => exact ⟨trivial, trivial⟩
  | loadProducerPos pos value => exact ⟨trivial, boundedControl_whileHead consumer _⟩
  | loadHeader l rawLen =>
    have hlt := recordOffset_lt consumer l.consumerPos
    have height := consumer.eight_le_ringSize
    refine ⟨?_, boundedControl_afterHeader consumer l rawLen⟩
    change recordOffset build consumer l.consumerPos + 8 ≤ 2 * consumer.ringSize
    omega
  | callback l dataOffset dataLen recordLen => exact ⟨h, boundedControl_advance consumer l recordLen⟩
  | storeAdvanced l => exact ⟨trivial, boundedControl_whileHead consumer _⟩
  | storeStopped pos reason => exact ⟨trivial, trivial⟩

theorem run_bounded {as : List Action} {t : Control}
    (hrun : Lts.Run (Step build consumer) Lts.Any .loadConsumerPos as t) :
    ∀ a ∈ as, BoundedAction consumer.ringSize a := by
  have hboth : BoundedControl consumer t ∧ ∀ a ∈ as, BoundedAction consumer.ringSize a := by
    apply hrun.invariant fun as t =>
      BoundedControl consumer t ∧ ∀ a ∈ as, BoundedAction consumer.ringSize a
    · exact ⟨trivial, by simp⟩
    · rintro as t a u ⟨hcontrol, hactions⟩ hstep -
      obtain ⟨haction, hnext⟩ := step_bounded consumer hcontrol hstep
      refine ⟨hnext, ?_⟩
      rw [List.forall_mem_append, List.forall_mem_singleton]
      exact ⟨hactions, haction⟩
  exact hboth.2

/-! ### Alignment -/

/-- The positions are multiples of eight. -/
def AlignedControl : Control → Prop
  | .loadProducerPos pos => pos % 8 = 0
  | .loadHeader l | .storeAdvanced l => l.consumerPos % 8 = 0
  | .callback l _ _ recordLen => l.consumerPos % 8 = 0 ∧ recordLen % 8 = 0
  | _ => True

/-- A position that is loaded, or the offset of a header, is a multiple of eight. -/
def AlignedAction : Action → Prop
  | .loadConsumerPos value => value % 8 = 0
  | .loadHeader offset _ => offset % 8 = 0
  | _ => True

theorem alignedControl_whileHead {l : Locals} (h : l.consumerPos % 8 = 0) :
    AlignedControl (whileHead l) :=
  whileHead_rule (fun _ => h) (fun _ _ => h) (fun _ _ => trivial)

/-- Wrapping around at the end of a `u64` keeps the alignment. -/
theorem alignedControl_advance {l : Locals} {recordLen : Nat} (h : l.consumerPos % 8 = 0)
    (hlen : recordLen % 8 = 0) : AlignedControl (advance build l recordLen) := by
  unfold advance
  split
  · next pos hadd =>
    have hpos := Build.add_eq_mod hadd
    change pos % 8 = 0
    omega
  · trivial

theorem alignedControl_afterHeader {l : Locals} (rawLen : UInt32) (h : l.consumerPos % 8 = 0) :
    AlignedControl (afterHeader build consumer l rawLen) := by
  have hlen := (recordLen_roundRecordLen build.arch rawLen).aligned
  rcases @afterHeader_cases build consumer l rawLen with
    ⟨-, heq⟩ | ⟨-, -, -, heq⟩ | ⟨-, -, -, heq⟩ | ⟨-, -, heq⟩
  · rw [heq]
    trivial
  · rw [heq]
    trivial
  · rw [heq]
    exact ⟨h, hlen⟩
  · rw [heq]
    exact alignedControl_advance h hlen

theorem step_aligned {t u : Control} {a : Action} (h : AlignedControl t)
    (hstep : Step build consumer t a u) (hload : ∀ value, a = .loadConsumerPos value → value % 8 = 0) :
    AlignedAction a ∧ AlignedControl u := by
  cases hstep with
  | loadConsumerPos value => exact ⟨hload value rfl, hload value rfl⟩
  | loadProducerPos pos value => exact ⟨trivial, alignedControl_whileHead h⟩
  | loadHeader l rawLen =>
    exact ⟨(recordOffset_header consumer h).1, alignedControl_afterHeader consumer rawLen h⟩
  | callback l dataOffset dataLen recordLen => exact ⟨trivial, alignedControl_advance h.1 h.2⟩
  | storeAdvanced l => exact ⟨trivial, alignedControl_whileHead h⟩
  | storeStopped pos reason => exact ⟨trivial, trivial⟩

/-- If the position that is found is a multiple of eight, so is every header's offset. -/
theorem run_aligned {as : List Action} {t : Control}
    (hrun : Lts.Run (Step build consumer) Lts.Any .loadConsumerPos as t)
    (hload : ∀ value, .loadConsumerPos value ∈ as → value % 8 = 0) : ∀ a ∈ as, AlignedAction a := by
  have hboth : AlignedControl t ∧ ∀ a ∈ as, AlignedAction a := by
    induction hrun with
    | nil => exact ⟨trivial, by simp⟩
    | snoc _ hstep _ ih =>
      obtain ⟨hcontrol, hactions⟩ := ih fun value hmem => hload value (List.mem_append_left _ hmem)
      obtain ⟨haction, hnext⟩ := step_aligned consumer hcontrol hstep (by
        rintro value rfl
        exact hload value (List.mem_append_right _ (List.mem_singleton_self _)))
      refine ⟨hnext, ?_⟩
      rw [List.forall_mem_append, List.forall_mem_singleton]
      exact ⟨hactions, haction⟩
  exact hboth.2

end Offsets

/-- The actions of a consumption are those of `consume_ring_records` on this ring.
    It may unwind anywhere: from the callback, from a message that cannot be
    printed, or from an overflow check. -/
inductive Consumption.Follows (build : Build) (consumer : RingbufConsumer build.arch) :
    Consumption → Prop where
  | returned {as : List Action}
      (hrun : Lts.Run (Step build consumer) Lts.Any .loadConsumerPos as .returned) :
      Follows build consumer ⟨as, .returned⟩
  | unwound {as : List Action} {t : Control}
      (hrun : Lts.Run (Step build consumer) Lts.Any .loadConsumerPos as t) :
      Follows build consumer ⟨as, .unwound⟩

theorem Consumption.Follows.run {build : Build} {consumer : RingbufConsumer build.arch}
    {consumption : Consumption} (h : consumption.Follows build consumer) :
    ∃ t, Lts.Run (Step build consumer) Lts.Any .loadConsumerPos consumption.actions t := by
  cases h with
  | returned hrun => exact ⟨_, hrun⟩
  | unwound hrun => exact ⟨_, hrun⟩

/-! ## Addresses -/

/-- The mapping covers these bytes. -/
def Handle.Covers : Handle → Nat × Nat → Prop
  | .mapping addr len, (start, n) => addr ≤ start ∧ start + n ≤ addr + len
  | .descriptor _, _ => False

/-- How the fields of a mapped ring belong together. -/
structure MappedRing.Wf (m : MappedRing) (ringSize pageSize : Nat) : Prop where
  dataPtr : m.dataPtr = m.producerMapping + m.pageSize
  mappingLen : m.mappingLen = m.pageSize + 2 * ringSize
  mask : m.mask = ringSize - 1
  pageSize : m.pageSize = pageSize

section Mapping

variable {arch : Arch} {kernel : PollKernel} {mapFd : RawFd} {ringSize pageSize : Nat}
  {m : MappedRing}

/-- A ring that is mapped holds its two mappings. -/
theorem MappedRing.new_ok
    (h : (MappedRing.new arch kernel mapFd ringSize pageSize).result = .ok m) :
    m.Wf ringSize pageSize ∧
      MappedRing.new arch kernel mapFd ringSize pageSize = ⟨.ok m, m.mappings.map .acquire⟩ := by
  unfold MappedRing.new at h ⊢
  split at h
  · cases h
  · split at h
    · cases h
    · next len hlen =>
      split at h
      · cases h
      · next producerMapping _ =>
        have hsum : len = pageSize + 2 * ringSize := by
          simp only [Ebpfkit.mappingLen, Arch.checkedMul, Arch.checkedAdd] at hlen
          split at hlen
          · rw [Option.bind_some] at hlen
            split at hlen
            · rw [← Option.some.inj hlen, Nat.mul_comm]
            · cases hlen
          · cases hlen
        cases h
        exact ⟨⟨rfl, hsum, rfl, rfl⟩, rfl⟩

/-- An access at a bounded offset lies inside its mapping. -/
theorem covers_of_bounded {a : Action} (hm : m.Wf ringSize pageSize) (hpage : 8 ≤ pageSize)
    (h : BoundedAction ringSize a) : (a.handle m).Covers (a.footprint m) := by
  obtain ⟨hdata, hlen, -, hsize⟩ := hm
  cases a with
  | loadConsumerPos value | storeConsumerPos value =>
    exact ⟨Nat.le_refl _, Nat.add_le_add_left (hsize ▸ hpage) _⟩
  | loadProducerPos value =>
    refine ⟨Nat.le_refl _, Nat.add_le_add_left ?_ _⟩
    rw [hlen, hsize]
    exact Nat.le_trans hpage (Nat.le_add_right _ _)
  | loadHeader offset rawLen =>
    have hinside : offset + 8 ≤ 2 * ringSize := h
    simp only [Action.handle, Action.footprint, Handle.Covers, hdata, hlen]
    omega
  | callback dataOffset dataLen =>
    have hinside : dataOffset + dataLen ≤ 2 * ringSize := h
    simp only [Action.handle, Action.footprint, Handle.Covers, hdata, hlen]
    omega

/-- Consumption uses the two mappings of the ring. -/
theorem Consumption.run_sound (consumption : Consumption)
    (hcovers : ∀ a ∈ consumption.actions, (a.handle m).Covers (a.footprint m)) :
    Sound Handle.Covers m.mappings.toFinset (consumption.run m).events := by
  obtain ⟨actions, ending⟩ := consumption
  change Sound _ _ (actions.map _)
  induction actions with
  | nil => exact .nil
  | cons a actions ih =>
    rw [List.forall_mem_cons] at hcovers
    refine .use_cons ?_ hcovers.1 (ih hcovers.2)
    cases a <;> simp [Action.handle, MappedRing.mappings]

/-- The mappings outlive the epoll descriptor. -/
theorem pollMapped_sound {t : Recorded Handle (Nat × Nat) (Outcome IoError Unit)}
    (hpoll : pollMapped kernel m mapFd = some t)
    (hcovers : ∀ a ∈ kernel.consumption.actions, (a.handle m).Covers (a.footprint m)) :
    Sound Handle.Covers m.mappings.toFinset t.events := by
  unfold pollMapped at hpoll
  split at hpoll
  · cases hpoll
    exact .nil
  · next epollFd _ =>
    obtain ⟨body, hbody, rfl⟩ := Option.map_eq_some_iff.mp hpoll
    have hsound : Sound Handle.Covers m.mappings.toFinset body.events := by
      unfold pollRegistered at hbody
      split at hbody
      · cases hbody
        exact .nil
      · obtain ⟨waited, -, rfl⟩ := Option.map_eq_some_iff.mp hbody
        split
        · exact kernel.consumption.run_sound hcovers
        · exact .nil
    have hleaves : Leaves (operations body.events) ∅ := by
      rw [show operations body.events = [] from pollRegistered_ops hbody]
      exact .nil
    exact Sound.scope [.descriptor epollFd] (fun _ => true) hleaves
      (hsound.mono Finset.subset_union_left)

/-- Every access of a poll is made while the mapping that it belongs to is live,
    whether or not the destructors manage to unmap. -/
theorem pollRing_sound {t : Recorded Handle (Nat × Nat) (Outcome IoError Unit)}
    (hpoll : pollRing arch kernel mapFd ringSize pageSize = some t)
    (hcovers : ∀ m, (MappedRing.new arch kernel mapFd ringSize pageSize).result = .ok m →
      ∀ a ∈ kernel.consumption.actions, (a.handle m).Covers (a.footprint m)) :
    Sound Handle.Covers ∅ t.events := by
  have hmapping : ∀ ops : List (Op Handle), t.events = ops.map .op →
      Sound Handle.Covers ∅ t.events := by
    intro ops hevents live _ hfresh
    obtain ⟨left, hleaves, -⟩ := pollRing_leaves hpoll
    obtain ⟨-, hreplay⟩ := hleaves live hfresh
    rw [Recorded.ops, hevents, operations_ops] at hreplay
    rw [hevents]
    exact guarded_ops hreplay
  cases hnew : MappedRing.new arch kernel mapFd ringSize pageSize with
  | mk result ops =>
    rw [pollRing, hnew] at hpoll
    cases result with
    | err error =>
      cases hpoll
      exact hmapping ops rfl
    | panicked =>
      cases hpoll
      exact hmapping ops rfl
    | ok m =>
      obtain ⟨body, hbody, rfl⟩ := Option.map_eq_some_iff.mp hpoll
      have hresult : (MappedRing.new arch kernel mapFd ringSize pageSize).result = .ok m := by
        rw [hnew]
      obtain ⟨-, hacquires⟩ := MappedRing.new_ok hresult
      rw [hnew] at hacquires
      cases hacquires
      simp only [MappedRing.drop_eq]
      refine Sound.scope m.mappings kernel.releases (pollMapped_leaves hbody) ?_
      exact (pollMapped_sound hbody (hcovers m hresult)).mono Finset.subset_union_right

/-- What a poll of this ring uses if it returns `Ok`. -/
def Consumption.uses (consumption : Consumption) (m : MappedRing) : List (Handle × Nat × Nat) :=
  consumption.actions.map fun a => (a.handle m, a.footprint m)

theorem Consumption.uses_run (consumption : Consumption) (m : MappedRing) :
    Resource.uses (consumption.run m).events = consumption.uses m := by
  simp [Consumption.run, Consumption.uses, Resource.uses, Event.use?, Function.comp_def]

theorem pollMapped_uses {t : Recorded Handle (Nat × Nat) (Outcome IoError Unit)}
    (hpoll : pollMapped kernel m mapFd = some t) (hok : t.result = .ok ()) :
    uses t.events = kernel.consumption.uses m := by
  unfold pollMapped at hpoll
  split at hpoll
  · cases hpoll
    cases hok
  · obtain ⟨body, hbody, rfl⟩ := Option.map_eq_some_iff.mp hpoll
    have hresult : body.result = .ok () := hok
    have hbodyUses : uses body.events = kernel.consumption.uses m := by
      unfold pollRegistered at hbody
      split at hbody
      · cases hbody
        cases hresult
      · obtain ⟨waited, -, rfl⟩ := Option.map_eq_some_iff.mp hbody
        split
        · exact kernel.consumption.uses_run m
        · next hnot =>
          exact absurd hresult (by simpa [Recorded.pure] using hnot)
    rw [uses_append, uses_append, uses_ops, hbodyUses, List.append_nil]
    rfl

/-- A poll that returns `Ok` has made every access of the consumption. -/
theorem pollRing_uses {t : Recorded Handle (Nat × Nat) (Outcome IoError Unit)}
    (hpoll : pollRing arch kernel mapFd ringSize pageSize = some t) (hok : t.result = .ok ()) :
    ∃ m, (MappedRing.new arch kernel mapFd ringSize pageSize).result = .ok m ∧
      uses t.events = kernel.consumption.uses m := by
  cases hnew : MappedRing.new arch kernel mapFd ringSize pageSize with
  | mk result ops =>
    rw [pollRing, hnew] at hpoll
    cases result with
    | err error =>
      cases hpoll
      cases hok
    | panicked =>
      cases hpoll
      cases hok
    | ok m =>
      obtain ⟨body, hbody, rfl⟩ := Option.map_eq_some_iff.mp hpoll
      refine ⟨m, rfl, ?_⟩
      rw [uses_append, uses_append, uses_ops, uses_ops, List.append_nil, List.nil_append]
      exact pollMapped_uses hbody hok

end Mapping

/-! ## Polling a ring that was created -/

/-- A poll of a ring that `createRingbuf` made reads and writes inside its two
    mappings only, and only while they are mapped, whatever the shared pages hold
    and even when `munmap` fails. If the consumer position that it finds is a
    multiple of eight, then so is the offset of every header that it reads. The
    kernel makes no ring smaller than a page. -/
theorem pollRingbuf_memorySafe (build : Build) (kernel : PollKernel)
    {mapCreate : MapCreateAttr → Except IoError RawFd} {sizeBytes : UInt32} {mapFd : RawFd}
    {info : MapInfo} {page : Nat} (hcreate : (createRingbuf mapCreate sizeBytes).result = .ok mapFd)
    (hinfo : kernel.objGetInfo mapFd = .ok info) (htype : info.mapType = BPF_MAP_TYPE_RINGBUF)
    (hsize : info.maxEntries = sizeBytes.toNat) (hpage : (pageSize build.arch kernel).1 = .ok page)
    (hword : 8 ≤ page) (hle : page ≤ sizeBytes.toNat) :
    ∃ consumer : RingbufConsumer build.arch, consumer.ringSize = sizeBytes.toNat ∧
      (kernel.consumption.Follows build consumer →
        ∀ poll, pollRingbuf build.arch kernel mapFd = some poll →
          (∀ live, Fresh live poll.ops → Guarded Handle.Covers live poll.events) ∧
          (poll.result = .ok () → ∃ m : MappedRing, m.mask = consumer.mask ∧
            uses poll.events = kernel.consumption.uses m) ∧
          ((∀ value, .loadConsumerPos value ∈ kernel.consumption.actions → value % 8 = 0) →
            ∀ offset rawLen, .loadHeader offset rawLen ∈ kernel.consumption.actions →
              offset % 8 = 0)) := by
  obtain ⟨consumer, hmask, hring⟩ := exists_consumer build.arch hcreate (Nat.le_trans hword hle)
  refine ⟨consumer, hring, ?_⟩
  intro hfollows poll hpoll
  obtain ⟨t, hrun⟩ := hfollows.run
  rw [pollRingbuf_eq_pollRing hinfo htype hpage] at hpoll
  obtain ⟨body, hbody, rfl⟩ := Option.map_eq_some_iff.mp hpoll
  refine ⟨?_, ?_, ?_⟩
  · intro live hfresh
    refine pollRing_sound hbody ?_ live (Finset.empty_subset live) hfresh
    intro m hm a ha
    have hbounded := run_bounded consumer hrun a ha
    rw [hring, ← hsize] at hbounded
    exact covers_of_bounded (MappedRing.new_ok hm).1 hword hbounded
  · intro hok
    obtain ⟨m, hm, huses⟩ := pollRing_uses hbody hok
    refine ⟨m, ?_, huses⟩
    rw [(MappedRing.new_ok hm).1.mask, hmask, hsize]
  · intro hload offset rawLen hmem
    exact run_aligned consumer hrun hload _ hmem

/-- A ring of one page that was created as descriptor 3, and a poll that finds both
    positions at the end of their counters and a busy record there. -/
def hostileKernel : PollKernel :=
  { pageKernel with
    consumption :=
      ⟨[.loadConsumerPos (2 ^ 64 - 8), .loadProducerPos (2 ^ 64 - 1),
        .loadHeader 4088 BPF_RINGBUF_BUSY_BIT, .storeConsumerPos (2 ^ 64 - 8)], .returned⟩ }

theorem hostileKernel_follows {consumer : RingbufConsumer .bits64} (hsize : consumer.ringSize = 4096) :
    hostileKernel.consumption.Follows ⟨.bits64, true⟩ consumer := by
  have hoffset : recordOffset ⟨.bits64, true⟩ consumer (2 ^ 64 - 8) = 4088 := by
    rw [recordOffset_eq, hsize]
    decide
  have hloaded : Lts.Run (Step ⟨.bits64, true⟩ consumer) Lts.Any .loadConsumerPos
      [.loadConsumerPos (2 ^ 64 - 8), .loadProducerPos (2 ^ 64 - 1)]
      (.loadHeader ⟨2 ^ 64 - 8, 2 ^ 64 - 1, false⟩) :=
    .snoc (.snoc .nil (.loadConsumerPos _) trivial) (.loadProducerPos _ _) trivial
  have hheader : Step ⟨.bits64, true⟩ consumer (.loadHeader ⟨2 ^ 64 - 8, 2 ^ 64 - 1, false⟩)
      (.loadHeader 4088 BPF_RINGBUF_BUSY_BIT) (.storeStopped (2 ^ 64 - 8) .busy) :=
    hoffset ▸ .loadHeader ⟨2 ^ 64 - 8, 2 ^ 64 - 1, false⟩ BPF_RINGBUF_BUSY_BIT
  exact .returned (.snoc (.snoc hloaded hheader trivial) (.storeStopped _ _) trivial)

theorem pollRingbuf_memorySafe_hostile :
    ∃ poll m, pollRingbuf .bits64 hostileKernel 3 = some poll ∧ poll.result = .ok () ∧
      Guarded Handle.Covers {.descriptor 3} poll.events ∧
      uses poll.events = hostileKernel.consumption.uses m ∧
      ∀ offset rawLen, .loadHeader offset rawLen ∈ hostileKernel.consumption.actions →
        offset % 8 = 0 := by
  obtain ⟨consumer, hsize, hsafe⟩ := pollRingbuf_memorySafe ⟨.bits64, true⟩ hostileKernel
    (show (createRingbuf (fun _ => .ok 3) 4096).result = .ok 3 by rfl) rfl rfl rfl rfl
    (by decide) (by decide)
  obtain ⟨hguarded, huses, haligned⟩ := hsafe (hostileKernel_follows hsize) _ rfl
  obtain ⟨m, -, hall⟩ := huses rfl
  refine ⟨_, m, rfl, rfl, hguarded _ (by decide), hall, haligned ?_⟩
  intro value hmem
  obtain rfl : value = 2 ^ 64 - 8 := by simpa [hostileKernel] using hmem
  decide

end Ebpfkit
