-- SUMMARY: A process that makes calls of the crate in any order: which descriptors and mappings it holds after each of them.
import Ebpfkit.Attach
import Ebpfkit.Loader.RingbufMapping

/-!
# Descriptors and mappings of a process

A process makes any sequence of the calls that open something, of both
`src/loader/ringbuf.rs` and `src/loader/prog.rs`, and of `src/lib.rs` above them,
and closes descriptors that it was given. Every call can fail at any system call,
`munmap` included. The ledger says, for each descriptor and each mapping, why it
is still there.
-/

namespace Ebpfkit

open Resource

/-! ## Calls -/

/-- A call, with what the system answers to it. `close` is the process's own. -/
inductive Call where
  | createRingbuf (mapCreate : MapCreateAttr → Except IoError RawFd) (sizeBytes : UInt32)
  | pollRingbuf (kernel : PollKernel) (mapFd : RawFd)
  | loadFilter (kernel : FilterKernel) (insns : List BpfInsn)
  | attachToSocket (kernel : FilterKernel) (progFd socketFd : RawFd)
  | attachKernelPageDiscard (call : AttachCall)
  | close (fd : RawFd)

/-- What a process holds, and the page size that `page_size` has stored. -/
structure Process where
  live : Finset Handle
  pageCache : Option Nat

/-- The kernel as a poll meets it when `cache` is stored. -/
def PollKernel.withCache (kernel : PollKernel) (cache : Option Nat) : PollKernel :=
  { kernel with cachedPageSize := cache }

def descriptorOp : Op RawFd → Op Handle
  | .acquire fd => .acquire (.descriptor fd)
  | .release fd => .release (.descriptor fd)

/-- What a call opens and releases. A poll that is never woken does not return. -/
def Call.ops (arch : Arch) (u : Usize) (cache : Option Nat) : Call → Option (List (Op Handle))
  | .createRingbuf mapCreate sizeBytes => some (Ebpfkit.createRingbuf mapCreate sizeBytes).ops
  | .pollRingbuf kernel mapFd =>
    (Ebpfkit.pollRingbuf arch (kernel.withCache cache) mapFd).map fun poll => poll.ops
  | .loadFilter kernel insns => some ((Ebpfkit.loadFilter kernel insns).ops.map descriptorOp)
  | .attachToSocket kernel progFd socketFd =>
    some ((Ebpfkit.attachToSocket kernel progFd socketFd).ops.map descriptorOp)
  | .attachKernelPageDiscard call => some ((call.run u).ops.map descriptorOp)
  | .close fd => some [.release (.descriptor fd)]

/-- The stored page size after a call. Only a poll looks at it. -/
def Call.cache (arch : Arch) (cache : Option Nat) : Call → Option Nat
  | .pollRingbuf kernel mapFd =>
    match Ebpfkit.pollRingbuf arch (kernel.withCache cache) mapFd with
    | some poll => poll.pageCache
    | none => cache
  | _ => cache

def cacheAfter (arch : Arch) (cache : Option Nat) (calls : List Call) : Option Nat :=
  calls.foldl (fun cache call => call.cache arch cache) cache

/-- A call that returns. There is a step only if all operations are legal. -/
def ProcessStep (arch : Arch) (u : Usize) (p : Process) (call : Call) (p' : Process) : Prop :=
  ∃ ops, call.ops arch u p.pageCache = some ops ∧ replay p.live ops = some p'.live ∧
    p'.pageCache = call.cache arch p.pageCache

/-! ## What a call leaves -/

/-- What a call leaves to the process: the descriptors it returns, the mappings
    that could not be unmapped, and the program of a page-discard filter, which
    nobody is told about. -/
inductive Call.Leaves (arch : Arch) (cache : Option Nat) : Call → Handle → Prop where
  | ring {mapCreate : MapCreateAttr → Except IoError RawFd} {sizeBytes : UInt32} {fd : RawFd}
      (hsize : isPowerOfTwo sizeBytes = true)
      (hcreated : mapCreate ⟨BPF_MAP_TYPE_RINGBUF, sizeBytes⟩ = .ok fd) :
      Leaves arch cache (.createRingbuf mapCreate sizeBytes) (.descriptor fd)
  | mapping {kernel : PollKernel} {mapFd : RawFd} {info : MapInfo} {size : Nat} {h : Handle}
      (hinfo : kernel.objGetInfo mapFd = .ok info) (htype : info.mapType = BPF_MAP_TYPE_RINGBUF)
      (hpage : (pageSize arch (kernel.withCache cache)).1 = .ok size)
      (hleaves : RingLeaves arch kernel mapFd info.maxEntries size h) :
      Leaves arch cache (.pollRingbuf kernel mapFd) h
  | program {kernel : FilterKernel} {insns : List BpfInsn} {fd : RawFd} (hne : insns ≠ [])
      (hlen : insns.length ≤ MAX_BPF_INSNS)
      (hopened : kernel.progLoad (progLoadAttr insns) = .opened fd) :
      Leaves arch cache (.loadFilter kernel insns) (.descriptor fd)
  | filter {call : AttachCall} {fd : RawFd} (hlen : call.pattern.length ≤ MAX_BPF_PATTERN_LEN)
      (hopened : call.kernel.progLoad (progLoadAttr (literalOf call.pattern)) = .opened fd) :
      Leaves arch cache (.attachKernelPageDiscard call) (.descriptor fd)

/-! ## Steps -/

section Steps

variable {arch : Arch} {u : Usize} {cache : Option Nat} {call : Call} {ops : List (Op Handle)}

/-- A call that opens the descriptors for which `P` holds leaves what it opens. -/
theorem leaves_descriptor {P : Handle → Prop} (hops : ops = [] ∧ (∀ h, ¬ P h) ∨
      ∃ fd, ops = [.acquire (.descriptor fd)] ∧ ∀ h, P h ↔ h = .descriptor fd) :
    ∃ left, Leaves ops left ∧ ∀ h, h ∈ left ↔ P h := by
  rcases hops with ⟨rfl, hnone⟩ | ⟨fd, rfl, hiff⟩
  · refine ⟨∅, .nil, ?_⟩
    intro h
    exact iff_of_false (Finset.notMem_empty h) (hnone h)
  · refine ⟨_, Leaves.nil.scope [Handle.descriptor fd] fun _ => false, ?_⟩
    intro h
    rw [hiff]
    simp

theorem createRingbuf_leaves (mapCreate : MapCreateAttr → Except IoError RawFd)
    (sizeBytes : UInt32) :
    ∃ left, Leaves (createRingbuf mapCreate sizeBytes).ops left ∧
      ∀ h, h ∈ left ↔ (Call.createRingbuf mapCreate sizeBytes).Leaves arch cache h := by
  apply leaves_descriptor
  have hzero : isPowerOfTwo 0 = false := by decide
  by_cases hsize : isPowerOfTwo sizeBytes = true
  · have hne : (sizeBytes == 0) = false := by
      rw [beq_eq_false_iff_ne]
      rintro rfl
      simp [hzero] at hsize
    cases hcreated : mapCreate ⟨BPF_MAP_TYPE_RINGBUF, sizeBytes⟩ with
    | error error =>
      refine .inl ⟨by simp [createRingbuf, hsize, hne, hcreated, Traced.pure], ?_⟩
      rintro h ⟨-, hfd⟩
      simp [hcreated] at hfd
    | ok fd =>
      refine .inr ⟨fd, by simp [createRingbuf, hsize, hne, hcreated], ?_⟩
      intro h
      constructor
      · rintro ⟨-, hfd⟩
        rw [hcreated] at hfd
        cases hfd
        rfl
      · rintro rfl
        exact .ring hsize hcreated
  · refine .inl ⟨by simp [createRingbuf, hsize, Traced.pure], ?_⟩
    rintro h ⟨hpower, -⟩
    exact hsize hpower

theorem loadFilter_leaves (kernel : FilterKernel) (insns : List BpfInsn) :
    ∃ left, Leaves ((loadFilter kernel insns).ops.map descriptorOp) left ∧
      ∀ h, h ∈ left ↔ (Call.loadFilter kernel insns).Leaves arch cache h := by
  apply leaves_descriptor
  by_cases hopens : insns ≠ [] ∧ insns.length ≤ MAX_BPF_INSNS ∧
      ∃ fd, kernel.progLoad (progLoadAttr insns) = .opened fd
  · obtain ⟨hne, hlen, fd, hopened⟩ := hopens
    refine .inr ⟨fd, ?_, ?_⟩
    · rw [loadFilter_eq_submitProgram hne hlen, submitProgram_opened hlen hopened]
      rfl
    · intro h
      constructor
      · intro hleaves
        cases hleaves with
        | program _ _ hfd =>
          rw [hopened] at hfd
          cases hfd
          rfl
      · rintro rfl
        exact .program hne hlen hopened
  · refine .inl ⟨?_, ?_⟩
    · by_cases hne : insns = []
      · subst hne
        rfl
      · by_cases hlen : insns.length ≤ MAX_BPF_INSNS
        · have hreply : ∀ fd, kernel.progLoad (progLoadAttr insns) ≠ .opened fd := by
            intro fd hopened
            exact hopens ⟨hne, hlen, fd, hopened⟩
          obtain ⟨error, hrefused⟩ := submitProgram_refused hreply
          rw [loadFilter_eq_submitProgram hne hlen, hrefused]
          rfl
        · rw [loadFilter, if_neg (by simpa using hne), if_pos (Nat.lt_of_not_le hlen)]
          rfl
    · intro h hleaves
      cases hleaves with
      | program hne hlen hopened => exact hopens ⟨hne, hlen, _, hopened⟩

theorem attachKernelPageDiscard_leaves (call : AttachCall) :
    ∃ left, Leaves ((call.run u).ops.map descriptorOp) left ∧
      ∀ h, h ∈ left ↔ (Call.attachKernelPageDiscard call).Leaves arch cache h := by
  apply leaves_descriptor
  by_cases hloads : call.LoadSucceeds
  · obtain ⟨hlen, fd, hopened⟩ := hloads
    refine .inr ⟨fd, ?_, ?_⟩
    · rw [run_loaded hlen hopened]
      rfl
    · intro h
      constructor
      · intro hleaves
        cases hleaves with
        | filter _ hfd =>
          rw [hopened] at hfd
          cases hfd
          rfl
      · rintro rfl
        exact .filter hlen hopened
  · refine .inl ⟨by rw [run_not_loaded hloads]; rfl, ?_⟩
    intro h hleaves
    cases hleaves with
    | filter hlen hopened => exact hloads ⟨hlen, _, hopened⟩

theorem ringLeaves_withCache {kernel : PollKernel} {mapFd : RawFd} {ringSize pageSize : Nat}
    {h : Handle} : RingLeaves arch (kernel.withCache cache) mapFd ringSize pageSize h ↔
      RingLeaves arch kernel mapFd ringSize pageSize h := by
  constructor
  · rintro (⟨hconsumer, hkept⟩ | ⟨hconsumer, hfits, hproducer, hkept⟩)
    · exact .consumerPage hconsumer hkept
    · exact .producerPages hconsumer hfits hproducer hkept
  · rintro (⟨hconsumer, hkept⟩ | ⟨hconsumer, hfits, hproducer, hkept⟩)
    · exact .consumerPage hconsumer hkept
    · exact .producerPages hconsumer hfits hproducer hkept

/-- A poll leaves something only once it has passed its checks. -/
theorem call_leaves_pollRingbuf {kernel : PollKernel} {mapFd : RawFd} {h : Handle} :
    (Call.pollRingbuf kernel mapFd).Leaves arch cache h ↔
      ∃ info size, kernel.objGetInfo mapFd = .ok info ∧ info.mapType = BPF_MAP_TYPE_RINGBUF ∧
        (pageSize arch (kernel.withCache cache)).1 = .ok size ∧
        RingLeaves arch kernel mapFd info.maxEntries size h := by
  constructor
  · intro hleaves
    cases hleaves with
    | mapping hinfo htype hpage hring => exact ⟨_, _, hinfo, htype, hpage, hring⟩
  · rintro ⟨info, size, hinfo, htype, hpage, hring⟩
    exact .mapping hinfo htype hpage hring

theorem pollRingbuf_leaves {kernel : PollKernel} {mapFd : RawFd} {poll : Poll}
    (hpoll : pollRingbuf arch (kernel.withCache cache) mapFd = some poll) :
    ∃ left, Leaves poll.ops left ∧
      ∀ h, h ∈ left ↔ (Call.pollRingbuf kernel mapFd).Leaves arch cache h := by
  simp only [call_leaves_pollRingbuf]
  rcases pollRingbuf_cases arch (kernel.withCache cache) mapFd with
    ⟨⟨result, cache', hearly⟩, hchecks⟩ | ⟨info, size, hinfo, htype, hpage⟩
  · rw [hpoll] at hearly
    cases hearly
    refine ⟨∅, .nil, ?_⟩
    intro h
    refine iff_of_false (Finset.notMem_empty h) ?_
    rintro ⟨info, size, hinfo, htype, hpage, -⟩
    exact hchecks info size hinfo htype hpage
  · rw [pollRingbuf_eq_pollRing hinfo htype hpage] at hpoll
    obtain ⟨body, hbody, rfl⟩ := Option.map_eq_some_iff.mp hpoll
    obtain ⟨left, hleaves, hiff⟩ := pollRing_leaves hbody
    refine ⟨left, hleaves, ?_⟩
    intro h
    rw [hiff, ringLeaves_withCache]
    constructor
    · exact fun hring => ⟨info, size, hinfo, htype, hpage, hring⟩
    · rintro ⟨info', size', hinfo', -, hpage', hring⟩
      rw [show kernel.objGetInfo mapFd = .ok info from hinfo] at hinfo'
      rw [hpage] at hpage'
      cases hinfo'
      cases hpage'
      exact hring

/-- Every call but `close` only adds what it leaves. -/
theorem leaves_ops (hops : call.ops arch u cache = some ops)
    (hclose : ∀ fd, call ≠ .close fd) :
    ∃ left, Leaves ops left ∧ ∀ h, h ∈ left ↔ call.Leaves arch cache h := by
  cases call with
  | createRingbuf mapCreate sizeBytes =>
    cases hops
    exact createRingbuf_leaves mapCreate sizeBytes
  | pollRingbuf kernel mapFd =>
    obtain ⟨t, hpoll, rfl⟩ := Option.map_eq_some_iff.mp hops
    exact pollRingbuf_leaves hpoll
  | loadFilter kernel insns =>
    cases hops
    exact loadFilter_leaves kernel insns
  | attachToSocket kernel progFd socketFd =>
    cases hops
    rw [attachToSocket_ops]
    refine ⟨∅, .nil, ?_⟩
    intro h
    refine iff_of_false (Finset.notMem_empty h) ?_
    intro hleaves
    cases hleaves
  | attachKernelPageDiscard call =>
    cases hops
    exact attachKernelPageDiscard_leaves call
  | close fd => exact absurd rfl (hclose fd)

/-- The process closes this handle by the call. -/
def Call.Closes (call : Call) (h : Handle) : Prop := ∃ fd, call = .close fd ∧ h = .descriptor fd

/-- One step of the ledger. -/
theorem processStep_live {p p' : Process} (hstep : ProcessStep arch u p call p') (h : Handle) :
    h ∈ p'.live ↔ (h ∈ p.live ∧ ¬ call.Closes h) ∨ call.Leaves arch p.pageCache h := by
  obtain ⟨ops, hops, hreplay, -⟩ := hstep
  by_cases hclose : ∃ fd, call = .close fd
  · obtain ⟨fd, rfl⟩ := hclose
    cases hops
    have hmem : Handle.descriptor fd ∈ p.live := by
      by_contra hmem
      simp [replay, Op.apply, hmem] at hreplay
    rw [replay_release hmem] at hreplay
    have hnone : ¬ (Call.close fd).Leaves arch p.pageCache h := by
      intro hleaves
      cases hleaves
    rw [← Option.some.inj hreplay, Finset.mem_erase]
    simp only [Call.Closes, Call.close.injEq, exists_eq_left', hnone, or_false]
    exact and_comm
  · obtain ⟨left, hleaves, hiff⟩ := leaves_ops hops fun fd heq => hclose ⟨fd, heq⟩
    have hnot : ¬ call.Closes h := by
      rintro ⟨fd, heq, -⟩
      exact hclose ⟨fd, heq⟩
    rw [hleaves.mem_replay hreplay, hiff]
    simp [hnot]

/-- A call of the crate is legal wherever the kernel hands out nothing that is
    live: it releases only what it acquired itself. -/
theorem exists_processStep {p : Process} (hops : call.ops arch u p.pageCache = some ops)
    (hfresh : Fresh p.live ops) (hclose : ∀ fd, call = .close fd → .descriptor fd ∈ p.live) :
    ∃ p', ProcessStep arch u p call p' := by
  by_cases h : ∃ fd, call = .close fd
  · obtain ⟨fd, rfl⟩ := h
    cases hops
    refine ⟨⟨p.live.erase (.descriptor fd), _⟩, _, rfl, ?_, rfl⟩
    rw [replay_release (hclose fd rfl)]
    rfl
  · obtain ⟨left, hleaves, -⟩ := leaves_ops hops fun fd heq => h ⟨fd, heq⟩
    exact ⟨⟨p.live ∪ left, _⟩, ops, hops, (hleaves p.live hfresh).2, rfl⟩

/-- A poll keeps the page size that it finds stored. -/
theorem pollRingbuf_pageCache {kernel : PollKernel} {mapFd : RawFd} {size : Nat} {poll : Poll}
    (hcached : kernel.cachedPageSize = some size)
    (hpoll : pollRingbuf arch kernel mapFd = some poll) : poll.pageCache = some size := by
  have hpage : pageSize arch kernel = (.ok size, some size) := by rw [pageSize, hcached]
  unfold pollRingbuf at hpoll
  split at hpoll
  · cases hpoll
    exact hcached
  · split at hpoll
    · cases hpoll
      exact hcached
    · rw [hpage] at hpoll
      simp only at hpoll
      split at hpoll
      · cases hpoll
        rfl
      · obtain ⟨body, -, rfl⟩ := Option.map_eq_some_iff.mp hpoll
        rfl

theorem Call.cache_some {size : Nat} (call : Call) : call.cache arch (some size) = some size := by
  unfold Call.cache
  split
  · split
    · next hpoll => exact pollRingbuf_pageCache rfl hpoll
    · rfl
  · rfl

end Steps

/-! ## Runs -/

section Runs

variable {arch : Arch} {u : Usize} {p p' : Process} {calls : List Call}

/-- Why a handle is live: it was at the start, or some call left it, and since
    then the process has not closed it. -/
def Held (arch : Arch) (p : Process) (calls : List Call) (h : Handle) : Prop :=
  Lts.Since (h ∈ p.live)
    (fun earlier call => call.Leaves arch (cacheAfter arch p.pageCache earlier) h)
    (fun call => ¬ call.Closes h) calls

theorem run_pageCache (hrun : Lts.Run (ProcessStep arch u) Lts.Any p calls p') :
    p'.pageCache = cacheAfter arch p.pageCache calls := by
  induction hrun with
  | nil => rfl
  | snoc _ hstep _ ih =>
    obtain ⟨ops, -, -, hnext⟩ := hstep
    rw [hnext, ih, cacheAfter, cacheAfter, List.foldl_append]
    rfl

theorem run_held (hrun : Lts.Run (ProcessStep arch u) Lts.Any p calls p') (h : Handle) :
    h ∈ p'.live ↔ Held arch p calls h := by
  apply Lts.Run.since (fun p => h ∈ p.live) _ hrun
  intro earlier p₁ call p₂ hearlier hstep
  rw [processStep_live hstep h, run_pageCache hearlier]
  exact or_comm

theorem cacheAfter_some {size : Nat} (calls : List Call) :
    cacheAfter arch (some size) calls = some size := by
  induction calls with
  | nil => rfl
  | cons call calls ih =>
    rw [cacheAfter, List.foldl_cons, Call.cache_some]
    exact ih

/-- After any sequence of calls a handle is live exactly if the ledger says so: no
    call releases what it did not acquire, and what is left is what a call returned,
    failed to unmap or loaded. A page size that was stored stays, and no call is ever
    illegal. -/
theorem process_ledger (hrun : Lts.Run (ProcessStep arch u) Lts.Any p calls p') :
    (∀ h, h ∈ p'.live ↔ Held arch p calls h) ∧
    (∀ size, p.pageCache = some size → p'.pageCache = some size) ∧
    ∀ call ops, call.ops arch u p'.pageCache = some ops → Fresh p'.live ops →
      (∀ fd, call = .close fd → .descriptor fd ∈ p'.live) → ∃ next, ProcessStep arch u p' call next := by
  refine ⟨run_held hrun, ?_, ?_⟩
  · intro size hsize
    rw [run_pageCache hrun, hsize]
    exact cacheAfter_some calls
  · intro call ops hops hfresh hclose
    exact exists_processStep hops hfresh hclose

end Runs

/-- A system that cannot unmap the producer pages. -/
def stickyKernel : PollKernel :=
  { pageKernel with
    munmap := fun addr _ => if addr = 0x11000 then some ⟨.other, "Cannot allocate memory"⟩ else none }

/-- A ring is created as descriptor 3, polled and closed: its producer pages stay. -/
theorem process_ledger_sticky :
    Lts.Run (ProcessStep .bits64 (.wrapping .bits64)) Lts.Any ⟨∅, none⟩
      [.createRingbuf (fun _ => .ok 3) 4096, .pollRingbuf stickyKernel 3, .close 3]
      ⟨{.mapping 0x11000 12288}, some 4096⟩ ∧
    ∀ h, Held .bits64 ⟨∅, none⟩
      [.createRingbuf (fun _ => .ok 3) 4096, .pollRingbuf stickyKernel 3, .close 3] h ↔
      h = .mapping 0x11000 12288 := by
  have hcreate : ProcessStep .bits64 (.wrapping .bits64) ⟨∅, none⟩
      (.createRingbuf (fun _ => .ok 3) 4096) ⟨{.descriptor 3}, none⟩ :=
    ⟨_, rfl, by decide, rfl⟩
  have hpoll : ProcessStep .bits64 (.wrapping .bits64) ⟨{.descriptor 3}, none⟩
      (.pollRingbuf stickyKernel 3) ⟨{.mapping 0x11000 12288, .descriptor 3}, some 4096⟩ :=
    ⟨[.acquire (.mapping 0x10000 4096), .acquire (.mapping 0x11000 12288),
      .acquire (.descriptor 7), .release (.descriptor 7), .release (.mapping 0x10000 4096)],
      by decide, by decide, rfl⟩
  have hclose : ProcessStep .bits64 (.wrapping .bits64)
      ⟨{.mapping 0x11000 12288, .descriptor 3}, some 4096⟩ (.close 3)
      ⟨{.mapping 0x11000 12288}, some 4096⟩ :=
    ⟨_, rfl, by decide, rfl⟩
  have hrun : Lts.Run (ProcessStep .bits64 (.wrapping .bits64)) Lts.Any ⟨∅, none⟩
      [.createRingbuf (fun _ => .ok 3) 4096, .pollRingbuf stickyKernel 3, .close 3]
      ⟨{.mapping 0x11000 12288}, some 4096⟩ :=
    .snoc (.snoc (.snoc .nil hcreate trivial) hpoll trivial) hclose trivial
  refine ⟨hrun, ?_⟩
  intro h
  rw [← (process_ledger hrun).1 h, Finset.mem_singleton]

end Ebpfkit
