-- SUMMARY: Compiling, loading and attaching in one call, and the descriptors that are open after any sequence of calls.
import Ebpfkit.Compiler.Layout
import Ebpfkit.Loader.Prog
import Ebpfkit.Lts

/-!
# Page-discard filters

`attach_kernel_page_discard` of `src/lib.rs`. The descriptor of the loaded
program is a plain integer: the call hands it to `setsockopt`, does not return
it, and never closes it.
-/

namespace Ebpfkit

open Resource

inductive AttachError where
  | compile (error : CompileError)
  | io (error : IoError)
  deriving DecidableEq, Repr

def attachKernelPageDiscard (u : Usize) (kernel : FilterKernel) (pattern : List UInt8)
    (targetSocket : RawFd) : Traced RawFd (Outcome AttachError Unit) :=
  tryThen (.pure (compileLiteralSearch u pattern)) .compile fun insns =>
    tryThen (loadFilter kernel insns) .io fun filterFd =>
      tryThen (attachToSocket kernel filterFd targetSocket) .io fun _ =>
        .pure (.ok ())

/-! ## One call -/

/-- The arguments of a call, and the kernel it meets. -/
structure AttachCall where
  kernel : FilterKernel
  pattern : List UInt8
  targetSocket : RawFd

def AttachCall.run (u : Usize) (call : AttachCall) : Traced RawFd (Outcome AttachError Unit) :=
  attachKernelPageDiscard u call.kernel call.pattern call.targetSocket

/-- The pattern is short enough to compile, and the kernel accepts its program. -/
def AttachCall.LoadSucceeds (call : AttachCall) : Prop :=
  call.pattern.length ≤ MAX_BPF_PATTERN_LEN ∧
    ∃ fd, call.kernel.progLoad (progLoadAttr (literalOf call.pattern)) = .opened fd

section Call

variable {u : Usize} {call : AttachCall}

theorem attachToSocket_ops (kernel : FilterKernel) (progFd socketFd : RawFd) :
    (attachToSocket kernel progFd socketFd).ops = [] := by
  unfold attachToSocket
  split
  · rfl
  · rfl

theorem length_literalOf_le_max {pattern : List UInt8} (h : pattern.length ≤ MAX_BPF_PATTERN_LEN) :
    (literalOf pattern).length ≤ MAX_BPF_INSNS := by
  have hlen := length_literalOf_le pattern
  unfold MAX_BPF_PATTERN_LEN at h
  unfold MAX_BPF_INSNS
  omega

theorem literalOf_ne_nil (pattern : List UInt8) : literalOf pattern ≠ [] := by
  unfold literalOf
  split
  · exact List.cons_ne_nil _ _
  · exact List.cons_ne_nil _ _

/-- The program of a pattern that compiles passes the gates of the loader. -/
theorem loadFilter_literalOf {kernel : FilterKernel} {pattern : List UInt8}
    (h : pattern.length ≤ MAX_BPF_PATTERN_LEN) :
    loadFilter kernel (literalOf pattern) = submitProgram kernel (literalOf pattern) :=
  loadFilter_eq_submitProgram (literalOf_ne_nil pattern) (length_literalOf_le_max h)

/-- A call whose load succeeds opens a descriptor. -/
theorem run_loaded {fd : RawFd} (hlen : call.pattern.length ≤ MAX_BPF_PATTERN_LEN)
    (hreply : call.kernel.progLoad (progLoadAttr (literalOf call.pattern)) = .opened fd) :
    (call.run u).ops = [.acquire fd] := by
  have hload : loadFilter call.kernel (literalOf call.pattern) = ⟨.ok fd, [.acquire fd]⟩ := by
    rw [loadFilter_literalOf hlen]
    exact submitProgram_opened (length_literalOf_le_max hlen) hreply
  simp only [AttachCall.run, attachKernelPageDiscard, compileLiteralSearch_of_le hlen, tryThen,
    Traced.bind, Traced.pure, hload, attachToSocket_ops]
  split
  · rfl
  · rfl
  · rfl

/-- A call that fails to compile or to load touches no descriptor. -/
theorem run_not_loaded (h : ¬ call.LoadSucceeds) : (call.run u).ops = [] := by
  by_cases hlen : call.pattern.length ≤ MAX_BPF_PATTERN_LEN
  · have hreply : ∀ fd, call.kernel.progLoad (progLoadAttr (literalOf call.pattern)) ≠ .opened fd :=
      fun fd hopened => h ⟨hlen, fd, hopened⟩
    obtain ⟨error, hrefused⟩ := submitProgram_refused hreply
    simp only [AttachCall.run, attachKernelPageDiscard, compileLiteralSearch_of_le hlen, tryThen,
      Traced.bind, Traced.pure, loadFilter_literalOf hlen, hrefused, List.append_nil]
  · cases hcompile : compileLiteralSearch u call.pattern with
    | ok prog => exact absurd (compileLiteralSearch_eq_ok hcompile).1 hlen
    | err error =>
      simp [AttachCall.run, attachKernelPageDiscard, hcompile, tryThen, Traced.bind, Traced.pure]
    | panicked =>
      simp [AttachCall.run, attachKernelPageDiscard, hcompile, tryThen, Traced.bind, Traced.pure]

end Call

/-! ## Sequences of calls -/

/-- A call takes the descriptors that are open before it to those open after it.
    There is such a step only if the kernel opens a descriptor that is not open. -/
def CallStep (u : Usize) (before : Finset RawFd) (call : AttachCall) (after : Finset RawFd) : Prop :=
  replay before (call.run u).ops = some after

section Calls

variable {u : Usize} {before after : Finset RawFd} {calls : List AttachCall}

/-- A call keeps the open descriptors or, if its load succeeds, adds one. -/
theorem callStep_cases {call : AttachCall} (h : CallStep u before call after) :
    (call.LoadSucceeds ∧ ∃ fd, fd ∉ before ∧ after = insert fd before) ∨
    (¬ call.LoadSucceeds ∧ after = before) := by
  unfold CallStep at h
  by_cases hloads : call.LoadSucceeds
  · obtain ⟨hlen, fd, hreply⟩ := hloads
    rw [run_loaded hlen hreply] at h
    have hfresh : fd ∉ before := by
      intro hmem
      simp [replay, Op.apply, hmem] at h
    rw [replay_acquire hfresh] at h
    exact .inl ⟨⟨hlen, fd, hreply⟩, fd, hfresh, (Option.some.inj h).symm⟩
  · rw [run_not_loaded hloads] at h
    exact .inr ⟨hloads, (Option.some.inj h).symm⟩

/-- The descriptors that are open after a run: none is ever closed, and they are
    those from before exactly if no load has succeeded. -/
def DescriptorsKept (before : Finset RawFd) (calls : List AttachCall) (after : Finset RawFd) : Prop :=
  before ⊆ after ∧ (after = before ↔ ∀ call ∈ calls, ¬ call.LoadSucceeds)

theorem descriptorsKept_step {call : AttachCall} {next : Finset RawFd}
    (hinv : DescriptorsKept before calls after) (hstep : CallStep u after call next) :
    DescriptorsKept before (calls ++ [call]) next := by
  obtain ⟨hsubset, hiff⟩ := hinv
  rcases callStep_cases hstep with ⟨hloads, fd, hfresh, rfl⟩ | ⟨hloads, rfl⟩
  · refine ⟨hsubset.trans (Finset.subset_insert fd after), ?_⟩
    -- The new descriptor was not open before the run either.
    have hnew : insert fd after ≠ before := by
      intro heq
      exact hfresh (hsubset (heq ▸ Finset.mem_insert_self fd after))
    simp only [hnew, List.mem_append, List.mem_singleton, false_iff]
    intro hall
    exact hall call (.inr rfl) hloads
  · refine ⟨hsubset, hiff.trans ?_⟩
    simp [or_imp, forall_and, hloads]

/-- After any sequence of calls, the open descriptors are those from before it if
    and only if no call of the sequence loaded a program. -/
theorem attachKernelPageDiscard_descriptors
    (hrun : Lts.Run (CallStep u) Lts.Any before calls after) :
    after = before ↔ ∀ call ∈ calls, ¬ call.LoadSucceeds := by
  have hinit : DescriptorsKept before [] before := ⟨Finset.Subset.refl before, by simp⟩
  have hkept : DescriptorsKept before calls after :=
    Lts.Run.invariant (DescriptorsKept before) hinit
      (fun _ _ _ _ hinv hstep _ => descriptorsKept_step hinv hstep) hrun
  exact hkept.2

end Calls

/-- A call whose program the kernel refuses. -/
def refusedCall : AttachCall where
  kernel := ⟨fun _ => .refused ⟨.other, "Operation not permitted"⟩ "", fun _ _ _ => none⟩
  pattern := [0x61]
  targetSocket := 5

theorem attachKernelPageDiscard_descriptors_refused :
    Lts.Run (CallStep (.wrapping .bits64)) Lts.Any {5} [refusedCall] {5} ∧
      ∀ call ∈ [refusedCall], ¬ call.LoadSucceeds := by
  have hnot : ¬ refusedCall.LoadSucceeds := by
    rintro ⟨-, fd, hopened⟩
    cases hopened
  have hstep : CallStep (.wrapping .bits64) {5} refusedCall {5} := by
    rw [CallStep, run_not_loaded hnot]
    rfl
  have hrun : Lts.Run (CallStep (.wrapping .bits64)) Lts.Any {5} [refusedCall] {5} :=
    .snoc .nil hstep trivial
  exact ⟨hrun, (attachKernelPageDiscard_descriptors hrun).mp rfl⟩

/-- The kernel loads the program as descriptor `fd` and answers to `setsockopt`
    as given. -/
def loadedCall (fd : RawFd) (attached : Option IoError) : AttachCall where
  kernel := ⟨fun _ => .opened fd, fun _ _ _ => attached⟩
  pattern := [0x61]
  targetSocket := 5

/-- One call that fails to attach, one that succeeds, and two descriptors left
    open that nobody can close. -/
theorem attachKernelPageDiscard_leaks :
    ((loadedCall 3 (some ⟨.invalidInput, "Invalid argument"⟩)).run (.wrapping .bits64)).result =
      .err (.io ⟨.invalidInput, "Invalid argument"⟩) ∧
    ((loadedCall 4 none).run (.wrapping .bits64)).result = .ok () ∧
    Lts.Run (CallStep (.wrapping .bits64)) Lts.Any {5}
      [loadedCall 3 (some ⟨.invalidInput, "Invalid argument"⟩), loadedCall 4 none] {3, 4, 5} ∧
    ({3, 4, 5} : Finset RawFd) ≠ {5} := by
  have hfirst : CallStep (.wrapping .bits64) {5}
      (loadedCall 3 (some ⟨.invalidInput, "Invalid argument"⟩)) {3, 5} := by
    rw [CallStep, run_loaded (by decide) rfl, replay_acquire (by decide)]
    rfl
  have hsecond : CallStep (.wrapping .bits64) {3, 5} (loadedCall 4 none) {3, 4, 5} := by
    rw [CallStep, run_loaded (by decide) rfl]
    decide
  refine ⟨by decide, by decide, .snoc (.snoc .nil hfirst trivial) hsecond trivial, by decide⟩

end Ebpfkit
