-- SUMMARY: How attaching a page-discard filter ends, and which filter a socket has after calls of several threads.
import Ebpfkit.Compiler.Limits
import Ebpfkit.Compiler.LiteralSearch
import Ebpfkit.Attach
import Ebpfkit.Interaction

/-!
# Filters of sockets

What the calls of `src/loader/prog.rs` and `src/lib.rs` are for: a socket runs the
program that was attached to it last. Between the load and the attach of
`attach_kernel_page_discard` other threads run, so a call is seen here as the
system calls it makes. The kernel keeps what each descriptor of the process refers
to, and the filter of each socket. Several descriptors may refer to one socket, and
a socket keeps its filter when descriptors are closed.
-/

namespace Ebpfkit

open Bpf Resource

/-! ## How a call ends -/

/-- What an error shows of the verifier's log: the text between the zero bytes of
    the buffer, without blanks around it. -/
def ShowsLog (log shown : String) : Prop :=
  ∃ inner text : String, Trims (· == '\x00') log.toList inner.toList ∧
    Trims isWhitespace inner.toList text.toList ∧
    shown = if text.isEmpty then "(empty)" else text

/-- The stage at which a call ends. -/
inductive AttachEnds (u : Usize) (call : AttachCall) : Outcome AttachError Unit → Prop where
  | notCompiled {error : CompileError} (hlong : MAX_BPF_PATTERN_LEN < call.pattern.length)
      (herror : compileLiteralSearch u call.pattern = .err error) :
      AttachEnds u call (.err (.compile error))
  | notLoaded {error : IoError} {log shown : String}
      (hlen : call.pattern.length ≤ MAX_BPF_PATTERN_LEN)
      (hrefused : call.kernel.progLoad (progLoadAttr (literalOf call.pattern)) = .refused error log)
      (hshown : ShowsLog log shown) :
      AttachEnds u call
        (.err (.io ⟨error.kind, error.message ++ " -- BPF verifier log: " ++ shown⟩))
  | notAttached {fd : RawFd} {error : IoError}
      (hlen : call.pattern.length ≤ MAX_BPF_PATTERN_LEN)
      (hopened : call.kernel.progLoad (progLoadAttr (literalOf call.pattern)) = .opened fd)
      (hfailed : call.kernel.setsockopt call.targetSocket SO_ATTACH_BPF fd = some error) :
      AttachEnds u call (.err (.io error))
  | attached {fd : RawFd} (hlen : call.pattern.length ≤ MAX_BPF_PATTERN_LEN)
      (hopened : call.kernel.progLoad (progLoadAttr (literalOf call.pattern)) = .opened fd)
      (hset : call.kernel.setsockopt call.targetSocket SO_ATTACH_BPF fd = none) :
      AttachEnds u call (.ok ())

theorem showsLog_iff {log shown : String} :
    ShowsLog log shown ↔
      shown = (let text := trimMatches isWhitespace (trimMatches (· == '\x00') log)
        if text.isEmpty then "(empty)" else text) := by
  have htrims : ∀ (p : Char → Bool) (s text : String),
      Trims p s.toList text.toList ↔ text = trimMatches p s := by
    intro p s text
    rw [trims_iff, String.toList_inj]
  unfold ShowsLog
  simp only [htrims, exists_and_left, exists_eq_left]

section Ends

variable {u : Usize} {call : AttachCall}

/-- A refusal of a program that has passed the gates. -/
theorem submitProgram_refused_eq {kernel : FilterKernel} {insns : List BpfInsn} {error : IoError}
    {log shown : String} (hlen : insns.length ≤ MAX_BPF_INSNS)
    (hreply : kernel.progLoad (progLoadAttr insns) = .refused error log)
    (hshown : ShowsLog log shown) :
    submitProgram kernel insns =
      .pure (.err ⟨error.kind, error.message ++ " -- BPF verifier log: " ++ shown⟩) := by
  unfold MAX_BPF_INSNS at hlen
  rw [submitProgram, if_neg (by omega), hreply, showsLog_iff.mp hshown]
  rfl

/-- A call ends at the stage where it meets the first refusal. -/
theorem AttachEnds.result_eq {r : Outcome AttachError Unit} (h : AttachEnds u call r) :
    (call.run u).result = r := by
  cases h with
  | notCompiled hlong herror =>
    simp [AttachCall.run, attachKernelPageDiscard, herror, tryThen, Traced.bind, Traced.pure]
  | notLoaded hlen hrefused hshown =>
    simp only [AttachCall.run, attachKernelPageDiscard, compileLiteralSearch_of_le hlen, tryThen,
      Traced.bind, Traced.pure, loadFilter_literalOf hlen,
      submitProgram_refused_eq (length_literalOf_le_max hlen) hrefused hshown]
  | notAttached hlen hopened hfailed =>
    simp only [AttachCall.run, attachKernelPageDiscard, compileLiteralSearch_of_le hlen, tryThen,
      Traced.bind, Traced.pure, loadFilter_literalOf hlen,
      submitProgram_opened (length_literalOf_le_max hlen) hopened, attachToSocket, hfailed]
  | attached hlen hopened hset =>
    simp only [AttachCall.run, attachKernelPageDiscard, compileLiteralSearch_of_le hlen, tryThen,
      Traced.bind, Traced.pure, loadFilter_literalOf hlen,
      submitProgram_opened (length_literalOf_le_max hlen) hopened, attachToSocket, hset]

/-- Every call ends at one of the stages. -/
theorem exists_attachEnds (u : Usize) (call : AttachCall) : ∃ r, AttachEnds u call r := by
  by_cases hlen : call.pattern.length ≤ MAX_BPF_PATTERN_LEN
  · cases hreply : call.kernel.progLoad (progLoadAttr (literalOf call.pattern)) with
    | refused error log => exact ⟨_, .notLoaded hlen hreply (showsLog_iff.mpr rfl)⟩
    | opened fd =>
      cases hset : call.kernel.setsockopt call.targetSocket SO_ATTACH_BPF fd with
      | none => exact ⟨_, .attached hlen hreply hset⟩
      | some error => exact ⟨_, .notAttached hlen hreply hset⟩
  · have hlong := Nat.lt_of_not_le hlen
    have hcompile := compileLiteralSearch_tooLong (u := u) hlong
    split at hcompile
    · exact ⟨_, .notCompiled hlong hcompile⟩
    · exact ⟨_, .notCompiled hlong hcompile⟩

theorem result_eq_iff {r : Outcome AttachError Unit} :
    (call.run u).result = r ↔ AttachEnds u call r := by
  constructor
  · rintro rfl
    obtain ⟨r, hends⟩ := exists_attachEnds u call
    rw [hends.result_eq]
    exact hends
  · exact AttachEnds.result_eq

end Ends

/-- A call returns exactly what its stages say: too long a pattern is reported by
    the compiler, the gates of the loader never fire, a refused program is reported
    with what the verifier wrote, and the call succeeds only if the socket took the
    program. -/
theorem attachKernelPageDiscard_ends (u : Usize) (kernel : FilterKernel) (pattern : List UInt8)
    (targetSocket : RawFd) (r : Outcome AttachError Unit) :
    (attachKernelPageDiscard u kernel pattern targetSocket).result = r ↔
      AttachEnds u ⟨kernel, pattern, targetSocket⟩ r :=
  @result_eq_iff u ⟨kernel, pattern, targetSocket⟩ r

/-! ## Calls as programs -/

/-- The system calls. `setsockopt` takes the socket, the option and its value. -/
inductive Syscall where
  | progLoad (attr : ProgLoadAttr)
  | setsockopt (socketFd : RawFd) (option : Nat) (value : RawFd)

@[reducible] def Syscall.Answer : Syscall → Type
  | .progLoad _ => ProgLoadReply
  | .setsockopt _ _ _ => Option IoError

def FilterKernel.answer (kernel : FilterKernel) : (c : Syscall) → c.Answer
  | .progLoad attr => kernel.progLoad attr
  | .setsockopt socketFd option value => kernel.setsockopt socketFd option value

/-- A call that returns a `ρ`, as the system calls it makes. -/
abbrev Caller (ρ : Type) := Interaction Syscall Syscall.Answer ρ

/-- The `?` operator between the parts of a call. -/
def Caller.tryThen {ε ε' α β : Type} (t : Caller (Outcome ε α)) (convert : ε → ε')
    (k : α → Caller (Outcome ε' β)) : Caller (Outcome ε' β) :=
  t.bind fun
    | .ok a => k a
    | .err e => .ret (.err (convert e))
    | .panicked => .ret .panicked

def ProgLoadReply.result : ProgLoadReply → Outcome IoError RawFd
  | .opened fd => .ok fd
  | .refused error log => .err (verifierError error log)

def setsockoptResult : Option IoError → Outcome IoError Unit
  | some error => .err error
  | none => .ok ()

def loadFilterCalls (insns : List BpfInsn) : Caller (Outcome IoError RawFd) :=
  if insns.isEmpty then
    .ret (.err emptyProgramError)
  else if insns.length > MAX_BPF_INSNS then
    .ret (.err (programTooLongError insns.length))
  else if insns.length ≥ 2 ^ 32 then
    .ret (.err instructionCountError)
  else
    .call (.progLoad (progLoadAttr insns)) fun reply => .ret reply.result

def attachToSocketCalls (progFd socketFd : RawFd) : Caller (Outcome IoError Unit) :=
  .call (.setsockopt socketFd SO_ATTACH_BPF progFd) fun answer => .ret (setsockoptResult answer)

def attachKernelPageDiscardCalls (u : Usize) (pattern : List UInt8) (targetSocket : RawFd) :
    Caller (Outcome AttachError Unit) :=
  Caller.tryThen (.ret (compileLiteralSearch u pattern)) .compile fun insns =>
    Caller.tryThen (loadFilterCalls insns) .io fun filterFd =>
      Caller.tryThen (attachToSocketCalls filterFd targetSocket) .io fun _ =>
        .ret (.ok ())

/-- What a thread asks of the crate. -/
inductive FilterRequest where
  | loadFilter (insns : List BpfInsn)
  | attachToSocket (progFd socketFd : RawFd)
  | attachKernelPageDiscard (pattern : List UInt8) (targetSocket : RawFd)

inductive FilterReply where
  | loaded (r : Outcome IoError RawFd)
  | attached (r : Outcome IoError Unit)
  | discarding (r : Outcome AttachError Unit)

def FilterRequest.caller (u : Usize) : FilterRequest → Caller FilterReply
  | .loadFilter insns => (loadFilterCalls insns).bind fun r => .ret (.loaded r)
  | .attachToSocket progFd socketFd =>
    (attachToSocketCalls progFd socketFd).bind fun r => .ret (.attached r)
  | .attachKernelPageDiscard pattern targetSocket =>
    (attachKernelPageDiscardCalls u pattern targetSocket).bind fun r => .ret (.discarding r)

/-- What the function returns when the kernel answers like this. -/
def FilterRequest.reply (u : Usize) (kernel : FilterKernel) : FilterRequest → FilterReply
  | .loadFilter insns => .loaded (Ebpfkit.loadFilter kernel insns).result
  | .attachToSocket progFd socketFd => .attached (Ebpfkit.attachToSocket kernel progFd socketFd).result
  | .attachKernelPageDiscard pattern targetSocket =>
    .discarding (Ebpfkit.attachKernelPageDiscard u kernel pattern targetSocket).result

section Callers

variable {u : Usize} {kernel : FilterKernel}

/-- What a page-discard call does with the answer to its attach. -/
def afterAttach : Option IoError → Caller FilterReply
  | some error => .ret (.discarding (.err (.io error)))
  | none => .ret (.discarding (.ok ()))

/-- What a page-discard call does with the answer to its load. -/
def afterLoad (targetSocket : RawFd) : ProgLoadReply → Caller FilterReply
  | .opened fd => .call (.setsockopt targetSocket SO_ATTACH_BPF fd) afterAttach
  | .refused error log => .ret (.discarding (.err (.io (verifierError error log))))

/-- A page-discard call whose pattern compiles starts with the load of its program. -/
theorem caller_of_le {pattern : List UInt8} (hlen : pattern.length ≤ MAX_BPF_PATTERN_LEN)
    (targetSocket : RawFd) :
    (FilterRequest.attachKernelPageDiscard pattern targetSocket).caller u =
      .call (.progLoad (progLoadAttr (literalOf pattern))) (afterLoad targetSocket) := by
  have hmax := length_literalOf_le_max hlen
  have hload : loadFilterCalls (literalOf pattern) =
      .call (.progLoad (progLoadAttr (literalOf pattern))) fun reply => .ret reply.result := by
    unfold MAX_BPF_INSNS at hmax
    rw [loadFilterCalls, if_neg (by simpa using literalOf_ne_nil pattern),
      if_neg (by unfold MAX_BPF_INSNS; omega), if_neg (by omega)]
  rw [FilterRequest.caller, attachKernelPageDiscardCalls, compileLiteralSearch_of_le hlen]
  simp only [Caller.tryThen, Interaction.bind, hload]
  congr 1
  funext reply
  cases reply with
  | refused error log => rfl
  | opened fd =>
    refine congrArg (Interaction.call (Syscall.setsockopt targetSocket SO_ATTACH_BPF fd)) ?_
    funext answer
    cases answer with
    | none => rfl
    | some error => rfl

theorem caller_of_lt {pattern : List UInt8} (hlong : MAX_BPF_PATTERN_LEN < pattern.length)
    (targetSocket : RawFd) :
    ∃ error, (FilterRequest.attachKernelPageDiscard pattern targetSocket).caller u =
      .ret (.discarding (.err (.compile error))) := by
  have hcompile := compileLiteralSearch_tooLong (u := u) hlong
  split at hcompile
  · exact ⟨_, by rw [FilterRequest.caller, attachKernelPageDiscardCalls, hcompile]; rfl⟩
  · exact ⟨_, by rw [FilterRequest.caller, attachKernelPageDiscardCalls, hcompile]; rfl⟩

end Callers

/-! ## Sockets and descriptors -/

/-- What a descriptor refers to: a socket, a loaded program, or anything else. -/
inductive File (Sock : Type) where
  | socket (s : Sock)
  | program (prog : Prog)
  | other
  deriving DecidableEq, Repr

/-- The descriptors of the process, and the filters of all sockets. -/
structure Sockets (Sock : Type) where
  table : RawFd → Option (File Sock)
  filters : Sock → Option Prog

/-- A step of the process that is not a call of the crate. It opens sockets and
    duplicates descriptors, closes descriptors, and may set or remove a filter. -/
inductive OwnStep (Sock : Type) where
  | opens (fd : RawFd) (file : File Sock)
  | closes (fd : RawFd)
  | sets (s : Sock) (filter : Option Prog)

section Stages

variable {Sock : Type} {k k' : Sockets Sock} {pattern : List UInt8} {targetSocket : RawFd}
  {calls : List ((c : Syscall) × c.Answer)} {p : Caller FilterReply}

def Sockets.setTable (k : Sockets Sock) (fd : RawFd) (file : Option (File Sock)) : Sockets Sock :=
  { k with table := Function.update k.table fd file }

/-- Where a page-discard call is, by the system calls it has made: between its load
    and its attach, its descriptor refers to the program of its own pattern. -/
inductive DiscardStage (pattern : List UInt8) (targetSocket : RawFd) (k : Sockets Sock) :
    List ((c : Syscall) × c.Answer) → Caller FilterReply → Prop where
  | notCompiled {error : CompileError} :
      DiscardStage pattern targetSocket k [] (.ret (.discarding (.err (.compile error))))
  | compiled (hlen : pattern.length ≤ MAX_BPF_PATTERN_LEN) :
      DiscardStage pattern targetSocket k []
        (.call (.progLoad (progLoadAttr (literalOf pattern))) (afterLoad targetSocket))
  | loaded {fd : RawFd} (hlen : pattern.length ≤ MAX_BPF_PATTERN_LEN)
      (hprog : k.table fd = some (.program (literalOf pattern))) :
      DiscardStage pattern targetSocket k
        [⟨.progLoad (progLoadAttr (literalOf pattern)), .opened fd⟩]
        (.call (.setsockopt targetSocket SO_ATTACH_BPF fd) afterAttach)
  | failed {calls : List ((c : Syscall) × c.Answer)} {error : IoError}
      (hnone : ∀ socketFd option fd, ⟨.setsockopt socketFd option fd, none⟩ ∉ calls) :
      DiscardStage pattern targetSocket k calls (.ret (.discarding (.err (.io error))))
  | attached {fd : RawFd} (hlen : pattern.length ≤ MAX_BPF_PATTERN_LEN) :
      DiscardStage pattern targetSocket k
        [⟨.progLoad (progLoadAttr (literalOf pattern)), .opened fd⟩,
          ⟨.setsockopt targetSocket SO_ATTACH_BPF fd, none⟩] (.ret (.discarding (.ok ())))

theorem DiscardStage.start (u : Usize) (pattern : List UInt8) (targetSocket : RawFd)
    (k : Sockets Sock) : DiscardStage pattern targetSocket k []
      ((FilterRequest.attachKernelPageDiscard pattern targetSocket).caller u) := by
  by_cases hlen : pattern.length ≤ MAX_BPF_PATTERN_LEN
  · rw [caller_of_le hlen]
    exact .compiled hlen
  · obtain ⟨error, hcaller⟩ := @caller_of_lt u _ (Nat.lt_of_not_le hlen) targetSocket
    rw [hcaller]
    exact .notCompiled

end Stages

section Kernel

variable {Sock ι : Type} [DecidableEq Sock] [DecidableEq ι]

def Sockets.setFilter (k : Sockets Sock) (s : Sock) (filter : Option Prog) : Sockets Sock :=
  { k with filters := Function.update k.filters s filter }

/-- What the kernel may answer, the filter that it sets, and what it keeps then. A
    load is given a descriptor that is not in use, and `SO_ATTACH_BPF` succeeds only
    for a socket and a program. -/
inductive Sockets.Answers (k : Sockets Sock) :
    (c : Syscall) → c.Answer → Option (Sock × Prog) → Sockets Sock → Prop where
  | opened {attr : ProgLoadAttr} {fd : RawFd} (hfree : k.table fd = none) :
      Answers k (.progLoad attr) (.opened fd) none (k.setTable fd (some (.program attr.insns)))
  | refused {attr : ProgLoadAttr} {error : IoError} {log : String} :
      Answers k (.progLoad attr) (.refused error log) none k
  | attached {socketFd progFd : RawFd} {s : Sock} {prog : Prog}
      (hsocket : k.table socketFd = some (.socket s)) (hprog : k.table progFd = some (.program prog)) :
      Answers k (.setsockopt socketFd SO_ATTACH_BPF progFd) none (some (s, prog))
        (k.setFilter s (some prog))
  | failed {socketFd value : RawFd} {option : Nat} {error : IoError} :
      Answers k (.setsockopt socketFd option value) (some error) none k

/-- The calls of all threads, and the kernel. -/
abbrev World (ι Sock : Type) := Interaction.Pool Syscall Syscall.Answer FilterReply ι (Sockets Sock)

abbrev WorldAct (ι Sock : Type) :=
  Interaction.Act Syscall Syscall.Answer ι (Option (Sock × Prog)) (OwnStep Sock)

/-- No call has begun. -/
def World.start (u : Usize) (requests : ι → FilterRequest) (k : Sockets Sock) : World ι Sock :=
  ⟨k, fun i => (requests i).caller u⟩

/-- The action sets the filter of a socket. -/
def Sets (s : Sock) (filter : Option Prog) : WorldAct ι Sock → Prop
  | .call _ _ _ set => ∃ prog, set = some (s, prog) ∧ filter = some prog
  | .env (.sets s' filter') => s' = s ∧ filter = filter'
  | .env _ => False

/-! ## One call among many -/

section Runs

variable {u : Usize} {requests : ι → FilterRequest} {k k' : Sockets Sock} {w : World ι Sock}
  {as : List (WorldAct ι Sock)} {pattern : List UInt8} {targetSocket : RawFd}
  {calls : List ((c : Syscall) × c.Answer)} {p : Caller FilterReply}

end Runs

end Kernel

/-! ## Two threads and one socket -/

end Ebpfkit
