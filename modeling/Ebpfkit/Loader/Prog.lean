-- SUMMARY: Loading a program into the kernel and attaching it to a socket, with the gates before the system call.
import Ebpfkit.Assembler
import Ebpfkit.Resource
import Ebpfkit.Rust

/-!
# Loading and attaching programs

`src/loader/prog.rs`. What the kernel answers is a parameter. A successful load
opens a descriptor in the process, and the descriptors that a call opens or
closes are recorded with its result.
-/

namespace Ebpfkit

open Resource

def BPF_PROG_TYPE_SOCKET_FILTER : Nat := 1
def MAX_BPF_INSNS : Nat := 4096
def SO_ATTACH_BPF : Nat := 50

/-- The fields of `BpfAttrProgLoad` that are set; the others are zero. The
    pointers stand for what they point to. -/
structure ProgLoadAttr where
  progType : Nat
  insnCnt : Nat
  insns : List BpfInsn
  license : String
  logLevel : Nat
  logSize : Nat

/-- What `BPF_PROG_LOAD` answers. A refusal leaves `errno`, and the text in the
    log buffer up to its end. -/
inductive ProgLoadReply where
  | opened (fd : RawFd)
  | refused (error : IoError) (log : String)

/-- The kernel, as far as loading and attaching depend on it. `setsockopt` takes
    the socket, the option and its value, and answers an error if it fails. -/
structure FilterKernel where
  progLoad : ProgLoadAttr → ProgLoadReply
  setsockopt : RawFd → Nat → RawFd → Option IoError

/-- The `?` operator on a call that is recorded. The error of the call becomes an
    error of the caller. -/
def tryThen {R ε ε' α β : Type} (t : Traced R (Outcome ε α)) (convert : ε → ε')
    (k : α → Traced R (Outcome ε' β)) : Traced R (Outcome ε' β) :=
  t.bind fun
    | .ok a => k a
    | .err e => .pure (.err (convert e))
    | .panicked => .pure .panicked

/-! ## Trimming -/

/-- `char::is_whitespace`: the Unicode property `White_Space`. -/
def isWhitespace (c : Char) : Bool :=
  let n := c.toNat
  (0x09 ≤ n && n ≤ 0x0D) || n == 0x20 || n == 0x85 || n == 0xA0 || n == 0x1680 ||
    (0x2000 ≤ n && n ≤ 0x200A) || n == 0x2028 || n == 0x2029 || n == 0x202F || n == 0x205F ||
    n == 0x3000

/-- Drop matching characters from both ends. -/
def trimMatches (p : Char → Bool) (s : String) : String :=
  String.ofList (((s.toList.dropWhile p).reverse.dropWhile p).reverse)

/-- `text` is `s` without the characters at both ends that satisfy `p`. -/
def Trims (p : Char → Bool) (s text : List Char) : Prop :=
  ∃ before after, s = before ++ (text ++ after) ∧ (∀ c ∈ before, p c = true) ∧
    (∀ c ∈ after, p c = true) ∧ (∀ c ∈ text.head?, p c = false) ∧ ∀ c ∈ text.getLast?, p c = false

/-- What is in front of the text goes first. -/
theorem dropWhile_of_head {p : Char → Bool} {before text : List Char}
    (hbefore : ∀ c ∈ before, p c = true) (hhead : ∀ c ∈ text.head?, p c = false) :
    (before ++ text).dropWhile p = text := by
  rw [List.dropWhile_append_of_pos hbefore]
  cases text with
  | nil => rfl
  | cons c text => rw [List.dropWhile_cons_of_neg (by simp [hhead c rfl])]

theorem head_dropWhile {p : Char → Bool} {s : List Char} :
    ∀ c ∈ (s.dropWhile p).head?, p c = false := by
  intro c hc
  have hnot := List.head?_dropWhile_not p s
  rw [Option.mem_def.mp hc] at hnot
  exact hnot

theorem mem_takeWhile {p : Char → Bool} {s : List Char} : ∀ c ∈ s.takeWhile p, p c = true :=
  List.all_eq_true.mp List.all_takeWhile

theorem trims_iff {p : Char → Bool} {s : String} {text : List Char} :
    Trims p s.toList text ↔ text = (trimMatches p s).toList := by
  rw [trimMatches, String.toList_ofList]
  generalize s.toList = s
  constructor
  · rintro ⟨before, after, rfl, hbefore, hafter, hhead, hlast⟩
    cases text with
    | nil =>
      have hall : ∀ c ∈ before ++ after, p c = true := by
        intro c hc
        exact (List.mem_append.mp hc).elim (hbefore c) (hafter c)
      have hnone : (before ++ after).dropWhile p = [] := by
        rw [← List.append_nil (before ++ after), List.dropWhile_append_of_pos hall]
        rfl
      rw [List.nil_append, hnone]
      rfl
    | cons c text =>
      rw [dropWhile_of_head hbefore (by simpa using hhead), List.reverse_append,
        dropWhile_of_head (by simpa using hafter) (by rwa [List.head?_reverse]), List.reverse_reverse]
  · rintro rfl
    have hback : ((s.dropWhile p).reverse.dropWhile p).reverse ++
        ((s.dropWhile p).reverse.takeWhile p).reverse = s.dropWhile p := by
      rw [← List.reverse_append, List.takeWhile_append_dropWhile, List.reverse_reverse]
    refine ⟨s.takeWhile p, ((s.dropWhile p).reverse.takeWhile p).reverse, ?_, mem_takeWhile, ?_, ?_, ?_⟩
    · rw [hback, List.takeWhile_append_dropWhile]
    · intro c hc
      exact mem_takeWhile c (List.mem_reverse.mp hc)
    · intro c hc
      apply head_dropWhile c
      rw [← hback, List.head?_append, Option.mem_def.mp hc]
      rfl
    · rw [List.getLast?_reverse]
      exact head_dropWhile

/-! ## Loading -/

def emptyProgramError : IoError :=
  ⟨.invalidInput, "BPF program is empty. Fix: provide at least one instruction."⟩

def programTooLongError (len : Nat) : IoError :=
  ⟨.invalidInput, "BPF program has " ++ toString len ++ " instructions, exceeding the " ++
    toString MAX_BPF_INSNS ++ "-instruction verifier limit. Fix: simplify the pattern or split into multiple programs."⟩

def instructionCountError : IoError :=
  ⟨.invalidInput, "BPF instruction count exceeds u32. Fix: reduce program size."⟩

/-- A refusal with what the verifier wrote into the log buffer. -/
def verifierError (error : IoError) (log : String) : IoError :=
  let log := trimMatches isWhitespace (trimMatches (· == '\x00') log)
  let log := if log.isEmpty then "(empty)" else log
  ⟨error.kind, error.message ++ " -- BPF verifier log: " ++ log⟩

def progLoadAttr (insns : List BpfInsn) : ProgLoadAttr where
  progType := BPF_PROG_TYPE_SOCKET_FILTER
  insnCnt := insns.length
  insns
  license := "GPL\x00"
  logLevel := 1
  logSize := 16 * 1024

/-- The load once the program has passed the gates on its length. -/
def submitProgram (kernel : FilterKernel) (insns : List BpfInsn) :
    Traced RawFd (Outcome IoError RawFd) :=
  if insns.length ≥ 2 ^ 32 then
    .pure (.err instructionCountError)
  else
    match kernel.progLoad (progLoadAttr insns) with
    | .opened fd => ⟨.ok fd, [.acquire fd]⟩
    | .refused error log => .pure (.err (verifierError error log))

def loadFilter (kernel : FilterKernel) (insns : List BpfInsn) :
    Traced RawFd (Outcome IoError RawFd) :=
  if insns.isEmpty then
    .pure (.err emptyProgramError)
  else if insns.length > MAX_BPF_INSNS then
    .pure (.err (programTooLongError insns.length))
  else
    submitProgram kernel insns

def attachToSocket (kernel : FilterKernel) (progFd socketFd : RawFd) :
    Traced RawFd (Outcome IoError Unit) :=
  match kernel.setsockopt socketFd SO_ATTACH_BPF progFd with
  | some error => .pure (.err error)
  | none => .pure (.ok ())

/-! ## What a load can do -/

/-- The gates let a program through that is not empty and not too long. -/
theorem loadFilter_eq_submitProgram {kernel : FilterKernel} {insns : List BpfInsn}
    (hne : insns ≠ []) (hlen : insns.length ≤ MAX_BPF_INSNS) :
    loadFilter kernel insns = submitProgram kernel insns := by
  rw [loadFilter, if_neg (by simpa using hne), if_neg (by omega)]

/-- Past the gates, a load opens the descriptor that the kernel answers with. -/
theorem submitProgram_opened {kernel : FilterKernel} {insns : List BpfInsn} {fd : RawFd}
    (hlen : insns.length ≤ MAX_BPF_INSNS)
    (hreply : kernel.progLoad (progLoadAttr insns) = .opened fd) :
    submitProgram kernel insns = ⟨.ok fd, [.acquire fd]⟩ := by
  unfold MAX_BPF_INSNS at hlen
  rw [submitProgram, if_neg (by omega), hreply]

/-- A load that is refused opens nothing. -/
theorem submitProgram_refused {kernel : FilterKernel} {insns : List BpfInsn}
    (hreply : ∀ fd, kernel.progLoad (progLoadAttr insns) ≠ .opened fd) :
    ∃ error, submitProgram kernel insns = .pure (.err error) := by
  unfold submitProgram
  split
  · exact ⟨_, rfl⟩
  · split
    · next fd hopened => exact absurd hopened (hreply fd)
    · exact ⟨_, rfl⟩

end Ebpfkit
