-- SUMMARY: Callers that ask for kernel features at the same time: every gate fails closed, and one warning is printed.
import Ebpfkit.Fmt
import Ebpfkit.Loader.CoreDetect
import Ebpfkit.Once

/-!
# Feature detection in a process

`has_ringbuf`, `has_fentry` and `diagnostics` of `src/loader/core_detect.rs` read the
kernel's release again on every call, from any thread, and share one `Once`. A call
that cannot tell the version goes through the `Once` before it answers. Which of
several such calls prints is decided there, and the others may well be answered
before the one that prints.
-/

namespace Ebpfkit

/-! ## One call -/

/-- What reading `/proc/sys/kernel/osrelease` gives. -/
abbrev Osrelease := Except IoError String

/-- Why the version cannot be told. -/
inductive Undetected where
  | unreadable (error : IoError)
  | unparseable (release : String)
  deriving DecidableEq, Repr

/-- The two ways through `kernel_version`. -/
def detect : Osrelease → Except Undetected (Nat × Nat × Nat)
  | .error error => .error (.unreadable error)
  | .ok release =>
    match parseKernelRelease (trimMatches isWhitespace release) with
    | some version => .ok version
    | none => .error (.unparseable (trimMatches isWhitespace release))

/-- The text in brackets of the warning; `quote` is how `{:?}` writes a string. -/
def Undetected.reason (quote : String → String) : Undetected → String
  | .unreadable error => "cannot read /proc/sys/kernel/osrelease: " ++ error.message
  | .unparseable release => "unparseable major version in osrelease " ++ quote release

/-- The line that `warn_kernel_undetected` prints. -/
def warning (reason : String) : String :=
  "ebpfkit: could not determine kernel version (" ++ reason ++ "); treating all version-gated eBPF features (ring buffer, fentry, ...) as UNAVAILABLE"

theorem kernelVersion_eq (osrelease : Osrelease) :
    kernelVersion osrelease.toOption =
      match detect osrelease with
      | .ok version => version
      | .error _ => (0, 0, 0) := by
  cases osrelease with
  | error error => rfl
  | ok release =>
    simp only [kernelVersion, detect, Except.toOption, Option.bind_some]
    cases parseKernelRelease (trimMatches isWhitespace release) with
    | none => rfl
    | some version => rfl

/-- What a call asks for. -/
inductive Feature where
  | ringbuf
  | fentry
  deriving DecidableEq, Repr

def Feature.required : Feature → Nat × Nat × Nat
  | .ringbuf => (5, 8, 0)
  | .fentry => (5, 5, 0)

def Feature.available : Feature → Osrelease → Bool
  | .ringbuf, osrelease => hasRingbuf osrelease.toOption
  | .fentry, osrelease => hasFentry osrelease.toOption

theorem Feature.available_eq (feature : Feature) (osrelease : Osrelease) :
    feature.available osrelease =
      versionAtLeast (kernelVersion osrelease.toOption) feature.required := by
  cases feature with
  | ringbuf => rfl
  | fentry => rfl

/-- The gates fail closed: a feature counts as available only if the version was
    told, and reaches the one that is required. -/
theorem Feature.available_iff (feature : Feature) (osrelease : Osrelease) :
    feature.available osrelease = true ↔
      ∃ version, detect osrelease = .ok version ∧ versionAtLeast version feature.required = true := by
  rw [feature.available_eq, kernelVersion_eq]
  cases hdetect : detect osrelease with
  | ok version => simp
  | error reason =>
    have hzero : versionAtLeast (0, 0, 0) feature.required = false := by
      cases feature with
      | ringbuf => rfl
      | fentry => rfl
    simp [hzero]

theorem versionAtLeast_mono {version : Nat × Nat × Nat} (h : versionAtLeast version (5, 8, 0) = true) :
    versionAtLeast version (5, 5, 0) = true := by
  obtain ⟨major, minor, patch⟩ := version
  simp only [versionAtLeast, Bool.or_eq_true, Bool.and_eq_true, decide_eq_true_eq, beq_iff_eq] at h ⊢
  omega

/-! ## Diagnostics -/

/-- The lines of `diagnostics`, which reads the release three times. -/
def diagnostics (first second third : Osrelease) (hasBtf : Bool) (euid : Nat) : List String :=
  let version := kernelVersion first.toOption
  ["kernel: " ++ toString version.1 ++ "." ++ toString version.2.1 ++ "." ++ toString version.2.2,
    "BTF available: " ++ toString hasBtf,
    "fentry support: " ++ toString (Feature.fentry.available second),
    "ring buffer support: " ++ toString (Feature.ringbuf.available third),
    "running as root: " ++ toString (euid == 0)]

theorem toString_bool_inj {a b : Bool} : toString a = toString b ↔ a = b := by
  cases a <;> cases b <;> decide

theorem version_text_inj {v w : Nat × Nat × Nat}
    (h : toString v.1 ++ "." ++ toString v.2.1 ++ "." ++ toString v.2.2 =
      toString w.1 ++ "." ++ toString w.2.1 ++ "." ++ toString w.2.2) : v = w := by
  have hdot : ∀ v : Nat × Nat × Nat,
      (toString v.1 ++ "." ++ toString v.2.1 ++ "." ++ toString v.2.2).toList =
        ['.'].intercalate [v.1.repr.toList, v.2.1.repr.toList, v.2.2.repr.toList] := by
    intro v
    simp [List.intercalate]
  have hparts : ∀ v : Nat × Nat × Nat,
      ∀ part ∈ [v.1.repr.toList, v.2.1.repr.toList, v.2.2.repr.toList], '.' ∉ part := by
    intro v part hpart
    simp only [List.mem_cons, List.not_mem_nil, or_false] at hpart
    rcases hpart with rfl | rfl | rfl <;> exact Fmt.not_mem_natRepr (by decide) _
  have heq := Fmt.intercalate_inj (List.cons_ne_nil _ _) (List.cons_ne_nil _ _) (hparts v) (hparts w)
    (by rw [← hdot, ← hdot, h])
  simp only [List.cons.injEq, Fmt.toList_natRepr_inj, and_true] at heq
  exact Prod.ext heq.1 (Prod.ext heq.2.1 heq.2.2)

/-- The lines tell the version and every answer. -/
theorem diagnostics_inj {first second third first' second' third' : Osrelease}
    {hasBtf hasBtf' : Bool} {euid euid' : Nat} :
    diagnostics first second third hasBtf euid = diagnostics first' second' third' hasBtf' euid' ↔
      kernelVersion first.toOption = kernelVersion first'.toOption ∧ hasBtf = hasBtf' ∧
      Feature.fentry.available second = Feature.fentry.available second' ∧
      Feature.ringbuf.available third = Feature.ringbuf.available third' ∧
      (euid = 0 ↔ euid' = 0) := by
  have hroot : (euid == 0) = (euid' == 0) ↔ (euid = 0 ↔ euid' = 0) := by
    rw [Bool.eq_iff_iff, beq_iff_eq, beq_iff_eq]
  constructor
  · intro h
    simp only [diagnostics, String.append_assoc, List.cons.injEq, String.append_right_inj,
      toString_bool_inj, and_true] at h
    obtain ⟨hversion, hbtf, hfentry, hringbuf, heuid⟩ := h
    refine ⟨version_text_inj ?_, hbtf, hfentry, hringbuf, hroot.mp heuid⟩
    simpa only [String.append_assoc] using hversion
  · rintro ⟨hversion, rfl, hfentry, hringbuf, heuid⟩
    simp only [diagnostics, hversion, hfentry, hringbuf, hroot.mpr heuid]

/-! ## Calls from many threads -/

/-- A release that does not tell the version, as a call of `warn_kernel_undetected`
    knows it. -/
structure Failure where
  osrelease : Osrelease
  reason : Undetected
  detect_eq : detect osrelease = .error reason

/-- The `Once` of `warn_kernel_undetected`, where each call of `kernel_version` is one
    caller, and the answers that calls have given. -/
structure Detector (τ : Type) where
  once : Once.System τ Failure
  answers : τ → Option (Osrelease × (Nat × Nat × Nat))

def Detector.initial {τ : Type} : Detector τ := ⟨.initial, fun _ => none⟩

/-- What stands on the standard error stream. -/
def Detector.output {τ : Type} (quote : String → String) (d : Detector τ) : List String :=
  d.once.effects.map fun p => warning (p.2.reason.reason quote)

inductive DetectAction where
  | detected (osrelease : Osrelease)
  | once (act : Once.Act Failure)
  | answer

section Calls

variable {τ : Type} [DecidableEq τ]

def Detector.answered (d : Detector τ) (t : τ) (osrelease : Osrelease)
    (version : Nat × Nat × Nat) : Detector τ :=
  { d with answers := Function.update d.answers t (some (osrelease, version)) }

/-- One step of a call that has not answered yet. It reads the release, and answers
    or goes through the `Once`, whose closure prints the warning; printing panics if
    the stream cannot be written to. Past the `Once` it answers. -/
inductive DetectStep (d : Detector τ) : τ × DetectAction → Detector τ → Prop where
  | detected {t : τ} {osrelease : Osrelease} {version : Nat × Nat × Nat}
      (hopen : d.answers t = none) (hplace : d.once.place t = .outside)
      (hdetect : detect osrelease = .ok version) :
      DetectStep d (t, .detected osrelease) (d.answered t osrelease version)
  | once {t : τ} {act : Once.Act Failure} {once : Once.System τ Failure}
      (hopen : d.answers t = none) (hstep : Once.Step d.once (t, act) once) :
      DetectStep d (t, .once act) { d with once }
  | answer {t : τ} {failure : Failure} (hopen : d.answers t = none)
      (hplace : d.once.place t = .past failure) :
      DetectStep d (t, .answer) (d.answered t failure.osrelease (0, 0, 0))

def undetected? (osrelease : Osrelease) : Option Undetected :=
  match detect osrelease with
  | .error reason => some reason
  | .ok _ => none

/-- What an answer says about its call: it is the version of the release that was
    read, and one without a version was given past the `Once`. -/
structure AnswerInv (place : Once.Place Failure) (osrelease : Osrelease)
    (version : Nat × Nat × Nat) : Prop where
  version_eq : version = kernelVersion osrelease.toOption
  past : undetected? osrelease ≠ none → ∃ failure, place = .past failure

structure DetectInv (d : Detector τ) : Prop where
  once : Once.Inv d.once.state d.once.place d.once.effects
  answers : ∀ t osrelease version, d.answers t = some (osrelease, version) →
    AnswerInv (d.once.place t) osrelease version

theorem answers_answered {d : Detector τ} {t t' : τ} {osrelease osrelease' : Osrelease}
    {version version' : Nat × Nat × Nat}
    (h : (d.answered t osrelease version).answers t' = some (osrelease', version')) :
    (t' = t ∧ osrelease' = osrelease ∧ version' = version) ∨
      d.answers t' = some (osrelease', version') := by
  by_cases heq : t' = t
  · subst heq
    simp only [Detector.answered, Function.update_self, Option.some.injEq, Prod.mk.injEq] at h
    exact .inl ⟨rfl, h.1.symm, h.2.symm⟩
  · exact .inr ((Function.update_of_ne heq ..).symm.trans h)

/-- Calls that have answered do not move any more. -/
theorem onceStep_place {s s' : Once.System τ Failure} {t t' : τ} {act : Once.Act Failure}
    (hstep : Once.Step s (t, act) s') (hne : t' ≠ t) : s'.place t' = s.place t' := by
  cases hstep <;> exact Function.update_of_ne hne ..

theorem detectStep_inv {d d' : Detector τ} {a : τ × DetectAction} (h : DetectInv d)
    (hstep : DetectStep d a d') : DetectInv d' := by
  cases hstep with
  | @detected t osrelease version hopen hplace hdetect =>
    refine ⟨h.once, ?_⟩
    intro t' osrelease' version' hanswer
    rcases answers_answered hanswer with ⟨rfl, rfl, rfl⟩ | hold
    · refine ⟨by rw [kernelVersion_eq, hdetect], ?_⟩
      intro hundetected
      exact absurd (by rw [undetected?, hdetect]) hundetected
    · exact h.answers t' osrelease' version' hold
  | @once t act once hopen hstep =>
    refine ⟨Once.step_inv h.once hstep, ?_⟩
    intro t' osrelease version hanswer
    have hne : t' ≠ t := by
      rintro rfl
      rw [show d.answers t' = some (osrelease, version) from hanswer] at hopen
      cases hopen
    change AnswerInv (once.place t') osrelease version
    rw [onceStep_place hstep hne]
    exact h.answers t' osrelease version hanswer
  | @answer t failure hopen hplace =>
    refine ⟨h.once, ?_⟩
    intro t' osrelease version hanswer
    rcases answers_answered hanswer with ⟨rfl, rfl, rfl⟩ | hold
    · exact ⟨by rw [kernelVersion_eq, failure.detect_eq], fun _ => ⟨failure, hplace⟩⟩
    · exact h.answers t' osrelease version hold

theorem run_detectInv {as : List (τ × DetectAction)} {d : Detector τ}
    (hrun : Lts.Run DetectStep Lts.Any .initial as d) : DetectInv d := by
  apply hrun.invariant fun _ d => DetectInv d
  · exact ⟨Once.inv_initial, fun t osrelease version hnone => by cases hnone⟩
  · intro as d a d' h hstep _
    exact detectStep_inv h hstep

/-- However the calls interleave, at most one warning is printed, by one of the calls
    and with its own reason. A call that cannot tell the version is answered only once
    that warning stands on the stream, and never if it could not be printed. Every
    answer is the version of the release that was read, a feature counts as available
    only where the version could be told, and ring buffers only where fentry does. A
    call that waits does so for one that can go on. -/
theorem kernelVersion_warnsOnce {as : List (τ × DetectAction)} {d : Detector τ}
    (hrun : Lts.Run DetectStep Lts.Any .initial as d) :
    d.once.effects.length ≤ 1 ∧
    (∀ t failure, (t, failure) ∈ d.once.effects →
      d.once.place t = .ran failure ∨ d.once.place t = .past failure) ∧
    (∀ t osrelease version, d.answers t = some (osrelease, version) →
      version = kernelVersion osrelease.toOption ∧
      (undetected? osrelease ≠ none → ∃ t' failure, d.once.place t' = .past failure ∧
        ∀ quote, d.output quote = [warning (failure.reason.reason quote)]) ∧
      (∀ feature : Feature, feature.available osrelease = true ↔
        undetected? osrelease = none ∧ versionAtLeast version feature.required = true) ∧
      (Feature.ringbuf.available osrelease = true → Feature.fentry.available osrelease = true)) ∧
    (∀ t failure, d.once.place t = .unwound failure → d.once.effects = [] ∧
      ∀ t' osrelease version, d.answers t' = some (osrelease, version) → undetected? osrelease = none) ∧
    ∀ t failure, d.once.place t = .waiting failure → ∃ t' act once,
      d.once.place t' ≠ .outside ∧ Once.Step d.once (t', act) once := by
  have h := run_detectInv hrun
  refine ⟨h.once.length_le, fun t failure => h.once.of_effects, ?_, ?_, ?_⟩
  · intro t osrelease version hanswer
    obtain ⟨hversion, hpast⟩ := h.answers t osrelease version hanswer
    refine ⟨hversion, ?_, ?_, ?_⟩
    · intro hundetected
      obtain ⟨failure, hplace⟩ := hpast hundetected
      obtain ⟨t', failure', hpast', heffects⟩ := h.once.of_past hplace
      refine ⟨t', failure', hpast', ?_⟩
      intro quote
      rw [Detector.output, heffects]
      rfl
    · intro feature
      rw [feature.available_iff, hversion, kernelVersion_eq]
      cases hdetect : detect osrelease with
      | ok version => simp [undetected?, hdetect]
      | error reason => simp [undetected?, hdetect]
    · intro havailable
      rw [Feature.available_eq] at havailable ⊢
      exact versionAtLeast_mono havailable
  · intro t failure hplace
    obtain ⟨heffects, hnone⟩ := h.once.of_unwound hplace
    refine ⟨heffects, ?_⟩
    intro t' osrelease version hanswer
    by_contra hundetected
    obtain ⟨failure', hpast⟩ := (h.answers t' osrelease version hanswer).past hundetected
    exact hnone t' failure' hpast
  · intro t failure hplace
    exact Once.exists_step h.once hplace

end Calls

def unparseableFailure : Failure where
  osrelease := .ok "generic\n"
  reason := .unparseable "generic"
  detect_eq := by
    have htrim : trimMatches isWhitespace "generic\n" = "generic" := by decide
    have hnone : parseKernelRelease "generic" = none := by decide
    simp only [detect, htrim, hnone]

def unreadableFailure : Failure where
  osrelease := .error ⟨.other, "Permission denied"⟩
  reason := .unreadable ⟨.other, "Permission denied"⟩
  detect_eq := rfl

/-- Two calls cannot tell the version. One of them prints, and the other one is
    answered while the first has yet to return. -/
theorem exists_race : ∃ (as : List (Bool × DetectAction)) (d : Detector Bool),
    Lts.Run DetectStep Lts.Any .initial as d ∧
    d.answers true = some (unreadableFailure.osrelease, (0, 0, 0)) ∧ d.answers false = none := by
  have hrun : Lts.Run DetectStep Lts.Any .initial
      [(true, .once (.arrive unreadableFailure)), (false, .once (.arrive unparseableFailure)),
        (false, .once .enter), (false, .once .work), (false, .once .finish), (true, .once .skip),
        (true, .answer)] _ :=
    .snoc (.snoc (.snoc (.snoc (.snoc (.snoc (.snoc .nil (.once rfl (.arrive _ rfl)) trivial)
      (.once rfl (.arrive _ rfl)) trivial) (.once rfl (.enter rfl rfl)) trivial)
      (.once rfl (.work rfl)) trivial) (.once rfl (.finish rfl)) trivial)
      (.once rfl (.skip rfl rfl)) trivial) (.answer rfl rfl) trivial
  exact ⟨_, _, hrun, rfl, rfl⟩

theorem kernelVersion_warnsOnce_race :
    ∃ (as : List (Bool × DetectAction)) (d : Detector Bool),
      Lts.Run DetectStep Lts.Any .initial as d ∧
      d.answers true = some (unreadableFailure.osrelease, (0, 0, 0)) ∧ d.answers false = none ∧
      (∃ t failure, d.once.place t = .past failure ∧
        d.output String.quote = [warning (failure.reason.reason String.quote)]) ∧
      Feature.ringbuf.available unreadableFailure.osrelease = false := by
  obtain ⟨as, d, hrun, htrue, hfalse⟩ := exists_race
  obtain ⟨-, -, hanswers, -, -⟩ := kernelVersion_warnsOnce hrun
  obtain ⟨-, hwarned, hfeature, -⟩ := hanswers true _ _ htrue
  have hundetected : undetected? unreadableFailure.osrelease ≠ none := nofun
  obtain ⟨t, failure, hpast, houtput⟩ := hwarned hundetected
  refine ⟨as, d, hrun, htrue, hfalse, ⟨t, failure, hpast, houtput String.quote⟩, ?_⟩
  rw [Bool.eq_false_iff]
  intro havailable
  exact hundetected ((hfeature .ringbuf).mp havailable).1

end Ebpfkit
