-- SUMMARY: Parsing the kernel release, the version gates that depend on it, and when a vendor suffix is ignored.
import Ebpfkit.Loader.Prog

/-!
# Kernel version detection

`src/loader/core_detect.rs`. A release is split at every character that is not an
ASCII digit, and the first three pieces are read as numbers. A piece is the list
of its characters.
-/

namespace Ebpfkit

/-! ## Parsing -/

/-- The digits that are left of a number, after the digits read so far. -/
def parseDigits : List Char → Nat → Option Nat
  | [], acc => some acc
  | c :: cs, acc =>
    if c.isDigit then
      let next := 10 * acc + (c.toNat - '0'.toNat)
      if next < 2 ^ 32 then parseDigits cs next else none
    else
      none

/-- `str::parse::<u32>`: an optional plus sign, then at least one digit. -/
def parseU32 : List Char → Option Nat
  | [] => none
  | '+' :: digits => if digits.isEmpty then none else parseDigits digits 0
  | digits => parseDigits digits 0

/-- `trimmed.split(|c| !c.is_ascii_digit())` -/
def releaseParts (trimmed : List Char) : List (List Char) :=
  trimmed.splitOnP fun c => !c.isDigit

def parseKernelRelease (trimmed : String) : Option (Nat × Nat × Nat) :=
  let parts := releaseParts trimmed.toList
  (parts[0]?.bind parseU32).bind fun major =>
    (parts[1]?.elim (some 0) parseU32).bind fun minor =>
      (parts[2]?.elim (some 0) parseU32).bind fun patch =>
        some (major, minor, patch)

/-- The version of the running kernel, from the text of
    `/proc/sys/kernel/osrelease` if it can be read. -/
def kernelVersion (osrelease : Option String) : Nat × Nat × Nat :=
  match osrelease.bind fun release => parseKernelRelease (trimMatches isWhitespace release) with
  | some version => version
  | none => (0, 0, 0)

/-- The order of tuples. -/
def versionAtLeast (version required : Nat × Nat × Nat) : Bool :=
  required.1 < version.1 || required.1 == version.1 &&
    (required.2.1 < version.2.1 || required.2.1 == version.2.1 && required.2.2 ≤ version.2.2)

def hasRingbuf (osrelease : Option String) : Bool :=
  versionAtLeast (kernelVersion osrelease) (5, 8, 0)

def hasFentry (osrelease : Option String) : Bool :=
  versionAtLeast (kernelVersion osrelease) (5, 5, 0)

/-! ## Releases -/

/-- A dotted version with a suffix that is not part of it. -/
structure Release where
  components : List (List Char)
  suffix : List Char
  components_ne : components ≠ []
  components_le : components.length ≤ 3
  component_ne : ∀ digits ∈ components, digits ≠ []
  component_digits : ∀ digits ∈ components, ∀ c ∈ digits, c.isDigit = true
  suffix_start : ∀ c ∈ suffix.head?, c.isDigit = false ∧ (c = '.' → components.length = 3)

namespace Release

def text (release : Release) : String :=
  String.ofList (['.'].intercalate release.components ++ release.suffix)

/-- The number a component stands for, zero if it is absent. -/
def number (release : Release) (i : Nat) : Nat :=
  release.components[i]?.elim 0 fun digits => Nat.ofDigitChars 10 digits 0

def Fits (release : Release) : Prop :=
  ∀ digits ∈ release.components, Nat.ofDigitChars 10 digits 0 < 2 ^ 32

instance (release : Release) : Decidable release.Fits := inferInstanceAs (Decidable (∀ _ ∈ _, _))

/-- What a parser that ignores the suffix answers. -/
def version (release : Release) : Option (Nat × Nat × Nat) :=
  if release.Fits then some (release.number 0, release.number 1, release.number 2) else none

/-- The pieces of the suffix that stand in the places of absent components. -/
def fillers (release : Release) : List (List Char) :=
  (releaseParts release.suffix).tail.take (3 - release.components.length)

end Release

/-! ## Numbers -/

section Numbers

variable {digits : List Char}

theorem le_ofDigitChars (digits : List Char) (acc : Nat) : acc ≤ Nat.ofDigitChars 10 digits acc := by
  rw [Nat.ofDigitChars_eq_ofDigitChars_zero]
  have hpow : 0 < 10 ^ digits.length := Nat.pow_pos (by decide)
  exact Nat.le_add_right_of_le (Nat.le_mul_of_pos_left acc hpow)

/-- Overflow is noticed as soon as it happens, and a number only grows after that. -/
theorem parseDigits_eq {acc : Nat} (hdigits : ∀ c ∈ digits, c.isDigit = true) (hacc : acc < 2 ^ 32) :
    parseDigits digits acc =
      if Nat.ofDigitChars 10 digits acc < 2 ^ 32 then some (Nat.ofDigitChars 10 digits acc)
      else none := by
  induction digits generalizing acc with
  | nil => rw [parseDigits, Nat.ofDigitChars_nil, if_pos hacc]
  | cons c cs ih =>
    obtain ⟨hc, hcs⟩ := List.forall_mem_cons.mp hdigits
    rw [parseDigits, if_pos hc, Nat.ofDigitChars_cons]
    dsimp only
    split
    · next hlt => exact ih hcs hlt
    · next hge =>
      have hgrows := le_ofDigitChars cs (10 * acc + (c.toNat - '0'.toNat))
      rw [if_neg (fun hlt => hge (Nat.lt_of_le_of_lt hgrows hlt))]

theorem parseU32_eq (hne : digits ≠ []) (hdigits : ∀ c ∈ digits, c.isDigit = true) :
    parseU32 digits =
      if Nat.ofDigitChars 10 digits 0 < 2 ^ 32 then some (Nat.ofDigitChars 10 digits 0) else none := by
  unfold parseU32
  split
  · exact absurd rfl hne
  · exact absurd (hdigits '+' List.mem_cons_self) (by decide)
  · exact parseDigits_eq hdigits (by decide)

theorem isDigit_eq_zero {c : Char} (hdigit : c.isDigit = true) (h : c.toNat - '0'.toNat = 0) :
    c = '0' := by
  have hge : '0'.toNat ≤ c.toNat := (Char.isDigit_iff_toNat.mp hdigit).1
  refine Char.toNat_inj.mp ?_
  omega

theorem ofDigitChars_eq_zero {acc : Nat} (hdigits : ∀ c ∈ digits, c.isDigit = true) :
    Nat.ofDigitChars 10 digits acc = 0 ↔ acc = 0 ∧ ∀ c ∈ digits, c = '0' := by
  induction digits generalizing acc with
  | nil => simp
  | cons c cs ih =>
    obtain ⟨hc, hcs⟩ := List.forall_mem_cons.mp hdigits
    rw [Nat.ofDigitChars_cons, ih hcs, List.forall_mem_cons, ← and_assoc]
    refine and_congr_left fun _ => ⟨?_, ?_⟩
    · intro hzero
      exact ⟨by omega, isDigit_eq_zero hc (by omega)⟩
    · rintro ⟨rfl, rfl⟩
      rfl

/-- A piece reads as zero if it is a run of zeros, but not an empty one. -/
theorem parseU32_eq_zero (hdigits : ∀ c ∈ digits, c.isDigit = true) :
    parseU32 digits = some 0 ↔ digits ≠ [] ∧ ∀ c ∈ digits, c = '0' := by
  by_cases hne : digits = []
  · simp [hne, parseU32]
  · rw [parseU32_eq hne hdigits]
    have hzero := @ofDigitChars_eq_zero digits 0 hdigits
    simp only [true_and] at hzero
    rw [and_iff_right hne, ← hzero, Option.ite_none_right_eq_some, Option.some_inj]
    refine and_iff_right_of_imp ?_
    intro h
    rw [h]
    decide

end Numbers

/-! ## Pieces -/

/-- A piece holds nothing but digits. -/
theorem releaseParts_digits (text : List Char) :
    ∀ part ∈ releaseParts text, ∀ c ∈ part, c.isDigit = true := by
  unfold releaseParts
  induction text with
  | nil => simp
  | cons c cs ih =>
    rw [List.splitOnP_cons_eq_if_modifyHead]
    split
    · intro part hmem
      rcases List.mem_cons.mp hmem with rfl | hmem
      · simp
      · exact ih part hmem
    · next hdigit =>
      obtain ⟨first, parts, hsplit⟩ := List.exists_cons_of_ne_nil
        (List.splitOnP_ne_nil (fun c => !c.isDigit) cs)
      rw [hsplit] at ih ⊢
      simp only [List.modifyHead_cons, List.forall_mem_cons] at ih ⊢
      exact ⟨⟨by simpa using hdigit, ih.1⟩, ih.2⟩

/-- Text that does not start with a digit starts with an empty piece. -/
theorem releaseParts_eq_cons_tail {text : List Char} (h : ∀ c ∈ text.head?, c.isDigit = false) :
    releaseParts text = [] :: (releaseParts text).tail := by
  cases text with
  | nil => rfl
  | cons c cs =>
    have hc : c.isDigit = false := h c rfl
    simp [releaseParts, List.splitOnP_cons_eq_if_modifyHead, hc]

theorem releaseParts_digits_append {digits suffix : List Char}
    (hdigits : ∀ c ∈ digits, c.isDigit = true) (hsuffix : ∀ c ∈ suffix.head?, c.isDigit = false) :
    releaseParts (digits ++ suffix) = digits :: (releaseParts suffix).tail := by
  have hnot : ∀ c ∈ digits, (!c.isDigit) = false := fun c hc => by simp [hdigits c hc]
  cases suffix with
  | nil => simp [releaseParts, List.splitOnP_eq_singleton hnot]
  | cons c cs =>
    have hc : c.isDigit = false := hsuffix c rfl
    rw [releaseParts, List.splitOnP_append_cons_of_forall_mem hnot c (by simp [hc])]
    simp [releaseParts, List.splitOnP_cons_eq_if_modifyHead, hc]

/-- The components are pieces, and the suffix adds the pieces after its first. -/
theorem releaseParts_intercalate {components : List (List Char)} {suffix : List Char}
    (hne : components ≠ []) (hdigits : ∀ digits ∈ components, ∀ c ∈ digits, c.isDigit = true)
    (hsuffix : ∀ c ∈ suffix.head?, c.isDigit = false) :
    releaseParts (['.'].intercalate components ++ suffix) =
      components ++ (releaseParts suffix).tail := by
  induction components with
  | nil => exact absurd rfl hne
  | cons digits components ih =>
    obtain ⟨hfirst, hrest⟩ := List.forall_mem_cons.mp hdigits
    cases components with
    | nil => simpa using releaseParts_digits_append hfirst hsuffix
    | cons next components =>
      have htail := ih (List.cons_ne_nil next components) hrest
      have hnot : ∀ c ∈ digits, (!c.isDigit) = false := fun c hc => by simp [hfirst c hc]
      rw [List.intercalate_cons_cons, List.append_assoc, List.append_assoc, List.singleton_append]
      rw [releaseParts, List.splitOnP_append_cons_of_forall_mem hnot '.' (by decide)]
      exact congrArg (digits :: ·) htail

/-- None of the first three pieces may be anything but a number. -/
theorem parseKernelRelease_eq_none {trimmed : String} {part : List Char} {i : Nat} (hi : i < 3)
    (hpart : (releaseParts trimmed.toList)[i]? = some part) (h : parseU32 part = none) :
    parseKernelRelease trimmed = none := by
  match i with
  | 0 => simp [parseKernelRelease, hpart, h]
  | 1 => simp [parseKernelRelease, hpart, h]
  | 2 => simp [parseKernelRelease, hpart, h]

/-! ## Suffixes -/

namespace Release

variable (release : Release)

/-- Some component overflows, or everything that stands in the place of an absent
    component is a run of zeros. Nothing stands there if there are three components
    or no suffix. -/
def SuffixIgnored : Prop :=
  ¬ release.Fits ∨ ∀ part ∈ release.fillers, part ≠ [] ∧ ∀ c ∈ part, c = '0'

instance : Decidable release.SuffixIgnored := inferInstanceAs (Decidable (_ ∨ _))

theorem parts_text :
    releaseParts release.text.toList =
      release.components ++ (releaseParts release.suffix).tail := by
  rw [text, String.toList_ofList]
  exact releaseParts_intercalate release.components_ne release.component_digits
    fun c hc => (release.suffix_start c hc).1

theorem parseU32_component {digits : List Char} (h : digits ∈ release.components) :
    parseU32 digits =
      if Nat.ofDigitChars 10 digits 0 < 2 ^ 32 then some (Nat.ofDigitChars 10 digits 0) else none :=
  parseU32_eq (release.component_ne digits h) (release.component_digits digits h)

/-- A piece of the suffix does no harm if it reads as zero. -/
theorem filler_eq_zero {part : Option (List Char)}
    (h : ∀ p ∈ part, p ∈ (releaseParts release.suffix).tail) :
    part.elim (some 0) parseU32 = some 0 ↔ ∀ p ∈ part, p ≠ [] ∧ ∀ c ∈ p, c = '0' := by
  cases part with
  | none => simp
  | some part =>
    have hmem : part ∈ releaseParts release.suffix := List.mem_of_mem_tail (h part rfl)
    simpa using parseU32_eq_zero (releaseParts_digits release.suffix part hmem)

end Release

/-- The pieces of a suffix that are read as numbers. -/
theorem forall_mem_take_two {α : Type} {P : α → Prop} (l : List α) :
    (∀ x ∈ l.take 2, P x) ↔ (∀ x ∈ l[0]?, P x) ∧ ∀ x ∈ l[1]?, P x := by
  match l with
  | [] => simp
  | [a] => simp
  | a :: b :: l => simp

theorem forall_mem_take_one {α : Type} {P : α → Prop} (l : List α) :
    (∀ x ∈ l.take 1, P x) ↔ ∀ x ∈ l[0]?, P x := by
  match l with
  | [] => simp
  | a :: l => simp

namespace Release

variable {release : Release}

theorem components_cases (release : Release) :
    (∃ a, release.components = [a]) ∨ (∃ a b, release.components = [a, b]) ∨
      ∃ a b c, release.components = [a, b, c] := by
  have hle := release.components_le
  match hcomponents : release.components with
  | [] => exact absurd hcomponents release.components_ne
  | [a] => exact .inl ⟨a, rfl⟩
  | [a, b] => exact .inr (.inl ⟨a, b, rfl⟩)
  | [a, b, c] => exact .inr (.inr ⟨a, b, c, rfl⟩)
  | a :: b :: c :: d :: components =>
    simp only [hcomponents, List.length_cons] at hle
    omega

/-- A component that does not fit makes the parser give up. -/
theorem parse_of_not_fits (hfits : ¬ release.Fits) : parseKernelRelease release.text = none := by
  obtain ⟨digits, hmem, hlarge⟩ : ∃ digits ∈ release.components, parseU32 digits = none := by
    by_contra hall
    refine hfits fun digits hmem => ?_
    by_contra hlarge
    exact hall ⟨digits, hmem, by rw [release.parseU32_component hmem, if_neg hlarge]⟩
  obtain ⟨i, hi, hget⟩ := List.mem_iff_getElem.mp hmem
  refine parseKernelRelease_eq_none (Nat.lt_of_lt_of_le hi release.components_le) ?_ hlarge
  rw [release.parts_text, List.getElem?_append_left hi, List.getElem?_eq_getElem hi, hget]

/-- With components that fit, the answer is right if what stands in the places of
    absent ones reads as zero. -/
theorem parse_eq_version_iff (hfits : release.Fits) :
    parseKernelRelease release.text = release.version ↔
      ∀ part ∈ release.fillers, part ≠ [] ∧ ∀ c ∈ part, c = '0' := by
  have hnumber : ∀ digits ∈ release.components,
      parseU32 digits = some (Nat.ofDigitChars 10 digits 0) := fun digits hmem => by
    rw [release.parseU32_component hmem, if_pos (hfits digits hmem)]
  have hfiller := fun i => release.filler_eq_zero
    (fun p (hp : p ∈ (releaseParts release.suffix).tail[i]?) => List.mem_of_getElem? hp)
  rw [parseKernelRelease, release.parts_text, version, if_pos hfits, fillers]
  rcases release.components_cases with ⟨a, h⟩ | ⟨a, b, h⟩ | ⟨a, b, c, h⟩
  · simp only [h, List.length_cons, List.length_nil, forall_mem_take_two, ← hfiller]
    simp [h, number, hnumber, Option.bind_eq_some_iff]
  · simp only [h, List.length_cons, List.length_nil, forall_mem_take_one, ← hfiller]
    simp [h, number, hnumber, Option.bind_eq_some_iff]
  · simp [h, number, hnumber]

end Release

/-- The parser reads the version and ignores the suffix exactly if the suffix puts
    nothing but zeros in the places of absent components. It answers nothing for
    text that does not start with a digit. -/
theorem parseKernelRelease_suffix (release : Release) (trimmed : String) :
    (parseKernelRelease release.text = release.version ↔ release.SuffixIgnored) ∧
    ((∀ c ∈ trimmed.toList.head?, c.isDigit = false) → parseKernelRelease trimmed = none) := by
  refine ⟨?_, ?_⟩
  · by_cases hfits : release.Fits
    · rw [Release.parse_eq_version_iff hfits, Release.SuffixIgnored,
        or_iff_right (not_not_intro hfits)]
    · rw [Release.parse_of_not_fits hfits, Release.version, if_neg hfits]
      exact iff_of_true rfl (.inl hfits)
  · intro hstart
    rw [parseKernelRelease, releaseParts_eq_cons_tail hstart]
    rfl

/-- A release without a patch level, as vendors write it. -/
def genericRelease : Release where
  components := [['6'], ['1']]
  suffix := ['-', 'g', 'e', 'n', 'e', 'r', 'i', 'c']
  components_ne := by decide
  components_le := by decide
  component_ne := by simp
  component_digits := by simp
  suffix_start := by simp

/-- The same with a patch level. -/
def patchedRelease : Release where
  components := [['6'], ['1'], ['0']]
  suffix := ['-', 'g', 'e', 'n', 'e', 'r', 'i', 'c']
  components_ne := by decide
  components_le := by decide
  component_ne := by simp
  component_digits := by simp
  suffix_start := by simp

theorem parseKernelRelease_suffix_patched :
    patchedRelease.text = "6.1.0-generic" ∧ parseKernelRelease "6.1.0-generic" = some (6, 1, 0) ∧
      parseKernelRelease "generic" = none := by
  obtain ⟨hversion, hnone⟩ := parseKernelRelease_suffix patchedRelease "generic"
  have htext : patchedRelease.text = "6.1.0-generic" := by decide
  refine ⟨htext, ?_, hnone (by simp)⟩
  rw [← htext, hversion.mpr (by decide)]
  rfl

/-- Without the patch level the letters of the suffix stand in its place, so that
    ring buffers count as unavailable on such a kernel; digits would be read. -/
theorem parseKernelRelease_generic :
    genericRelease.text = "6.1-generic" ∧ genericRelease.version = some (6, 1, 0) ∧
      parseKernelRelease "6.1-generic" = none ∧ hasRingbuf (some "6.1-generic") = false ∧
      parseKernelRelease "6.1-15" = some (6, 1, 15) := by
  decide

end Ebpfkit
