-- SUMMARY: A mailbox whose reader hands a value over before it acknowledges it, and what it delivers if it can be interrupted.
import Ebpfkit.Lts

/-!
# Mailboxes

Slots are reserved in order and settled in any order. The reader takes them in
order: it hands the value of a slot over, and moves past the slot afterwards. It
can be interrupted in between, and then hands the same value over once more.
What it has delivered in the end is every value in order, where a value is
repeated only if the reader was interrupted.
-/

namespace Mailbox

inductive Slot (α : Type) where
  | reserved
  | ready (a : α)
  | dropped
  deriving DecidableEq, Repr

def Slot.value? {α : Type} : Slot α → Option α
  | .ready a => some a
  | .reserved | .dropped => none

@[ext]
structure State (α : Type) where
  slots : List (Slot α)
  /-- The number of slots that the reader has moved past. -/
  read : Nat
  /-- The value of the next slot is handed over, and not acknowledged yet. -/
  handed : Bool
  log : List α
  deriving DecidableEq, Repr

inductive Label where
  | reserve
  | settle
  | hand
  | acknowledge
  | skip
  | interrupt
  deriving DecidableEq, Repr

inductive Step {α : Type} (m : State α) : Label → State α → Prop where
  | reserve : Step m .reserve { m with slots := m.slots ++ [.reserved] }
  | settle {i : Nat} {slot : Slot α} (hreserved : m.slots[i]? = some .reserved)
      (hslot : slot ≠ .reserved) : Step m .settle { m with slots := m.slots.set i slot }
  | hand {a : α} (hfree : m.handed = false) (hready : m.slots[m.read]? = some (.ready a)) :
      Step m .hand { m with handed := true, log := m.log ++ [a] }
  | acknowledge (hhanded : m.handed = true) :
      Step m .acknowledge { m with read := m.read + 1, handed := false }
  | skip (hfree : m.handed = false) (hdropped : m.slots[m.read]? = some .dropped) :
      Step m .skip { m with read := m.read + 1 }
  | interrupt : Step m .interrupt { m with handed := false }

variable {α : Type} {m m' : State α}

/-- The values of the slots that the reader has moved past. -/
def State.passed (m : State α) : List α := (m.slots.take m.read).filterMap Slot.value?

/-- Every value as often as its count says. -/
def repeats (counts : List Nat) (values : List α) : List α :=
  (List.zipWith List.replicate counts values).flatten

theorem repeats_append {counts counts' : List Nat} {values values' : List α}
    (h : counts.length = values.length) :
    repeats (counts ++ counts') (values ++ values') =
      repeats counts values ++ repeats counts' values' := by
  simp [repeats, List.zipWith_append h]

theorem repeats_snoc {counts : List Nat} {values : List α} (h : counts.length = values.length)
    (n : Nat) (a : α) :
    repeats (counts ++ [n]) (values ++ [a]) = repeats counts values ++ List.replicate n a := by
  rw [repeats_append h]
  simp [repeats]

/-- The log begins with the values in their order, each one or more times in a row. -/
def AtLeastOnce (values log : List α) : Prop :=
  ∃ counts rest, counts.length = values.length ∧ (∀ c ∈ counts, 0 < c) ∧
    log = repeats counts values ++ rest

theorem AtLeastOnce.front {values values' log : List α} (h : AtLeastOnce values' log)
    (hpre : values <+: values') : AtLeastOnce values log := by
  obtain ⟨counts, rest, hlength, hpos, rfl⟩ := h
  obtain ⟨values'', rfl⟩ := hpre
  have hfront : (counts.take values.length).length = values.length := by
    rw [List.length_take, hlength, List.length_append]
    omega
  refine ⟨counts.take values.length, repeats (counts.drop values.length) values'' ++ rest, hfront,
    fun c hc => hpos c (List.mem_of_mem_take hc), ?_⟩
  rw [← List.append_assoc, ← repeats_append hfront, List.take_append_drop]

/-! ## What is delivered -/

/-- How the log comes about: the values passed, each as often as counted, and then
    the next value as often as it was handed over in vain. -/
structure Account (interrupts : Nat) (m : State α) (counts : List Nat) (again : List α) : Prop where
  read_le : m.read ≤ m.slots.length
  settled : ∀ slot ∈ m.slots.take m.read, slot ≠ .reserved
  length : counts.length = m.passed.length
  pos : ∀ c ∈ counts, 0 < c
  log : m.log = repeats counts m.passed ++ again
  next : ∀ a ∈ again, m.slots[m.read]? = some (.ready a)
  handed : m.handed = true → again ≠ []
  log_le : m.log.length ≤ m.passed.length + interrupts + m.handed.toNat

/-- The reader moves past the next slot. -/
theorem passed_succ {slot : Slot α} (h : m.slots[m.read]? = some slot) :
    { m with read := m.read + 1 }.passed = m.passed ++ slot.value?.toList := by
  simp only [State.passed, List.take_add_one, h, List.filterMap_append]
  cases slot <;> rfl

theorem settled_succ {slot : Slot α} (hsettled : ∀ x ∈ m.slots.take m.read, x ≠ .reserved)
    (h : m.slots[m.read]? = some slot) (hslot : slot ≠ .reserved) :
    ∀ x ∈ m.slots.take (m.read + 1), x ≠ .reserved := by
  intro x hx
  rw [List.take_add_one, h, List.mem_append] at hx
  rcases hx with hx | hx
  · exact hsettled x hx
  · obtain rfl : x = slot := by simpa using hx
    exact hslot

namespace Account

variable {interrupts : Nat} {counts : List Nat} {again : List α}

theorem reserve (h : Account interrupts m counts again) :
    Account interrupts { m with slots := m.slots ++ [.reserved] } counts again := by
  have htake : (m.slots ++ [Slot.reserved]).take m.read = m.slots.take m.read :=
    List.take_append_of_le_length h.read_le
  have hpassed : { m with slots := m.slots ++ [Slot.reserved] }.passed = m.passed := by
    simp only [State.passed, htake]
  refine ⟨?_, ?_, ?_, h.pos, ?_, ?_, h.handed, ?_⟩
  · exact Nat.le_trans h.read_le (by simp)
  · simpa only [htake] using h.settled
  · exact hpassed ▸ h.length
  · exact hpassed ▸ h.log
  · intro a ha
    have hready := h.next a ha
    obtain ⟨hlt, -⟩ := List.getElem?_eq_some_iff.mp hready
    simpa only [List.getElem?_append_left hlt] using hready
  · exact hpassed ▸ h.log_le

/-- A reserved slot lies behind those passed. -/
theorem read_le_of_reserved {i : Nat} (h : Account interrupts m counts again)
    (hreserved : m.slots[i]? = some .reserved) : m.read ≤ i := by
  by_contra hlt
  refine h.settled .reserved ?_ rfl
  apply List.mem_of_getElem?
  · rw [List.getElem?_take_of_lt (Nat.lt_of_not_le hlt)]
    exact hreserved

theorem settle {i : Nat} {slot : Slot α} (h : Account interrupts m counts again)
    (hreserved : m.slots[i]? = some .reserved) :
    Account interrupts { m with slots := m.slots.set i slot } counts again := by
  have hle := h.read_le_of_reserved hreserved
  have htake : (m.slots.set i slot).take m.read = m.slots.take m.read := List.take_set_of_le hle
  have hpassed : { m with slots := m.slots.set i slot }.passed = m.passed := by
    simp only [State.passed, htake]
  refine ⟨?_, ?_, ?_, h.pos, ?_, ?_, h.handed, ?_⟩
  · simpa only [List.length_set] using h.read_le
  · simpa only [htake] using h.settled
  · exact hpassed ▸ h.length
  · exact hpassed ▸ h.log
  · intro a ha
    have hready := h.next a ha
    -- The next slot is ready, so it is not the one that is settled.
    have hne : i ≠ m.read := by
      rintro rfl
      simp [hreserved] at hready
    simpa only [List.getElem?_set_ne hne] using hready
  · exact hpassed ▸ h.log_le

theorem hand {a : α} (h : Account interrupts m counts again) (hfree : m.handed = false)
    (hready : m.slots[m.read]? = some (.ready a)) :
    Account interrupts { m with handed := true, log := m.log ++ [a] } counts (again ++ [a]) := by
  refine ⟨h.read_le, h.settled, h.length, h.pos, ?_, ?_, ?_, ?_⟩
  · simp only [h.log, List.append_assoc]
    rfl
  · intro b hb
    rcases List.mem_append.mp hb with hb | hb
    · exact h.next b hb
    · obtain rfl : b = a := List.mem_singleton.mp hb
      exact hready
  · simp
  · have hlog := h.log_le
    simp only [hfree, Bool.toNat_false, Nat.add_zero] at hlog
    simp only [List.length_append, List.length_singleton, Bool.toNat_true]
    exact Nat.add_le_add_right hlog 1

theorem acknowledge (h : Account interrupts m counts again) (hhanded : m.handed = true) :
    Account interrupts { m with read := m.read + 1, handed := false }
      (counts ++ [again.length]) [] := by
  obtain ⟨a, ha⟩ := List.exists_mem_of_ne_nil again (h.handed hhanded)
  have hready := h.next a ha
  obtain ⟨hlt, -⟩ := List.getElem?_eq_some_iff.mp hready
  have hpassed : { m with read := m.read + 1, handed := false }.passed = m.passed ++ [a] :=
    passed_succ hready
  -- What was handed over is one and the same value.
  have hagain : again = List.replicate again.length a := by
    refine List.eq_replicate_iff.mpr ⟨rfl, fun b hb => ?_⟩
    have hb := h.next b hb
    rw [hready] at hb
    exact (Slot.ready.inj (Option.some.inj hb)).symm
  refine ⟨hlt, ?_, ?_, ?_, ?_, by simp, by simp, ?_⟩
  · exact settled_succ h.settled hready (by simp)
  · simp [hpassed, h.length]
  · intro c hc
    rcases List.mem_append.mp hc with hc | hc
    · exact h.pos c hc
    · obtain rfl : c = again.length := List.mem_singleton.mp hc
      exact List.length_pos_of_mem ha
  · rw [hpassed, repeats_snoc h.length, ← hagain, List.append_nil]
    exact h.log
  · have hlog := h.log_le
    simp only [hhanded, Bool.toNat_true] at hlog
    simp only [hpassed, List.length_append, List.length_singleton, Bool.toNat_false]
    omega

theorem skip (h : Account interrupts m counts again) (hfree : m.handed = false)
    (hdropped : m.slots[m.read]? = some .dropped) :
    again = [] ∧ Account interrupts { m with read := m.read + 1 } counts [] := by
  have hpassed : { m with read := m.read + 1 }.passed = m.passed := by
    rw [passed_succ hdropped]
    exact List.append_nil _
  obtain rfl : again = [] := by
    refine List.eq_nil_iff_forall_not_mem.mpr fun a ha => ?_
    have hready := h.next a ha
    simp [hdropped] at hready
  obtain ⟨hlt, -⟩ := List.getElem?_eq_some_iff.mp hdropped
  refine ⟨rfl, hlt, ?_, ?_, h.pos, ?_, by simp, ?_, ?_⟩
  · exact settled_succ h.settled hdropped (by simp)
  · exact hpassed ▸ h.length
  · exact hpassed ▸ h.log
  · intro hhanded
    rw [hfree] at hhanded
    exact absurd hhanded (by simp)
  · exact hpassed ▸ h.log_le

theorem interrupt (h : Account interrupts m counts again) :
    Account (interrupts + 1) { m with handed := false } counts again := by
  refine ⟨h.read_le, h.settled, h.length, h.pos, h.log, h.next, by simp, ?_⟩
  have hlog := h.log_le
  have hhanded := Bool.toNat_le m.handed
  change m.log.length ≤ m.passed.length + (interrupts + 1) + 0
  omega

end Account

/-- A step, whose label counts if it is an interruption. -/
theorem account_step {interrupts : Nat} {label : Label}
    (h : ∃ counts again, Account interrupts m counts again) (hstep : Step m label m') :
    ∃ counts again, Account (interrupts + [label].count .interrupt) m' counts again := by
  obtain ⟨counts, again, h⟩ := h
  cases hstep with
  | reserve => exact ⟨counts, again, h.reserve⟩
  | settle hreserved hslot => exact ⟨counts, again, h.settle hreserved⟩
  | hand hfree hready => exact ⟨counts, _, h.hand hfree hready⟩
  | acknowledge hhanded => exact ⟨_, [], h.acknowledge hhanded⟩
  | skip hfree hdropped => exact ⟨counts, [], (h.skip hfree hdropped).2⟩
  | interrupt => exact ⟨counts, again, h.interrupt⟩

def empty (α : Type) : State α := ⟨[], 0, false, []⟩

/-- Over every run, the log is accounted for with the number of interruptions. -/
theorem run_account {labels : List Label} (hrun : Lts.Run Step Lts.Any (empty α) labels m) :
    ∃ counts again, Account (labels.count .interrupt) m counts again := by
  apply hrun.invariant (fun labels m =>
    ∃ counts again, Account (labels.count .interrupt) m counts again)
  · exact ⟨[], [], by simp [empty], by simp [empty], rfl, by simp, rfl, by simp, by simp [empty],
      by simp [empty]⟩
  · intro labels m label m' h hstep _
    rw [List.count_append]
    exact account_step h hstep

end Mailbox
