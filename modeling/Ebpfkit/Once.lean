-- SUMMARY: One-time initialization: which caller runs the closure, what others may conclude, and that nobody waits for ever.
import Ebpfkit.Lts
import Mathlib.Logic.Function.Basic

/-!
# One-time initialization

Callers come to a `Once` with a closure each. The first one that gets in runs its
closure; the others wait until it is done, and then go past without running theirs.
If the closure panics, the `Once` is poisoned, and every other caller panics too.
-/

namespace Once

inductive State where
  | incomplete
  | running
  | complete
  | poisoned
  deriving DecidableEq, Repr

/-- Where a caller is, with the closure it brings. -/
inductive Place (α : Type) where
  | outside
  | waiting (a : α)
  | running (a : α)
  /-- The closure has done its work, and has not returned yet. -/
  | ran (a : α)
  | past (a : α)
  | unwound (a : α)
  deriving DecidableEq, Repr

/-- A `Once` with its callers, and the closures that have done their work. -/
structure System (τ α : Type) where
  state : State
  place : τ → Place α
  effects : List (τ × α)

inductive Act (α : Type) where
  | arrive (a : α)
  | enter
  | work
  | fail
  | finish
  | skip
  | panic
  deriving DecidableEq, Repr

variable {τ α : Type}

def System.initial : System τ α := ⟨.incomplete, fun _ => .outside, []⟩

section Steps

variable [DecidableEq τ]

/-- A caller goes to another place, and the `Once` to another state. -/
def System.move (s : System τ α) (t : τ) (p : Place α) (state : State) : System τ α where
  state
  place := Function.update s.place t p
  effects := s.effects

/-- One step of a caller. While the closure runs, a waiting caller makes none. -/
inductive Step (s : System τ α) : τ × Act α → System τ α → Prop where
  | arrive {t : τ} (a : α) (h : s.place t = .outside) :
      Step s (t, .arrive a) (s.move t (.waiting a) s.state)
  | enter {t : τ} {a : α} (h : s.place t = .waiting a) (hstate : s.state = .incomplete) :
      Step s (t, .enter) (s.move t (.running a) .running)
  | work {t : τ} {a : α} (h : s.place t = .running a) :
      Step s (t, .work) { s.move t (.ran a) s.state with effects := s.effects ++ [(t, a)] }
  | fail {t : τ} {a : α} (h : s.place t = .running a) :
      Step s (t, .fail) (s.move t (.unwound a) .poisoned)
  | finish {t : τ} {a : α} (h : s.place t = .ran a) :
      Step s (t, .finish) (s.move t (.past a) .complete)
  | skip {t : τ} {a : α} (h : s.place t = .waiting a) (hstate : s.state = .complete) :
      Step s (t, .skip) (s.move t (.past a) s.state)
  | panic {t : τ} {a : α} (h : s.place t = .waiting a) (hstate : s.state = .poisoned) :
      Step s (t, .panic) (s.move t (.unwound a) s.state)

end Steps

/-! ## The invariant -/

/-- The caller has not got into the `Once`. -/
inductive Place.Idle : Place α → Prop where
  | outside : Idle .outside
  | waiting (a : α) : Idle (.waiting a)

/-- Where a caller can be once a closure has returned. -/
inductive Place.Passing : Place α → Prop where
  | outside : Passing .outside
  | waiting (a : α) : Passing (.waiting a)
  | past (a : α) : Passing (.past a)

/-- Where a caller can be once a closure has panicked. -/
inductive Place.Failing : Place α → Prop where
  | outside : Failing .outside
  | waiting (a : α) : Failing (.waiting a)
  | unwound (a : α) : Failing (.unwound a)

theorem Place.Idle.passing {p : Place α} (h : p.Idle) : p.Passing := by
  cases h with
  | outside => exact .outside
  | waiting a => exact .waiting a

theorem Place.Idle.failing {p : Place α} (h : p.Idle) : p.Failing := by
  cases h with
  | outside => exact .outside
  | waiting a => exact .waiting a

/-- What each state of the `Once` says about its callers, and about what is done. -/
inductive Inv : State → (τ → Place α) → List (τ × α) → Prop where
  | incomplete {place : τ → Place α} (hidle : ∀ t, (place t).Idle) : Inv .incomplete place []
  | running {place : τ → Place α} {t : τ} {a : α} (hrunning : place t = .running a)
      (hidle : ∀ t', t' ≠ t → (place t').Idle) : Inv .running place []
  | ran {place : τ → Place α} {t : τ} {a : α} (hran : place t = .ran a)
      (hidle : ∀ t', t' ≠ t → (place t').Idle) : Inv .running place [(t, a)]
  | complete {place : τ → Place α} {t : τ} {a : α} (hpast : place t = .past a)
      (hpassing : ∀ t', (place t').Passing) : Inv .complete place [(t, a)]
  | poisoned {place : τ → Place α} (hfailing : ∀ t, (place t).Failing) : Inv .poisoned place []

section Invariant

variable {state : State} {place : τ → Place α} {effects : List (τ × α)} {t : τ} {a : α}

/-- While a closure runs, every other caller is kept out, and nothing is done yet. -/
theorem Inv.of_running (h : Inv state place effects) (hplace : place t = .running a) :
    effects = [] ∧ ∀ t', t' ≠ t → (place t').Idle := by
  cases h with
  | incomplete hidle => cases hplace ▸ hidle t
  | @running _ t₀ _ _ hidle =>
    by_cases heq : t = t₀
    · exact ⟨rfl, heq ▸ hidle⟩
    · cases hplace ▸ hidle t heq
  | @ran _ t₀ _ hran hidle =>
    by_cases heq : t = t₀
    · cases hplace.symm.trans (heq ▸ hran)
    · cases hplace ▸ hidle t heq
  | complete _ hpassing => cases hplace ▸ hpassing t
  | poisoned hfailing => cases hplace ▸ hfailing t

/-- A closure that has done its work is the only one, and every other caller is still
    kept out. -/
theorem Inv.of_ran (h : Inv state place effects) (hplace : place t = .ran a) :
    effects = [(t, a)] ∧ ∀ t', t' ≠ t → (place t').Idle := by
  cases h with
  | incomplete hidle => cases hplace ▸ hidle t
  | @running _ t₀ _ hrunning hidle =>
    by_cases heq : t = t₀
    · cases hplace.symm.trans (heq ▸ hrunning)
    · cases hplace ▸ hidle t heq
  | @ran _ t₀ _ hran hidle =>
    by_cases heq : t = t₀
    · subst heq
      cases hplace.symm.trans hran
      exact ⟨rfl, hidle⟩
    · cases hplace ▸ hidle t heq
  | complete _ hpassing => cases hplace ▸ hpassing t
  | poisoned hfailing => cases hplace ▸ hfailing t

/-- A caller goes past only once the work of one of the callers is done. -/
theorem Inv.of_past (h : Inv state place effects) (hplace : place t = .past a) :
    ∃ t₀ b, place t₀ = .past b ∧ effects = [(t₀, b)] := by
  cases h with
  | incomplete hidle => cases hplace ▸ hidle t
  | @running _ t₀ _ hrunning hidle =>
    by_cases heq : t = t₀
    · cases hplace.symm.trans (heq ▸ hrunning)
    · cases hplace ▸ hidle t heq
  | @ran _ t₀ _ hran hidle =>
    by_cases heq : t = t₀
    · cases hplace.symm.trans (heq ▸ hran)
    · cases hplace ▸ hidle t heq
  | @complete _ t₀ b hpast _ => exact ⟨t₀, b, hpast, rfl⟩
  | poisoned hfailing => cases hplace ▸ hfailing t

/-- A caller that unwinds has met a closure that did not do its work. -/
theorem Inv.of_unwound (h : Inv state place effects) (hplace : place t = .unwound a) :
    effects = [] ∧ ∀ t' b, place t' ≠ .past b := by
  cases h with
  | incomplete hidle => cases hplace ▸ hidle t
  | @running _ t₀ _ hrunning hidle =>
    by_cases heq : t = t₀
    · cases hplace.symm.trans (heq ▸ hrunning)
    · cases hplace ▸ hidle t heq
  | @ran _ t₀ _ hran hidle =>
    by_cases heq : t = t₀
    · cases hplace.symm.trans (heq ▸ hran)
    · cases hplace ▸ hidle t heq
  | complete _ hpassing => cases hplace ▸ hpassing t
  | poisoned hfailing =>
    refine ⟨rfl, ?_⟩
    intro t' b hpast
    cases hpast ▸ hfailing t'

theorem Inv.length_le (h : Inv state place effects) : effects.length ≤ 1 := by
  cases h <;> simp

/-- What is done was done by a caller that has come to the end of its closure. -/
theorem Inv.of_effects (h : Inv state place effects) (hmem : (t, a) ∈ effects) :
    place t = .ran a ∨ place t = .past a := by
  cases h with
  | incomplete _ | running _ _ | poisoned _ => cases hmem
  | ran hran _ =>
    cases List.mem_singleton.mp hmem
    exact .inl hran
  | complete hpast _ =>
    cases List.mem_singleton.mp hmem
    exact .inr hpast

variable [DecidableEq τ] {p : Place α}

/-- Every caller but the one that moves is where it was. -/
theorem update_rule {P : τ → Place α → Prop} (hmoved : P t p)
    (hothers : ∀ t', t' ≠ t → P t' (place t')) : ∀ t', P t' (Function.update place t p t') := by
  intro t'
  by_cases heq : t' = t
  · subst heq
    rw [Function.update_self]
    exact hmoved
  · rw [Function.update_of_ne heq]
    exact hothers t' heq

/-- The others are still kept out when one of them moves. -/
theorem idle_update (hidle : ∀ t', t' ≠ t → (place t').Idle) :
    ∀ t', t' ≠ t → (Function.update place t p t').Idle := by
  intro t' hne
  rw [Function.update_of_ne hne]
  exact hidle t' hne

/-- A caller that arrives changes nothing for the others. -/
theorem Inv.arrive (h : Inv state place effects) (hplace : place t = .outside) (a : α) :
    Inv state (Function.update place t (.waiting a)) effects := by
  have hkeep : ∀ {t' : τ} {p : Place α}, place t' = p → p ≠ .outside →
      Function.update place t (.waiting a) t' = p := by
    rintro t' p rfl hne
    refine Function.update_of_ne ?_ ..
    rintro rfl
    exact hne hplace
  have hidle : ∀ {t₀ : τ}, (∀ t', t' ≠ t₀ → (place t').Idle) →
      ∀ t', t' ≠ t₀ → (Function.update place t (.waiting a) t').Idle := by
    intro t₀ hothers
    exact update_rule (P := fun t' p => t' ≠ t₀ → p.Idle) (fun _ => .waiting a)
      fun t' _ => hothers t'
  cases h with
  | incomplete hall => exact .incomplete (update_rule (.waiting a) fun t' _ => hall t')
  | running hrunning hothers => exact .running (hkeep hrunning nofun) (hidle hothers)
  | ran hran hothers => exact .ran (hkeep hran nofun) (hidle hothers)
  | complete hpast hpassing =>
    exact .complete (hkeep hpast nofun) (update_rule (.waiting a) fun t' _ => hpassing t')
  | poisoned hfailing =>
    exact .poisoned (update_rule (.waiting a) fun t' _ => hfailing t')

theorem step_inv {s s' : System τ α} {act : τ × Act α} (h : Inv s.state s.place s.effects)
    (hstep : Step s act s') : Inv s'.state s'.place s'.effects := by
  obtain ⟨state, place, effects⟩ := s
  cases hstep with
  | arrive a hplace => exact h.arrive hplace a
  | enter hplace hstate =>
    cases hstate
    cases h with
    | incomplete hidle => exact .running (Function.update_self ..) (idle_update fun t' _ => hidle t')
  | work hplace =>
    obtain ⟨rfl, hidle⟩ := h.of_running hplace
    cases h with
    | incomplete hidle => cases hplace ▸ hidle _
    | running _ _ => exact .ran (Function.update_self ..) (idle_update hidle)
    | poisoned hfailing => cases hplace ▸ hfailing _
  | @fail t a hplace =>
    obtain ⟨rfl, hidle⟩ := h.of_running hplace
    exact .poisoned (update_rule (.unwound a) fun t' hne => (hidle t' hne).failing)
  | @finish t a hplace =>
    obtain ⟨rfl, hidle⟩ := h.of_ran hplace
    exact .complete (Function.update_self ..)
      (update_rule (.past a) fun t' hne => (hidle t' hne).passing)
  | @skip t a hplace hstate =>
    cases hstate
    cases h with
    | complete hpast hpassing =>
      refine .complete ?_ (update_rule (.past a) fun t' _ => hpassing t')
      refine (Function.update_of_ne ?_ ..).trans hpast
      rintro rfl
      cases hplace.symm.trans hpast
  | @panic t a hplace hstate =>
    cases hstate
    cases h with
    | poisoned hfailing => exact .poisoned (update_rule (.unwound a) fun t' _ => hfailing t')

/-- A caller that waits does so for one that can go on. -/
theorem exists_step {s : System τ α} (h : Inv s.state s.place s.effects)
    (hplace : s.place t = .waiting a) :
    ∃ t' act s', s.place t' ≠ .outside ∧ Step s (t', act) s' := by
  obtain ⟨state, place, effects⟩ := s
  cases h with
  | incomplete _ => exact ⟨t, .enter, _, by rw [hplace]; exact nofun, .enter hplace rfl⟩
  | running hrunning _ => exact ⟨_, .work, _, by rw [hrunning]; exact nofun, .work hrunning⟩
  | ran hran _ => exact ⟨_, .finish, _, by rw [hran]; exact nofun, .finish hran⟩
  | complete _ _ => exact ⟨t, .skip, _, by rw [hplace]; exact nofun, .skip hplace rfl⟩
  | poisoned _ => exact ⟨t, .panic, _, by rw [hplace]; exact nofun, .panic hplace rfl⟩

end Invariant

theorem inv_initial : Inv .incomplete (fun _ : τ => (.outside : Place α)) [] :=
  .incomplete fun _ => .outside

end Once
