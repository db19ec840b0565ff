-- SUMMARY: Runs of labelled transition systems: invariants over the history, what holds since when, runs that reach a final state, and simulation.
import Mathlib.Data.List.Induction
import Mathlib.Tactic.Common

/-!
# Labelled transition systems

A system is a step relation between states, labelled with actions, together with
an environment that decides which actions are allowed after a history. A run
keeps its actions, so that an invariant can speak of the history as well as of
the state.
-/

namespace Lts

variable {σ α : Type}

/-- Allowed actions that lead, in order, from `s` to the last state. -/
inductive Run (step : σ → α → σ → Prop) (Allowed : List α → α → Prop) (s : σ) :
    List α → σ → Prop where
  | nil : Run step Allowed s [] s
  | snoc {as : List α} {t u : σ} {a : α} :
      Run step Allowed s as t → step t a u → Allowed as a → Run step Allowed s (as ++ [a]) u

/-- The environment that allows everything. -/
def Any (_ : List α) (_ : α) : Prop := True

variable {step : σ → α → σ → Prop} {Allowed : List α → α → Prop} {s t : σ} {as : List α}

/-- What holds at the start and is preserved by every allowed step holds after
    every run. -/
theorem Run.invariant (Inv : List α → σ → Prop) (hinit : Inv [] s)
    (hstep : ∀ as t a u, Inv as t → step t a u → Allowed as a → Inv (as ++ [a]) u)
    (hrun : Run step Allowed s as t) : Inv as t := by
  induction hrun with
  | nil => exact hinit
  | snoc _ hlast hallowed ih => exact hstep _ _ _ _ ih hlast hallowed

/-- If runs cannot grow beyond a bound, and a run that is not final can be
    continued, then some run is final. -/
theorem Run.exists_final {Final : σ → Prop} {bound : Nat}
    (hbound : ∀ as t, Run step Allowed s as t → as.length ≤ bound)
    (hnext : ∀ as t, Run step Allowed s as t → ¬ Final t → ∃ a u, step t a u ∧ Allowed as a) :
    ∃ as t, Run step Allowed s as t ∧ Final t := by
  by_contra hnone
  -- Otherwise there are runs of every length.
  have hgrow : ∀ n, ∃ as t, Run step Allowed s as t ∧ as.length = n := by
    intro n
    induction n with
    | zero => exact ⟨[], s, .nil, rfl⟩
    | succ n ih =>
      obtain ⟨as, t, hrun, hlen⟩ := ih
      have hopen : ¬ Final t := fun hfinal => hnone ⟨as, t, hrun, hfinal⟩
      obtain ⟨a, u, hstep, hallowed⟩ := hnext as t hrun hopen
      refine ⟨as ++ [a], u, .snoc hrun hstep hallowed, ?_⟩
      rw [List.length_append, hlen]
      rfl
  obtain ⟨as, t, hrun, hlen⟩ := hgrow (bound + 1)
  have := hbound as t hrun
  omega

theorem Run.any (hrun : Run step Allowed s as t) : Run step Any s as t := by
  induction hrun with
  | nil => exact .nil
  | snoc _ hlast _ ih => exact .snoc ih hlast trivial

/-- The state in which an action of a run was made. -/
theorem Run.split {earlier later : List α} {a : α}
    (hrun : Run step Allowed s (earlier ++ a :: later) t) :
    ∃ u v, Run step Allowed s earlier u ∧ step u a v := by
  induction later using List.reverseRecOn generalizing t with
  | nil =>
    generalize has : earlier ++ [a] = as at hrun
    cases hrun with
    | nil => simp at has
    | snoc hprefix hlast _ =>
      obtain ⟨rfl, heq⟩ := List.append_inj' has rfl
      cases heq
      exact ⟨_, _, hprefix, hlast⟩
  | append_singleton later b ih =>
    generalize has : earlier ++ a :: (later ++ [b]) = as at hrun
    cases hrun with
    | nil => simp at has
    | snoc hprefix hlast _ =>
      rw [← List.cons_append, ← List.append_assoc] at has
      obtain ⟨rfl, -⟩ := List.append_inj' has rfl
      exact ih hprefix

/-! ## Since -/

/-- Either `Init` and every action of the history satisfies `Keeps`, or some action
    satisfies `Sets` after the history before it, and every later one satisfies
    `Keeps`. -/
def Since (Init : Prop) (Sets : List α → α → Prop) (Keeps : α → Prop) (as : List α) : Prop :=
  (Init ∧ ∀ a ∈ as, Keeps a) ∨
  ∃ earlier a later, as = earlier ++ a :: later ∧ Sets earlier a ∧ ∀ b ∈ later, Keeps b

section Since

variable {Init : Prop} {Sets : List α → α → Prop} {Keeps : α → Prop}

theorem since_nil : Since Init Sets Keeps [] ↔ Init := by
  simp [Since]

theorem since_snoc {a : α} :
    Since Init Sets Keeps (as ++ [a]) ↔ Sets as a ∨ (Since Init Sets Keeps as ∧ Keeps a) := by
  have hmem : ∀ bs : List α, (∀ b ∈ bs ++ [a], Keeps b) ↔ (∀ b ∈ bs, Keeps b) ∧ Keeps a := by
    intro bs
    simp [or_imp, forall_and]
  constructor
  · rintro (⟨hinit, hall⟩ | ⟨earlier, b, later, heq, hsets, hall⟩)
    · rw [hmem] at hall
      exact .inr ⟨.inl ⟨hinit, hall.1⟩, hall.2⟩
    · rcases List.eq_nil_or_concat later with rfl | ⟨later, last, rfl⟩
      · obtain ⟨rfl, hlast⟩ := List.append_inj' heq rfl
        obtain rfl : a = b := by simpa using hlast
        exact .inl hsets
      · have hsplit : as ++ [a] = (earlier ++ b :: later) ++ [last] := by
          rw [heq, List.concat_eq_append, List.append_assoc, List.cons_append]
        obtain ⟨rfl, hlast⟩ := List.append_inj' hsplit rfl
        obtain rfl : a = last := by simpa using hlast
        rw [List.concat_eq_append, hmem] at hall
        exact .inr ⟨.inr ⟨earlier, b, later, rfl, hsets, hall.1⟩, hall.2⟩
  · rintro (hsets | ⟨⟨hinit, hall⟩ | ⟨earlier, b, later, rfl, hsets, hall⟩, hlast⟩)
    · exact .inr ⟨as, a, [], rfl, hsets, by simp⟩
    · exact .inl ⟨hinit, (hmem as).mpr ⟨hall, hlast⟩⟩
    · exact .inr ⟨earlier, b, later ++ [a], by simp, hsets, (hmem later).mpr ⟨hall, hlast⟩⟩

/-- A property that each step sets, keeps or ends holds after a run exactly if it
    has been kept since the start, or since a step that set it. -/
theorem Run.since (P : σ → Prop)
    (hstep : ∀ as t a u, Run step Allowed s as t → step t a u →
      (P u ↔ Sets as a ∨ (P t ∧ Keeps a)))
    (hrun : Run step Allowed s as t) : P t ↔ Since (P s) Sets Keeps as := by
  induction hrun with
  | nil => exact since_nil.symm
  | snoc hprefix hlast _ ih => rw [hstep _ _ _ _ hprefix hlast, since_snoc, ih]

end Since

/-! ## Simulation -/

variable {τ β γ : Type} {step' : τ → β → τ → Prop}

theorem Run.append {bs : List α} {u : σ} (hfirst : Run step Any s as t)
    (hsecond : Run step Any t bs u) : Run step Any s (as ++ bs) u := by
  induction hsecond with
  | nil => simpa using hfirst
  | snoc _ hlast _ ih =>
    rw [← List.append_assoc]
    exact .snoc ih hlast trivial

/-- The steps of one system are steps of another one, under other labels. -/
theorem Run.map {step' : σ → β → σ → Prop} (f : α → β)
    (hstep : ∀ t a u, step t a u → step' t (f a) u) (hrun : Run step Allowed s as t) :
    Run step' Any s (as.map f) t := by
  induction hrun with
  | nil => exact .nil
  | snoc _ hlast _ ih =>
    rw [List.map_append]
    exact .snoc ih (hstep _ _ _ hlast) trivial

/-- If every step of one system is matched by a run of another one that shows the
    same observations, then so is every run. -/
theorem Run.simulates (R : σ → τ → Prop) (obs : α → List γ) (obs' : β → List γ)
    (hstep : ∀ t a u t', R t t' → step t a u →
      ∃ bs u', Run step' Any t' bs u' ∧ R u u' ∧ bs.flatMap obs' = obs a)
    {s' : τ} (hinit : R s s') (hrun : Run step Allowed s as t) :
    ∃ bs t', Run step' Any s' bs t' ∧ R t t' ∧ bs.flatMap obs' = as.flatMap obs := by
  induction hrun with
  | nil => exact ⟨[], s', .nil, hinit, rfl⟩
  | snoc _ hlast _ ih =>
    obtain ⟨bs, t', hrun', hrelated, hobs⟩ := ih
    obtain ⟨cs, u', hmatch, hrelated', hobs'⟩ := hstep _ _ _ _ hrelated hlast
    refine ⟨bs ++ cs, u', hrun'.append hmatch, hrelated', ?_⟩
    simp [List.flatMap_append, hobs, hobs']

end Lts
