-- SUMMARY: Programs as the calls they make: one against fixed answers, and many at the same time on a state that they share.
import Ebpfkit.Lts
import Mathlib.Logic.Function.Basic

/-!
# Interactions

A program is seen as the calls it makes: each node of the tree is a call, with
one branch for every answer. Run alone, a program returns a value that depends on
the answers only. Run with others, the programs share a state, which also an
environment may change between their calls.
-/

inductive Interaction (C : Type) (Answer : C → Type) (ρ : Type) where
  | ret (r : ρ)
  | call (c : C) (k : Answer c → Interaction C Answer ρ)

namespace Interaction

variable {C : Type} {Answer : C → Type} {ρ τ : Type}

def bind : Interaction C Answer ρ → (ρ → Interaction C Answer τ) → Interaction C Answer τ
  | .ret r, k => k r
  | .call c f, k => .call c fun a => (f a).bind k

/-! ## One program -/

/-- The value that a program returns if its calls are answered like this. -/
def run (answer : (c : C) → Answer c) : Interaction C Answer ρ → ρ
  | .ret r => r
  | .call c k => (k (answer c)).run answer

section One

variable {answer : (c : C) → Answer c} {p q : Interaction C Answer ρ}

end One

/-! ## Many programs -/

/-- Programs that run at the same time, and the state that they share. -/
structure Pool (C : Type) (Answer : C → Type) (ρ ι σ : Type) where
  shared : σ
  program : ι → Interaction C Answer ρ

section Advance

variable {ι σ : Type} [DecidableEq ι]

/-- One program goes on, and the shared state changes. -/
def Pool.advance (w : Pool C Answer ρ ι σ) (i : ι) (p : Interaction C Answer ρ) (s : σ) :
    Pool C Answer ρ ι σ where
  shared := s
  program := Function.update w.program i p

variable (w : Pool C Answer ρ ι σ) {i j : ι} (p : Interaction C Answer ρ) (s : σ)

@[simp] theorem Pool.advance_shared : (w.advance i p s).shared = s := rfl

end Advance

/-- A call of one of the programs, with its answer and what it did to the shared
    state, or a step of the environment. -/
inductive Act (C : Type) (Answer : C → Type) (ι ω ε : Type) where
  | call (i : ι) (c : C) (a : Answer c) (o : ω)
  | env (e : ε)

variable {ι σ ω ε : Type} [DecidableEq ι]

variable (answers : σ → (c : C) → Answer c → ω → σ → Prop)
  (environment : Pool C Answer ρ ι σ → ε → σ → Prop)

/-- One program makes its next call, or the environment makes a step. -/
inductive Step : Pool C Answer ρ ι σ → Act C Answer ι ω ε → Pool C Answer ρ ι σ → Prop where
  | call {w : Pool C Answer ρ ι σ} {i : ι} {c : C} {k : Answer c → Interaction C Answer ρ}
      {a : Answer c} {o : ω} {s : σ} (hnext : w.program i = .call c k)
      (hanswer : answers w.shared c a o s) :
      Step w (.call i c a o) (w.advance i (k a) s)
  | env {w : Pool C Answer ρ ι σ} {e : ε} {s : σ} (hstep : environment w e s) :
      Step w (.env e) ⟨s, w.program⟩

section Runs

variable {answers environment} {start w : Pool C Answer ρ ι σ} {as : List (Act C Answer ι ω ε)}

end Runs

end Interaction
