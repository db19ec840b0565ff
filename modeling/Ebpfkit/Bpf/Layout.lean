-- SUMMARY: Code laid out block by block, the tables an emitter keeps of it, and patching the blocks afterwards.
import Mathlib.Algebra.Order.Ring.Nat
import Mathlib.Tactic.Common

/-!
# Layout

An emitter that walks a list of items, appends a block of code for each, and
notes addresses in tables, followed by passes that overwrite placeholders: the
result is again laid out block by block. The block of an item may depend on the
address it starts at, which is how jumps inside it know their offsets.
-/

namespace Bpf

variable {ι β : Type}

/-- The items with the addresses their blocks start at. -/
def placed (size : ι → Nat) : Nat → List ι → List (Nat × ι)
  | _, [] => []
  | start, x :: xs => (start, x) :: placed size (start + size x) xs

/-- The blocks of the items, one after the other from address `start`. -/
def assemble (size : ι → Nat) (block : Nat → ι → List β) : Nat → List ι → List β
  | _, [] => []
  | start, x :: xs => block start x ++ assemble size block (start + size x) xs

/-- The number of instructions in the blocks of the items. -/
def extent (size : ι → Nat) (xs : List ι) : Nat := (xs.map size).sum

variable {size : ι → Nat} {block : Nat → ι → List β}

@[simp] theorem extent_nil : extent size [] = 0 := rfl

@[simp] theorem extent_cons (x : ι) (xs : List ι) :
    extent size (x :: xs) = size x + extent size xs := by
  simp [extent]

theorem extent_const (n : Nat) (xs : List ι) : extent (fun _ => n) xs = n * xs.length := by
  induction xs with
  | nil => simp
  | cons x xs ih => rw [extent_cons, ih, List.length_cons, Nat.mul_succ, Nat.add_comm]

theorem length_assemble (hsize : ∀ start x, (block start x).length = size x) (start : Nat)
    (xs : List ι) : (assemble size block start xs).length = extent size xs := by
  induction xs generalizing start with
  | nil => rfl
  | cons x xs ih => rw [assemble, List.length_append, hsize, ih, extent_cons]

theorem getElem?_placed {start k p : Nat} {x : ι} {xs : List ι}
    (h : (placed size start xs)[k]? = some (p, x)) : xs[k]? = some x := by
  induction xs generalizing start k with
  | nil => simp [placed] at h
  | cons y ys ih =>
    cases k with
    | zero =>
      simp only [placed, List.getElem?_cons_zero, Option.some.injEq, Prod.mk.injEq] at h
      simp [h.2]
    | succ k =>
      simp only [placed, List.getElem?_cons_succ] at h
      exact ih h

/-- A block lies inside the layout. -/
theorem placed_bounds {start p : Nat} {x : ι} {xs : List ι} (h : (p, x) ∈ placed size start xs) :
    start ≤ p ∧ p + size x ≤ start + extent size xs := by
  induction xs generalizing start with
  | nil => simp [placed] at h
  | cons y ys ih =>
    rw [extent_cons]
    rcases List.mem_cons.mp h with heq | hmem
    · cases heq
      exact ⟨Nat.le_refl _, by omega⟩
    · obtain ⟨hlo, hhi⟩ := ih hmem
      exact ⟨by omega, by omega⟩

/-- The block after the one at `p` starts where that one ends. -/
theorem placed_next {start k p : Nat} {x : ι} {xs : List ι}
    (h : (placed size start xs)[k]? = some (p, x)) :
    (((placed size start xs).map Prod.fst)[k + 1]?).getD (start + extent size xs) = p + size x := by
  induction xs generalizing start k with
  | nil => simp [placed] at h
  | cons y ys ih =>
    cases k with
    | zero =>
      simp only [placed, List.getElem?_cons_zero, Option.some.injEq, Prod.mk.injEq] at h
      obtain ⟨rfl, rfl⟩ := h
      cases ys with
      | nil => simp [placed]
      | cons z zs => simp [placed]
    | succ k =>
      simp only [placed, List.getElem?_cons_succ] at h
      have := ih h
      simp only [placed, List.map_cons, List.getElem?_cons_succ, extent_cons]
      rw [← Nat.add_assoc]
      exact this

/-- Every instruction of the layout belongs to the block of some item. -/
theorem getElem?_assemble (hsize : ∀ start x, (block start x).length = size x) {start k : Nat}
    {xs : List ι} {c : β} (h : (assemble size block start xs)[k]? = some c) :
    ∃ p x j, (p, x) ∈ placed size start xs ∧ (block p x)[j]? = some c ∧ start + k = p + j := by
  induction xs generalizing start k with
  | nil => simp [assemble] at h
  | cons y ys ih =>
    rw [assemble] at h
    by_cases hk : k < (block start y).length
    · rw [List.getElem?_append_left hk] at h
      exact ⟨start, y, k, List.mem_cons_self, h, rfl⟩
    · rw [List.getElem?_append_right (by omega), hsize] at h
      obtain ⟨p, x, j, hmem, hget, hpos⟩ := ih h
      rw [hsize] at hk
      exact ⟨p, x, j, List.mem_cons_of_mem _ hmem, hget, by omega⟩

/-- What holds of every instruction of every block holds of the whole layout. -/
theorem forall_mem_assemble {Q : β → Prop} (h : ∀ p x, ∀ c ∈ block p x, Q c) {start : Nat}
    {xs : List ι} : ∀ c ∈ assemble size block start xs, Q c := by
  induction xs generalizing start with
  | nil => simp [assemble]
  | cons x xs ih => exact List.forall_mem_append.mpr ⟨h start x, ih⟩

/-! ## Instructions at their addresses -/

/-- Every instruction of `code`, laid out from address `pc`, satisfies `P` there. -/
def EachAt (P : Nat → β → Prop) (pc : Nat) (code : List β) : Prop :=
  ∀ k c, code[k]? = some c → P (pc + k) c

namespace EachAt

variable {P : Nat → β → Prop} {pc : Nat} {c : β} {a b : List β}

theorem nil : EachAt P pc [] := by
  intro k c h
  simp at h

theorem cons (hhead : P pc c) (htail : EachAt P (pc + 1) a) : EachAt P pc (c :: a) := by
  intro k d hd
  cases k with
  | zero =>
    rw [List.getElem?_cons_zero, Option.some.injEq] at hd
    rw [← hd]
    exact hhead
  | succ k =>
    rw [List.getElem?_cons_succ] at hd
    have := htail k d hd
    rwa [Nat.add_assoc, Nat.add_comm 1 k] at this

theorem append (ha : EachAt P pc a) (hb : EachAt P (pc + a.length) b) : EachAt P pc (a ++ b) := by
  intro k d hd
  by_cases hk : k < a.length
  · rw [List.getElem?_append_left hk] at hd
    exact ha k d hd
  · rw [List.getElem?_append_right (by omega)] at hd
    have := hb _ d hd
    rwa [Nat.add_assoc, Nat.add_sub_cancel' (by omega)] at this

theorem append_at {q : Nat} (ha : EachAt P pc a) (hq : pc + a.length = q) (hb : EachAt P q b) :
    EachAt P pc (a ++ b) :=
  .append ha (hq ▸ hb)

/-- A layout is checked block by block. -/
theorem assemble (hsize : ∀ start x, (block start x).length = size x) {xs : List ι}
    (h : ∀ p x, (p, x) ∈ placed size pc xs → EachAt P p (block p x)) :
    EachAt P pc (assemble size block pc xs) := by
  intro k c hget
  obtain ⟨p, x, j, hmem, hblock, hpos⟩ := getElem?_assemble hsize hget
  rw [hpos]
  exact h p x hmem j c hblock

end EachAt

/-! ## Emitting -/

/-- An emitter that appends the block of each item, and one entry to a table. -/
theorem foldl_emit {σ τ : Type} (emit : σ → ι → σ) (prog : σ → List β) (table : σ → List τ)
    (entry : Nat × ι → τ) (hsize : ∀ start x, (block start x).length = size x)
    (hprog : ∀ s x, prog (emit s x) = prog s ++ block (prog s).length x)
    (htable : ∀ s x, table (emit s x) = table s ++ [entry ((prog s).length, x)])
    (s : σ) (xs : List ι) :
    prog (xs.foldl emit s) = prog s ++ assemble size block (prog s).length xs ∧
    table (xs.foldl emit s) = table s ++ (placed size (prog s).length xs).map entry := by
  induction xs generalizing s with
  | nil => simp [assemble, placed]
  | cons x xs ih =>
    obtain ⟨hp, ht⟩ := ih (emit s x)
    have hlen : (prog (emit s x)).length = (prog s).length + size x := by
      rw [hprog, List.length_append, hsize]
    rw [hlen] at hp ht
    refine ⟨?_, ?_⟩
    · rw [List.foldl_cons, hp, hprog, List.append_assoc, assemble]
    · rw [List.foldl_cons, ht, htable, List.append_assoc, placed, List.map_cons,
        List.singleton_append]

/-! ## Patching -/

/-- A pass that turns each block into its patched form, whatever surrounds it,
    turns the layout into the layout of the patched blocks. -/
theorem foldl_patch (block block' : Nat → ι → List β) (patch : List β → Nat × ι → List β)
    (start : Nat) (xs : List ι) (hsize : ∀ start x, (block' start x).length = size x)
    (hpatch : ∀ p x pre post, (p, x) ∈ placed size start xs → pre.length = p →
      patch (pre ++ (block p x ++ post)) (p, x) = pre ++ (block' p x ++ post))
    (pre post : List β) (hpre : pre.length = start) :
    (placed size start xs).foldl patch (pre ++ (assemble size block start xs ++ post)) =
      pre ++ (assemble size block' start xs ++ post) := by
  induction xs generalizing start pre with
  | nil => rfl
  | cons x xs ih =>
    simp only [placed, assemble, List.foldl_cons, List.append_assoc]
    rw [hpatch start x pre _ List.mem_cons_self hpre, ← List.append_assoc pre]
    rw [ih _ (fun p y pre' post' hmem => hpatch p y pre' post' (List.mem_cons_of_mem _ hmem)) _
      (by rw [List.length_append, hsize, hpre]), List.append_assoc]

/-- A pass driven by a table and by the positions in it is a pass over the items. -/
theorem foldl_zipIdx {σ α : Type} {f : σ → α × Nat → σ} {g : σ → α → σ} {l : List α} {n : Nat}
    (h : ∀ k a, l[k]? = some a → ∀ s, f s (a, n + k) = g s a) (s : σ) :
    (l.zipIdx n).foldl f s = l.foldl g s := by
  induction l generalizing n s with
  | nil => rfl
  | cons a l ih =>
    have h0 : f s (a, n) = g s a := h 0 a rfl s
    rw [List.zipIdx_cons, List.foldl_cons, List.foldl_cons, h0]
    refine ih (fun k b hb s => ?_) _
    rw [Nat.add_assoc, Nat.add_comm 1 k]
    exact h (k + 1) b hb s

end Bpf
