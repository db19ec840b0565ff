-- SUMMARY: Resources that are acquired, used and released: replay of a trace of operations, and the rules for scopes.
import Mathlib.Data.Finset.Basic
import Mathlib.Data.Finset.Lattice.Lemmas
import Mathlib.Tactic.Common

/-!
# Resources

A resource is acquired once and released once. A computation is recorded with
the operations it performs, in order; replaying them against the set of live
resources says what is live afterwards, or that an operation was illegal: a
release of what is not live, or an acquisition of what is.
-/

namespace Resource

variable {R A ρ τ : Type}

inductive Op (R : Type) where
  | acquire (r : R)
  | release (r : R)
  deriving DecidableEq, Repr

/-- A result together with the operations performed on the way to it. -/
structure Traced (R ρ : Type) where
  result : ρ
  ops : List (Op R)
  deriving DecidableEq, Repr

namespace Traced

/-- A result reached without touching a resource. -/
def pure (r : ρ) : Traced R ρ := ⟨r, []⟩

def bind (t : Traced R ρ) (k : ρ → Traced R τ) : Traced R τ :=
  ⟨(k t.result).result, t.ops ++ (k t.result).ops⟩

end Traced

/-- An operation, or a use of a resource between operations. -/
inductive Event (R A : Type) where
  | op (o : Op R)
  | use (r : R) (a : A)
  deriving DecidableEq, Repr

def Event.op? : Event R A → Option (Op R)
  | .op o => some o
  | .use _ _ => none

def Event.use? : Event R A → Option (R × A)
  | .op _ => none
  | .use r a => some (r, a)

/-- The operations of a trace, without the uses. -/
def operations (events : List (Event R A)) : List (Op R) := events.filterMap Event.op?

/-- The uses of a trace, without the operations. -/
def uses (events : List (Event R A)) : List (R × A) := events.filterMap Event.use?

/-- A result together with the operations and the uses on the way to it. -/
structure Recorded (R A ρ : Type) where
  result : ρ
  events : List (Event R A)
  deriving DecidableEq, Repr

namespace Recorded

/-- A result reached without touching a resource. -/
def pure (r : ρ) : Recorded R A ρ := ⟨r, []⟩

def ops (t : Recorded R A ρ) : List (Op R) := operations t.events

end Recorded

/-! ## Replay -/

variable [DecidableEq R] {live : Finset R} {r : R} {ops ops' : List (Op R)}

def Op.apply (live : Finset R) : Op R → Option (Finset R)
  | .acquire r => if r ∈ live then none else some (insert r live)
  | .release r => if r ∈ live then some (live.erase r) else none

/-- The resources that are live after some operations, if all of them are legal. -/
def replay (live : Finset R) : List (Op R) → Option (Finset R)
  | [] => some live
  | op :: ops => (op.apply live).bind fun live' => replay live' ops

/-- Every acquisition is of a resource that is not live at that point. This is
    what the provider of the resources owes, whatever their user does. -/
def Fresh (live : Finset R) : List (Op R) → Prop
  | [] => True
  | .acquire r :: ops => r ∉ live ∧ Fresh (insert r live) ops
  | .release r :: ops => Fresh (live.erase r) ops

instance decidableFresh : (live : Finset R) → (ops : List (Op R)) → Decidable (Fresh live ops)
  | _, [] => isTrue trivial
  | live, .acquire r :: ops =>
    have := decidableFresh (insert r live) ops
    inferInstanceAs (Decidable (r ∉ live ∧ _))
  | live, .release r :: ops => decidableFresh (live.erase r) ops

/-- All operations are legal, and what is live afterwards is what was live before. -/
def Restores (live : Finset R) (ops : List (Op R)) : Prop := replay live ops = some live

instance (live : Finset R) (ops : List (Op R)) : Decidable (Restores live ops) :=
  inferInstanceAs (Decidable (_ = _))

theorem replay_acquire (h : r ∉ live) :
    replay live (.acquire r :: ops) = replay (insert r live) ops := by
  simp [replay, Op.apply, h]

theorem replay_release (h : r ∈ live) :
    replay live (.release r :: ops) = replay (live.erase r) ops := by
  simp [replay, Op.apply, h]

theorem replay_append :
    replay live (ops ++ ops') = (replay live ops).bind fun live' => replay live' ops' := by
  induction ops generalizing live with
  | nil => rfl
  | cons op ops ih =>
    simp only [List.cons_append, replay, Option.bind_assoc]
    congr
    funext live'
    exact ih

theorem Fresh.append_left (h : Fresh live (ops ++ ops')) : Fresh live ops := by
  induction ops generalizing live with
  | nil => trivial
  | cons op ops ih =>
    cases op with
    | acquire r => exact ⟨h.1, ih h.2⟩
    | release r => exact ih h

/-- A resource that is acquired and not released is left behind. -/
theorem not_restores_acquire (r : R) : ¬ Restores live [.acquire r] := by
  intro h
  by_cases hmem : r ∈ live
  · simp [Restores, replay, Op.apply, hmem] at h
  · rw [Restores, replay_acquire hmem, replay, Option.some_inj] at h
    exact hmem (h ▸ Finset.mem_insert_self r live)

/-! ## What is left behind -/

/-- If every acquisition is fresh then every operation is legal, and afterwards the
    resources of `left` are live in addition to those from before. -/
def Leaves (ops : List (Op R)) (left : Finset R) : Prop :=
  ∀ live, Fresh live ops → Disjoint live left ∧ replay live ops = some (live ∪ left)

theorem fresh_of_replay {live' : Finset R} (h : replay live ops = some live') : Fresh live ops := by
  induction ops generalizing live with
  | nil => trivial
  | cons op ops ih =>
    obtain ⟨next, hnext, hrest⟩ := Option.bind_eq_some_iff.mp h
    cases op with
    | acquire r =>
      by_cases hmem : r ∈ live
      · simp [Op.apply, hmem] at hnext
      · rw [Op.apply, if_neg hmem] at hnext
        cases hnext
        exact ⟨hmem, ih hrest⟩
    | release r =>
      by_cases hmem : r ∈ live
      · rw [Op.apply, if_pos hmem] at hnext
        cases hnext
        exact ih hrest
      · simp [Op.apply, hmem] at hnext

theorem Leaves.mem_replay {live' left : Finset R} (h : Leaves ops left)
    (hreplay : replay live ops = some live') : r ∈ live' ↔ r ∈ live ∨ r ∈ left := by
  obtain ⟨-, hlive⟩ := h live (fresh_of_replay hreplay)
  rw [hreplay] at hlive
  rw [Option.some.inj hlive, Finset.mem_union]

/-- What is left behind decides whether the live resources are restored. -/
theorem Leaves.restores_iff {left : Finset R} (h : Leaves ops left) (hfresh : Fresh live ops) :
    Restores live ops ↔ ∀ r, r ∉ left := by
  obtain ⟨hdisjoint, hreplay⟩ := h live hfresh
  rw [Restores, hreplay, Option.some_inj, Finset.union_eq_left, ← Finset.eq_empty_iff_forall_notMem]
  constructor
  · intro hsubset
    exact Finset.disjoint_self_iff_empty left |>.mp (hdisjoint.mono_left hsubset)
  · rintro rfl
    exact Finset.empty_subset live

theorem Leaves.nil : Leaves ([] : List (Op R)) ∅ := by
  intro live _
  exact ⟨Finset.disjoint_empty_right live, by rw [Finset.union_empty]; rfl⟩

theorem fresh_acquires {rs : List R} :
    Fresh live (rs.map Op.acquire ++ ops) ↔
      rs.Nodup ∧ Disjoint live rs.toFinset ∧ Fresh (live ∪ rs.toFinset) ops := by
  induction rs generalizing live with
  | nil => simp
  | cons r rs ih =>
    have hunion : insert r live ∪ rs.toFinset = live ∪ (r :: rs).toFinset := by
      ext s
      simp only [Finset.mem_union, Finset.mem_insert, List.toFinset_cons]
      tauto
    have hcons : Fresh live ((r :: rs).map Op.acquire ++ ops) ↔
        r ∉ live ∧ Fresh (insert r live) (rs.map Op.acquire ++ ops) := Iff.rfl
    rw [hcons, ih, hunion, List.nodup_cons, Finset.disjoint_insert_left, List.toFinset_cons,
      Finset.disjoint_insert_right, List.mem_toFinset]
    tauto

theorem replay_acquires {rs : List R} (hnodup : rs.Nodup) (hdisjoint : Disjoint live rs.toFinset) :
    replay live (rs.map Op.acquire) = some (live ∪ rs.toFinset) := by
  induction rs generalizing live with
  | nil => simp [replay]
  | cons r rs ih =>
    rw [List.nodup_cons] at hnodup
    rw [List.toFinset_cons, Finset.disjoint_insert_right] at hdisjoint
    have hrest : Disjoint (insert r live) rs.toFinset :=
      Finset.disjoint_insert_left.mpr ⟨by simpa using hnodup.1, hdisjoint.2⟩
    rw [List.map_cons, replay_acquire hdisjoint.1, ih hnodup.2 hrest, Finset.insert_union,
      List.toFinset_cons, Finset.union_insert]

theorem replay_releases {rs : List R} (hnodup : rs.Nodup) (hsubset : rs.toFinset ⊆ live) :
    replay live (rs.map Op.release) = some (live \ rs.toFinset) := by
  induction rs generalizing live with
  | nil => simp [replay]
  | cons r rs ih =>
    rw [List.nodup_cons] at hnodup
    rw [List.toFinset_cons, Finset.insert_subset_iff] at hsubset
    have hrest : rs.toFinset ⊆ live.erase r := by
      refine Finset.subset_erase.mpr ⟨hsubset.2, by simpa using hnodup.1⟩
    rw [List.map_cons, replay_release hsubset.1, ih hnodup.2 hrest, List.toFinset_cons]
    congr 1
    ext s
    simp only [Finset.mem_sdiff, Finset.mem_erase, Finset.mem_insert]
    tauto

/-- A scope that acquires some resources, and releases those that `p` selects. -/
theorem Leaves.scope {left : Finset R} (rs : List R) (p : R → Bool) (hbody : Leaves ops left) :
    Leaves (rs.map Op.acquire ++ (ops ++ (rs.filter p).map Op.release))
      (left ∪ (rs.filter fun r => !p r).toFinset) := by
  intro live hfresh
  obtain ⟨hnodup, hdisjoint, hinner⟩ := fresh_acquires.mp hfresh
  obtain ⟨hleft, hreplay⟩ := hbody (live ∪ rs.toFinset) hinner.append_left
  have hsubset : (rs.filter p).toFinset ⊆ live ∪ rs.toFinset ∪ left := by
    intro s hs
    simp only [List.mem_toFinset, List.mem_filter, Finset.mem_union] at hs ⊢
    exact .inl (.inr hs.1)
  rw [Finset.disjoint_union_left] at hleft
  refine ⟨?_, ?_⟩
  · refine Finset.disjoint_union_right.mpr ⟨hleft.1, ?_⟩
    refine hdisjoint.mono_right ?_
    intro s hs
    simp only [List.mem_toFinset, List.mem_filter] at hs ⊢
    exact hs.1
  · rw [replay_append, replay_acquires hnodup hdisjoint, Option.bind_some, replay_append, hreplay,
      Option.bind_some, replay_releases (hnodup.filter p) hsubset]
    congr 1
    ext s
    have hnotLive : s ∈ rs → s ∉ live := fun hs hlive =>
      Finset.disjoint_left.mp hdisjoint hlive (by simpa using hs)
    have hnotLeft : s ∈ rs → s ∉ left := fun hs hleft' =>
      Finset.disjoint_left.mp hleft.2 (by simpa using hs) hleft'
    simp only [Finset.mem_sdiff, Finset.mem_union, List.mem_toFinset, List.mem_filter,
      Bool.not_eq_true']
    cases p s <;> simp <;> tauto

/-! ## Uses -/

/-- Every operation is legal, and every use is permitted by the resource used,
    which is live then. -/
def Guarded (Permits : R → A → Prop) (live : Finset R) : List (Event R A) → Prop
  | [] => True
  | .op o :: events => ∃ live', o.apply live = some live' ∧ Guarded Permits live' events
  | .use r a :: events => (r ∈ live ∧ Permits r a) ∧ Guarded Permits live events

variable {Permits : R → A → Prop} {events events' : List (Event R A)}

section Events

omit [DecidableEq R]

@[simp] theorem operations_ops (ops : List (Op R)) :
    operations (ops.map Event.op : List (Event R A)) = ops := by
  simp [operations, List.filterMap_map, Function.comp_def, Event.op?]

@[simp] theorem operations_uses (f : τ → Event R A) (hf : ∀ t, (f t).op? = none) (ts : List τ) :
    operations (ts.map f) = [] := by
  simp [operations, hf]

@[simp] theorem operations_append :
    operations (events ++ events') = operations events ++ operations events' :=
  List.filterMap_append

@[simp] theorem uses_ops (ops : List (Op R)) : uses (ops.map Event.op : List (Event R A)) = [] := by
  simp [uses, Event.use?]

@[simp] theorem uses_append : uses (events ++ events') = uses events ++ uses events' :=
  List.filterMap_append

end Events

theorem guarded_append : Guarded Permits live (events ++ events') ↔
    Guarded Permits live events ∧
      ∃ live', replay live (operations events) = some live' ∧ Guarded Permits live' events' := by
  induction events generalizing live with
  | nil => simp [Guarded, operations, replay]
  | cons event events ih =>
    cases event with
    | op o =>
      have hops : operations (.op o :: events) = o :: operations events := rfl
      rw [hops, List.cons_append]
      constructor
      · rintro ⟨next, hnext, hrest⟩
        obtain ⟨hevents, live', hreplay, hrest⟩ := ih.mp hrest
        refine ⟨⟨next, hnext, hevents⟩, live', ?_, hrest⟩
        rw [replay, hnext]
        exact hreplay
      · rintro ⟨⟨next, hnext, hevents⟩, live', hreplay, hrest⟩
        rw [replay, hnext] at hreplay
        exact ⟨next, hnext, ih.mpr ⟨hevents, live', hreplay, hrest⟩⟩
    | use r a =>
      have hops : operations (.use r a :: events) = operations events := rfl
      rw [hops, List.cons_append, Guarded, Guarded, ih]
      exact and_assoc.symm

/-- Operations that can be replayed are legal. -/
theorem guarded_ops {live' : Finset R} (h : replay live ops = some live') :
    Guarded Permits live (ops.map Event.op) := by
  induction ops generalizing live with
  | nil => trivial
  | cons op ops ih =>
    obtain ⟨next, hnext, hrest⟩ := Option.bind_eq_some_iff.mp h
    exact ⟨next, hnext, ih hrest⟩

/-- Where the resources of `held` are live and every acquisition is fresh, every
    operation is legal and every use is permitted. -/
def Sound (Permits : R → A → Prop) (held : Finset R) (events : List (Event R A)) : Prop :=
  ∀ live, held ⊆ live → Fresh live (operations events) → Guarded Permits live events

variable {held : Finset R}

theorem Sound.nil : Sound Permits held [] := fun _ _ _ => trivial

theorem Sound.mono {held' : Finset R} (hsubset : held ⊆ held') (h : Sound Permits held events) :
    Sound Permits held' events :=
  fun live hheld => h live (hsubset.trans hheld)

theorem Sound.use_cons {a : A} (hr : r ∈ held) (hpermits : Permits r a)
    (h : Sound Permits held events) : Sound Permits held (.use r a :: events) := by
  intro live hheld hfresh
  exact ⟨⟨hheld hr, hpermits⟩, h live hheld hfresh⟩

/-- A scope that acquires some resources, lets its body use them, and releases those
    that `p` selects. -/
theorem Sound.scope {left : Finset R} (rs : List R) (p : R → Bool)
    (hleaves : Leaves (operations events) left)
    (hbody : Sound Permits (held ∪ rs.toFinset) events) :
    Sound Permits held ((rs.map Op.acquire).map Event.op ++
      (events ++ ((rs.filter p).map Op.release).map Event.op)) := by
  intro live hheld hfresh
  simp only [operations_append, operations_ops] at hfresh
  obtain ⟨hnodup, hdisjoint, hinner⟩ := fresh_acquires.mp hfresh
  have hacquired := replay_acquires hnodup hdisjoint
  obtain ⟨-, hreplay⟩ := hleaves.scope rs p live hfresh
  rw [replay_append, hacquired, Option.bind_some, replay_append] at hreplay
  obtain ⟨live', hlive', hreleased⟩ := Option.bind_eq_some_iff.mp hreplay
  refine guarded_append.mpr ⟨guarded_ops hacquired, live ∪ rs.toFinset, ?_, ?_⟩
  · rw [operations_ops, hacquired]
  · refine guarded_append.mpr ⟨?_, live', hlive', guarded_ops hreleased⟩
    exact hbody _ (Finset.union_subset_union_left hheld) hinner.append_left

end Resource
